import NoobOs.Driver.Pci
import NoobOs.Lib.BitFields
import Mathlib.Tactic.IntervalCases

/-!
The accessors of `pci.c` through the two ports: the address register selects a word of
configuration space, the data register is that word. The writers of part of a word read
the whole word back first.
-/
namespace PciPorts
open BitFields

structure Ports where
  cfgAddr : UInt32
  words : UInt32 → UInt32

def outlAddr (p : Ports) (addr : UInt32) : Ports := { p with cfgAddr := addr }

def inlData (p : Ports) : UInt32 := p.words p.cfgAddr

def outlData (p : Ports) (data : UInt32) : Ports :=
  { p with words := Function.update p.words p.cfgAddr data }

def address (bus slot func off : UInt32) : UInt32 :=
  (bus <<< 16) ||| (slot <<< 11) ||| (func <<< 8) ||| (off &&& 0xFC) ||| 0x80000000

section Accessors
variable (p : Ports) (bus slot func : UInt32)

def pciReadl (off : UInt8) : UInt32 × Ports :=
  let p := outlAddr p (address bus slot func off.toUInt32)
  (inlData p, p)

def pciReadw (off : UInt8) : UInt16 × Ports :=
  let p := outlAddr p (address bus slot func off.toUInt32)
  (((inlData p >>> ((off &&& 2) * 8).toUInt32) &&& 0xffff).toUInt16, p)

def pciReadb (off : UInt8) : UInt8 × Ports :=
  let align := off &&& ~~~ 3
  let (v, p) := pciReadl p bus slot func align
  (((v >>> ((off &&& 3) * 8).toUInt32) &&& 0xff).toUInt8, p)

def pciWritel (off data : UInt32) : Ports :=
  outlData (outlAddr p (address bus slot func off)) data

/-- The offset is a word here and a byte in `pci_readl`. -/
def pciWritew (off : UInt32) (data : UInt16) : Ports :=
  let align := off &&& ~~~ 3
  let (o, p) := pciReadl p bus slot func align.toUInt8
  let shift := ((off &&& 2) * 8).toUInt8
  let mask : UInt32 := 0xffff <<< shift.toUInt32
  let new := (o &&& mask) ||| (data.toUInt32 <<< shift.toUInt32)
  pciWritel p bus slot func align new

def pciWriteb (off : UInt32) (data : UInt8) : Ports :=
  let align := off &&& ~~~ 3
  let (o, p) := pciReadl p bus slot func align.toUInt8
  let shift := ((off &&& 3) * 8).toUInt8
  let mask : UInt32 := 0xff <<< shift.toUInt32
  let new := (o &&& mask) ||| (data.toUInt32 <<< shift.toUInt32)
  pciWritel p bus slot func align new

end Accessors

def byteAt (p : Ports) (addr : UInt32) (lane : Nat) : UInt8 :=
  .ofBitVec ((p.words addr).toBitVec.extractLsb' (8 * lane) 8)

def config (p : Ports) : Pci.Config := fun bus slot func i =>
  p.words (address (.ofNat bus) (.ofNat slot) (.ofNat func) (.ofNat (4 * i)))

theorem pciReadl_config (p : Ports) (bus slot func : UInt32) (off : UInt8) :
    (pciReadl p bus slot func off).1 =
      Pci.pciReadl (config p) bus.toNat slot.toNat func.toNat off.toNat := by
  have masks : ∀ x < 256, x &&& 252 = (4 * (x % 256 / 4)) % 2 ^ 32 &&& 252 := by decide +kernel
  have low : off.toUInt32 &&& 0xFC = UInt32.ofNat (4 * (off.toNat % 256 / 4)) &&& 0xFC := by
    apply UInt32.toNat_inj.mp
    rw [UInt32.toNat_and, UInt32.toNat_and, UInt8.toNat_toUInt32, UInt32.toNat_ofNat']
    exact masks off.toNat off.toNat_lt
  simp only [pciReadl, inlData, outlAddr, Pci.pciReadl, config, address, low, UInt32.ofNat_toNat]

/-! ## Addresses and lanes -/

theorem address_align (bus slot func off : UInt32) :
    address bus slot func (off &&& ~~~ 3) = address bus slot func off := by
  simp only [address, UInt32.and_assoc]
  rfl

theorem address_narrow (bus slot func off : UInt32) :
    address bus slot func off.toUInt8.toUInt32 = address bus slot func off := by
  have narrow : off.toUInt8.toUInt32 = off &&& 0xff := by
    apply UInt32.toNat_inj.mp
    rw [UInt8.toNat_toUInt32, UInt32.toNat_toUInt8, UInt32.toNat_and]
    exact (Nat.and_two_pow_sub_one_eq_mod off.toNat 8).symm
  simp only [address, narrow, UInt32.and_assoc]
  rfl

theorem lane_cases (off : UInt32) :
    (off &&& 3 = 0 ∧ off.toNat % 4 = 0) ∨ (off &&& 3 = 1 ∧ off.toNat % 4 = 1) ∨
      (off &&& 3 = 2 ∧ off.toNat % 4 = 2) ∨ (off &&& 3 = 3 ∧ off.toNat % 4 = 3) := by
  have value : (off &&& 3).toNat = off.toNat % 4 := by
    rw [UInt32.toNat_and]
    exact Nat.and_two_pow_sub_one_eq_mod off.toNat 2
  have small : off.toNat % 4 < 4 := Nat.mod_lt _ (by decide)
  simp only [← UInt32.toNat_inj, value]
  simp
  omega

theorem lane_shifts (off : UInt32) :
    ((off &&& 3).toUInt8 * 8).toUInt32 = .ofNat (8 * (off.toNat % 4)) ∧
      ((off &&& 3) * 8).toUInt8.toUInt32 = .ofNat (8 * (off.toNat % 4)) := by
  obtain ⟨lane, value⟩ | ⟨lane, value⟩ | ⟨lane, value⟩ | ⟨lane, value⟩ := lane_cases off
  all_goals
    rw [lane, value]
    exact ⟨rfl, rfl⟩

theorem half_lane {off : UInt32} (even : off.toNat % 2 = 0) : off &&& 2 = off &&& 3 := by
  have half : off &&& 2 = (off &&& 3) &&& 2 := by
    rw [UInt32.and_assoc]
    rfl
  rw [half]
  obtain ⟨lane, value⟩ | ⟨lane, value⟩ | ⟨lane, value⟩ | ⟨lane, value⟩ := lane_cases off
  · rw [lane]
    rfl
  · omega
  · rw [lane]
    rfl
  · omega

section Lanes
variable {n k : Nat} {m : UInt32} (isMask : m.toBitVec = fieldMask 32 n 0) (lane : k < 4)
include isMask lane

theorem lane_read (o : UInt32) (fits : n ≤ 32) :
    ((o >>> .ofNat (8 * k)) &&& m).toBitVec.setWidth n = o.toBitVec.extractLsb' (8 * k) n := by
  have shift : (o >>> UInt32.ofNat (8 * k)).toBitVec = o.toBitVec >>> (8 * k) := by
    rw [UInt32.toBitVec_shiftRight]
    interval_cases k <;> rfl
  rw [UInt32.toBitVec_and, shift, isMask]
  exact shifted_field _ _ fits

theorem lane_write (o wide : UInt32) (d : BitVec n) (same : wide.toBitVec = d.setWidth 32) :
    ((o &&& (m <<< .ofNat (8 * k))) ||| (wide <<< .ofNat (8 * k))).toBitVec =
      merge o.toBitVec (8 * k) d := by
  have shift (x : UInt32) : (x <<< UInt32.ofNat (8 * k)).toBitVec = x.toBitVec <<< (8 * k) := by
    rw [UInt32.toBitVec_shiftLeft]
    interval_cases k <;> rfl
  rw [UInt32.toBitVec_or, UInt32.toBitVec_and, shift, shift, isMask, same, merge, fieldMask,
    fieldMask, BitVec.shiftLeft_zero]

end Lanes

/-! ## The words behind the ports -/

section Words
variable (p : Ports) (bus slot func off : UInt32)

theorem pciReadl_align : pciReadl p bus slot func (off &&& ~~~ 3).toUInt8 =
    (p.words (address bus slot func off), outlAddr p (address bus slot func off)) := by
  simp only [pciReadl, address_narrow, address_align]
  rfl

theorem pciReadw_value (even : off.toNat % 2 = 0) :
    (pciReadw p bus slot func off.toUInt8).1.toBitVec =
      (p.words (address bus slot func off)).toBitVec.extractLsb' (8 * (off.toNat % 4)) 16 := by
  have half : off.toUInt8 &&& 2 = (off &&& 3).toUInt8 := by
    rw [← half_lane even]
    simp
  have read := lane_read (n := 16) (m := 0xffff) rfl (Nat.mod_lt off.toNat (by decide))
    (p.words (address bus slot func off)) (by decide)
  simp only [pciReadw, address_narrow, half, lane_shifts]
  exact read

theorem pciReadb_value :
    (pciReadb p bus slot func off.toUInt8).1.toBitVec =
      (p.words (address bus slot func off)).toBitVec.extractLsb' (8 * (off.toNat % 4)) 8 := by
  have aligned : off.toUInt8 &&& ~~~ 3 = (off &&& ~~~ 3).toUInt8 := by simp
  have third : off.toUInt8 &&& 3 = (off &&& 3).toUInt8 := by simp
  have read := lane_read (n := 8) (m := 0xff) rfl (Nat.mod_lt off.toNat (by decide))
    (p.words (address bus slot func off)) (by decide)
  simp only [pciReadb, aligned, pciReadl_align, third, lane_shifts]
  exact read

theorem pciWritew_words (data : UInt16) (even : off.toNat % 2 = 0) :
    (pciWritew p bus slot func off data).words =
      Function.update p.words (address bus slot func off)
        (.ofBitVec (merge (p.words (address bus slot func off)).toBitVec (8 * (off.toNat % 4))
          data.toBitVec)) := by
  have written := lane_write (m := 0xffff) rfl (Nat.mod_lt off.toNat (by decide))
    (p.words (address bus slot func off)) data.toUInt32 data.toBitVec rfl
  simp only [pciWritew, pciReadl_align, pciWritel, outlData, outlAddr, address_align,
    half_lane even, lane_shifts, ← written]

theorem pciWriteb_words (data : UInt8) :
    (pciWriteb p bus slot func off data).words =
      Function.update p.words (address bus slot func off)
        (.ofBitVec (merge (p.words (address bus slot func off)).toBitVec (8 * (off.toNat % 4))
          data.toBitVec)) := by
  have written := lane_write (m := 0xff) rfl (Nat.mod_lt off.toNat (by decide))
    (p.words (address bus slot func off)) data.toUInt32 data.toBitVec rfl
  simp only [pciWriteb, pciReadl_align, pciWritel, outlData, outlAddr, address_align,
    lane_shifts, ← written]

end Words

/-! ## What a write should do -/

/-- After the write, its place reads as the value, and no other byte has changed. -/
structure WroteWord (p : Ports) (bus slot func off : UInt32) (data : UInt16) : Prop where
  value : (pciReadw (pciWritew p bus slot func off data) bus slot func off.toUInt8).1 = data
  others : ∀ addr lane, lane < 4 →
    ¬ (addr = address bus slot func off ∧ (lane = off.toNat % 4 ∨ lane = off.toNat % 4 + 1)) →
    byteAt (pciWritew p bus slot func off data) addr lane = byteAt p addr lane

structure WroteByte (p : Ports) (bus slot func off : UInt32) (data : UInt8) : Prop where
  value : (pciReadb (pciWriteb p bus slot func off data) bus slot func off.toUInt8).1 = data
  others : ∀ addr lane, lane < 4 → ¬ (addr = address bus slot func off ∧ lane = off.toNat % 4) →
    byteAt (pciWriteb p bus slot func off data) addr lane = byteAt p addr lane

section Merged
variable {n : Nat} {p q : Ports} {addr : UInt32} {s : Nat} {d : BitVec n}

/-- Outside the field a merged word has only zero bytes, elsewhere nothing changes. -/
theorem others_kept_iff (fits : s + n ≤ 32)
    (written : q.words = Function.update p.words addr
    (.ofBitVec (merge (p.words addr).toBitVec s d)))
    (inField : Nat → Prop)
    (field : ∀ lane < 4, ¬ inField lane → 8 * lane + 8 ≤ s ∨ s + n ≤ 8 * lane) :
    (∀ other lane, lane < 4 → ¬ (other = addr ∧ inField lane) →
    byteAt q other lane = byteAt p other lane) ↔
      ∀ lane < 4, ¬ inField lane → byteAt p addr lane = 0 := by
  have cleared : ∀ lane < 4, ¬ inField lane → byteAt q addr lane = 0 := by
    intro lane below outside
    simp only [byteAt, written, Function.update_self,
      merge_outside _ d fits (field lane below outside)]
    rfl
  constructor
  · intro kept lane below outside
    rw [← kept addr lane below fun both => outside both.2]
    exact cleared lane below outside
  · intro zero other lane below outside
    by_cases here : other = addr
    · subst here
      have free : ¬ inField lane := fun inside => outside ⟨rfl, inside⟩
      rw [cleared lane below free, zero lane below free]
    · simp only [byteAt, written, Function.update_of_ne here]

end Merged

theorem pci_subword_writes_iff (p : Ports) (bus slot func off : UInt32) :
    (∀ data : UInt16, off.toNat % 2 = 0 →
      (WroteWord p bus slot func off data ↔
        (∀ lane < 4, ¬ (lane = off.toNat % 4 ∨ lane = off.toNat % 4 + 1) →
          byteAt p (address bus slot func off) lane = 0) ∧
        (pciReadw p bus slot func off.toUInt8).1 ||| data = data)) ∧
    ∀ data : UInt8,
      WroteByte p bus slot func off data ↔
        (∀ lane < 4, ¬ lane = off.toNat % 4 → byteAt p (address bus slot func off) lane = 0) ∧
        (pciReadb p bus slot func off.toUInt8).1 ||| data = data := by
  have small : off.toNat % 4 < 4 := Nat.mod_lt _ (by decide)
  constructor
  · intro data even
    have fits : 8 * (off.toNat % 4) + 16 ≤ 32 := by omega
    have written := pciWritew_words p bus slot func off data even
    have reads : (pciReadw (pciWritew p bus slot func off data) bus slot func off.toUInt8).1 =
        (pciReadw p bus slot func off.toUInt8).1 ||| data := by
      apply UInt16.toBitVec_inj.mp
      rw [UInt16.toBitVec_or, pciReadw_value _ _ _ _ _ even, pciReadw_value _ _ _ _ _ even, written,
        Function.update_self]
      exact merge_field _ _ fits
    have others := others_kept_iff fits written (fun lane => lane = off.toNat % 4 ∨
      lane = off.toNat % 4 + 1)
      (fun lane _ outside => by omega)
    constructor
    · intro right
      exact ⟨others.mp right.others, reads ▸ right.value⟩
    · intro cond
      exact ⟨reads.trans cond.2, others.mpr cond.1⟩
  · intro data
    have fits : 8 * (off.toNat % 4) + 8 ≤ 32 := by omega
    have written := pciWriteb_words p bus slot func off data
    have reads : (pciReadb (pciWriteb p bus slot func off data) bus slot func off.toUInt8).1 =
        (pciReadb p bus slot func off.toUInt8).1 ||| data := by
      apply UInt8.toBitVec_inj.mp
      rw [UInt8.toBitVec_or, pciReadb_value, pciReadb_value, written, Function.update_self]
      exact merge_field _ _ fits
    have others := others_kept_iff fits written (fun lane => lane = off.toNat % 4)
      (fun lane _ outside => by omega)
    constructor
    · intro right
      exact ⟨others.mp right.others, reads ▸ right.value⟩
    · intro cond
      exact ⟨reads.trans cond.2, others.mpr cond.1⟩

/-- The command register of a device that answers: bus mastering is asked for on its own, the
    old bits stay and the status register next to it is cleared. -/
theorem command_write_merges :
    ¬ ∀ (p : Ports) (bus slot func off : UInt32) (data : UInt16), off.toNat % 2 = 0 →
      WroteWord p bus slot func off data := by
  intro right
  have value := (right ⟨0, fun _ => 0x02900101⟩ 0 3 0 4 0x0006 (by decide)).value
  revert value
  decide

end PciPorts
