import NoobOs.Lib.ByteMemory
import Mathlib.Data.UInt

/-!
`ata_devread` of `ide.c`, the read of `/dev/sda`. The disk is the sequence of its bytes, and
`dsk_read` returns the sector it is asked for. The loop over whole sectors reads the same
sector in every round, and does not make up for the bytes an unaligned start leaves out.
-/
namespace RawDisk
open ByteMemory

structure Device where
  off : UInt32
  bdStart : UInt32
  deriving DecidableEq

def dskRead (disk : Mem) (sect : UInt32) (buff : Mem) : Mem :=
  fun i => if i < 512 then disk (512 * sect.toNat + i) else buff i

def memcpy (dst : Mem) (place : Nat) (src : Mem) (off siz : Nat) : Mem :=
  fun x => if place ≤ x ∧ x < place + siz then src (off + (x - place)) else dst x

/-- The `for` loop with the rounds left: `off`, `buff` and `buf` after it. -/
def sectorLoop (disk : Mem) (sect : UInt32) : Nat → Nat → Nat → Mem → Mem → Nat × Mem × Mem
  | 0, _, off, buff, buf => (off, buff, buf)
  | rounds + 1, i, off, buff, buf =>
    let buff := dskRead disk sect buff
    sectorLoop disk sect rounds (i + 1) 0 buff (memcpy buf (i * 512) buff off (512 - off))

/-- The device and the caller's buffer after the call. `heap` is what `malloc` returns, with
    whatever lies behind its 512 bytes. -/
def ataDevread (disk heap : Mem) (d : Device) (buf : Mem) (count : UInt32) : Device × Mem :=
  let sect := d.bdStart + d.off / 512
  let i := (count / 512).toNat
  let (off, buff, buf) := sectorLoop disk sect i 0 (d.off % 512).toNat heap buf
  let buff := dskRead disk (sect + count / 512) buff
  ({ d with off := d.off + count }, memcpy buf (i * 512) buff off (count % 512).toNat)

/-! ## What is copied -/

section Copied
variable (disk heap buf : Mem)

theorem sectorLoop_aligned (sect : UInt32) (rounds i : Nat) (buff buf : Mem) :
    (sectorLoop disk sect rounds i 0 buff buf).1 = 0 ∧
      ∀ x, (sectorLoop disk sect rounds i 0 buff buf).2.2 x =
        if 512 * i ≤ x ∧ x < 512 * (i + rounds) then disk (512 * sect.toNat + x % 512)
        else buf x := by
  induction rounds generalizing i buff buf with
  | zero =>
    refine ⟨rfl, fun x => ?_⟩
    rw [if_neg (by omega)]
    rfl
  | succ rounds ih =>
    obtain ⟨start, bytes⟩ := ih (i + 1) (dskRead disk sect buff)
      (memcpy buf (i * 512) (dskRead disk sect buff) 0 512)
    refine ⟨start, fun x => ?_⟩
    rw [sectorLoop, bytes]
    by_cases later : 512 * (i + 1) ≤ x ∧ x < 512 * (i + 1 + rounds)
    · rw [if_pos later, if_pos (by omega)]
    · rw [if_neg later, memcpy]
      by_cases here : i * 512 ≤ x ∧ x < i * 512 + 512
      · have place : 0 + (x - i * 512) = x % 512 := by omega
        rw [if_pos here, if_pos (by omega), dskRead, place, if_pos (by omega)]
      · rw [if_neg here, if_neg (by omega)]

theorem ataDevread_short (d : Device) {count : UInt32} (short : count.toNat < 512) (x : Nat) :
    (ataDevread disk heap d buf count).2 x =
      if x < count.toNat then
        if d.off.toNat % 512 + x < 512 then
          disk (512 * ((d.bdStart.toNat + d.off.toNat / 512) % 2 ^ 32) + (d.off.toNat % 512 + x))
        else heap (d.off.toNat % 512 + x)
      else buf x := by
  have none' : count / 512 = 0 := by
    apply UInt32.toNat_inj.mp
    rw [UInt32.toNat_div]
    exact Nat.div_eq_of_lt short
  have tail : (count % 512).toNat = count.toNat := Nat.mod_eq_of_lt short
  have sect : (d.bdStart + d.off / 512 : UInt32).toNat =
      (d.bdStart.toNat + d.off.toNat / 512) % 2 ^ 32 := by
    rw [UInt32.toNat_add, UInt32.toNat_div]
    rfl
  have off : (d.off % 512).toNat = d.off.toNat % 512 := rfl
  simp only [ataDevread, none', UInt32.toNat_zero, sectorLoop, UInt32.add_zero, memcpy, dskRead,
    tail, sect, off]
  simp only [Nat.zero_mul, Nat.zero_le, true_and, Nat.zero_add, Nat.sub_zero]

theorem ataDevread_long (d : Device) {count : UInt32} (long : 512 ≤ count.toNat) (x : Nat) :
    (ataDevread disk heap d buf count).2 x =
      if count.toNat / 512 * 512 ≤ x ∧ x < count.toNat then
        disk (512 * ((d.bdStart.toNat + d.off.toNat / 512 + count.toNat / 512) % 2 ^ 32) + x % 512)
      else if 512 ≤ x ∧ x < count.toNat / 512 * 512 then
        disk (512 * ((d.bdStart.toNat + d.off.toNat / 512) % 2 ^ 32) + x % 512)
      else if x < 512 - d.off.toNat % 512 then
        disk (512 * ((d.bdStart.toNat + d.off.toNat / 512) % 2 ^ 32) + (d.off.toNat % 512 + x))
      else buf x := by
  have sect : (d.bdStart + d.off / 512 : UInt32).toNat =
      (d.bdStart.toNat + d.off.toNat / 512) % 2 ^ 32 := by
    rw [UInt32.toNat_add, UInt32.toNat_div]
    rfl
  have last : (d.bdStart + d.off / 512 + count / 512 : UInt32).toNat =
      (d.bdStart.toNat + d.off.toNat / 512 + count.toNat / 512) % 2 ^ 32 := by
    rw [UInt32.toNat_add, sect, UInt32.toNat_div, Nat.mod_add_mod]
    rfl
  have off : (d.off % 512).toNat = d.off.toNat % 512 := rfl
  have tail : (count % 512).toNat = count.toNat % 512 := rfl
  obtain ⟨rounds, sectors⟩ : ∃ rounds, (count / 512).toNat = rounds + 1 := by
    have whole : (count / 512).toNat = count.toNat / 512 := rfl
    exact ⟨count.toNat / 512 - 1, by omega⟩
  have whole : rounds + 1 = count.toNat / 512 := sectors.symm
  obtain ⟨start, bytes⟩ := sectorLoop_aligned disk (d.bdStart + d.off / 512) rounds 1
    (dskRead disk (d.bdStart + d.off / 512) heap)
    (memcpy buf (0 * 512) (dskRead disk (d.bdStart + d.off / 512) heap) (d.off.toNat % 512)
      (512 - d.off.toNat % 512))
  simp only [ataDevread, sectors, sectorLoop, off, tail]
  have total : (rounds + 1) * 512 + count.toNat % 512 = count.toNat := by
    rw [whole]
    exact Nat.div_add_mod' count.toNat 512
  rw [memcpy, start, dskRead, last, total, whole]
  have first : ∀ y, y < 512 → dskRead disk (d.bdStart + d.off / 512) heap y =
      disk (512 * ((d.bdStart.toNat + d.off.toNat / 512) % 2 ^ 32) + y) := by
    intro y inside
    rw [dskRead, if_pos inside, sect]
  simp only [sect] at bytes
  clear sect last off tail sectors start total
  by_cases inTail : count.toNat / 512 * 512 ≤ x ∧ x < count.toNat
  · have place : 0 + (x - count.toNat / 512 * 512) = x % 512 := by omega
    rw [if_pos inTail, if_pos inTail, place, if_pos (by omega)]
  · rw [if_neg inTail, if_neg inTail, bytes]
    by_cases inLoop : 512 ≤ x ∧ x < count.toNat / 512 * 512
    · rw [if_pos (by omega), if_pos inLoop]
    · rw [if_neg (by omega), if_neg inLoop, memcpy]
      by_cases inFirst : x < 512 - d.off.toNat % 512
      · have from' : d.off.toNat % 512 + (x - 0 * 512) = d.off.toNat % 512 + x := by
          rw [Nat.zero_mul, Nat.sub_zero]
        rw [if_pos (by omega), if_pos inFirst, from', first _ (by omega)]
      · rw [if_neg (fun within => inFirst (by simpa using within.2)), if_neg inFirst]

end Copied

/-! ## When it is the right part of the disk -/

/-- The bytes from the device's offset on, and nothing else, for every disk and whatever the two
    buffers held. -/
def Exact (d : Device) (count : UInt32) : Prop :=
  ∀ disk heap buf x, (ataDevread disk heap d buf count).2 x =
    if x < count.toNat then disk (512 * d.bdStart.toNat + d.off.toNat + x) else buf x

/-- The request stays inside one sector, or starts at one and ends before the second after it;
    and no sector number wraps. -/
def Readable (d : Device) (count : UInt32) : Prop :=
  count.toNat = 0 ∨
    (d.off.toNat % 512 + count.toNat ≤ 512 ∨ d.off.toNat % 512 = 0 ∧ count.toNat < 1024) ∧
      d.bdStart.toNat + (d.off.toNat + count.toNat - 1) / 512 < 2 ^ 32

section Right
variable {d : Device} {count : UInt32}

theorem readable_exact (readable : Readable d count) : Exact d count := by
  intro disk heap buf x
  unfold Readable at readable
  by_cases short : count.toNat < 512
  · rw [ataDevread_short disk heap buf d short]
    by_cases inside : x < count.toNat
    · have place : 512 * ((d.bdStart.toNat + d.off.toNat / 512) % 2 ^ 32) +
        (d.off.toNat % 512 + x) =
          512 * d.bdStart.toNat + d.off.toNat + x := by omega
      rw [if_pos inside, if_pos inside, if_pos (by omega), place]
    · rw [if_neg inside, if_neg inside]
  · rw [ataDevread_long disk heap buf d (by omega)]
    have one : count.toNat / 512 = 1 := by omega
    rw [one]
    by_cases inTail : 1 * 512 ≤ x ∧ x < count.toNat
    · have place : 512 * ((d.bdStart.toNat + d.off.toNat / 512 + 1) % 2 ^ 32) + x % 512 =
          512 * d.bdStart.toNat + d.off.toNat + x := by omega
      rw [if_pos inTail, if_pos inTail.2, place]
    · rw [if_neg inTail, if_neg (by omega)]
      by_cases inFirst : x < 512
      · have place : 512 * ((d.bdStart.toNat + d.off.toNat / 512) % 2 ^ 32) +
          (d.off.toNat % 512 + x) =
            512 * d.bdStart.toNat + d.off.toNat + x := by omega
        rw [if_pos (by omega), if_pos (by omega), place]
      · rw [if_neg (by omega), if_neg (by omega)]

theorem Exact.place (exact' : Exact d count) {x y : Nat} (inside : x < count.toNat)
    (reads : ∀ disk heap buf, (ataDevread disk heap d buf count).2 x = disk y) :
    y = 512 * d.bdStart.toNat + d.off.toNat + x := by
  have here := exact' (fun z => if z = y then 1 else 0) (fun _ => 0) (fun _ => 0) x
  rw [reads, if_pos inside, if_pos rfl] at here
  by_contra elsewhere
  rw [if_neg (fun same => elsewhere same.symm)] at here
  exact absurd here (by decide)

theorem Exact.from_disk (exact' : Exact d count) {x : Nat} (inside : x < count.toNat) :
    (ataDevread (fun _ => 0) (fun _ => 1) d (fun _ => 1) count).2 x = 0 := by
  rw [exact', if_pos inside]

theorem exact_readable (exact' : Exact d count) : Readable d count := by
  unfold Readable
  by_cases empty : count.toNat = 0
  · exact Or.inl empty
  right
  by_cases short : count.toNat < 512
  · -- The first byte fixes the sector, the first one after the sector would come from the heap.
    have start := exact'.place (x := 0) (by omega) fun disk heap buf => by
      rw [ataDevread_short disk heap buf d short, if_pos (by omega), if_pos (by omega)]
    have within : d.off.toNat % 512 + count.toNat ≤ 512 := by
      by_contra past
      have byte := exact'.from_disk (x := 512 - d.off.toNat % 512) (by omega)
      rw [ataDevread_short _ _ _ d short, if_pos (by omega), if_neg (by omega)] at byte
      exact absurd byte (by decide)
    exact ⟨Or.inl within, by omega⟩
  · have long : 512 ≤ count.toNat := by omega
    have aligned : d.off.toNat % 512 = 0 := by
      by_contra gap
      have byte := exact'.from_disk (x := 512 - d.off.toNat % 512) (by omega)
      rw [ataDevread_long _ _ _ d long, if_neg (by omega), if_neg (by omega),
        if_neg (by omega)] at byte
      exact absurd byte (by decide)
    have start := exact'.place (x := 0) (by omega) fun disk heap buf => by
      rw [ataDevread_long disk heap buf d long, if_neg (by omega), if_neg (by omega),
        if_pos (by omega)]
    have few : count.toNat < 1024 := by
      by_contra repeated
      have second := exact'.place (x := 512) (by omega) fun disk heap buf => by
        rw [ataDevread_long disk heap buf d long, if_neg (by omega), if_pos (by omega)]
      omega
    refine ⟨Or.inr ⟨aligned, few⟩, ?_⟩
    by_cases one : count.toNat = 512
    · omega
    · have second := exact'.place (x := 512) (by omega) fun disk heap buf => by
        rw [ataDevread_long disk heap buf d long, if_pos (by omega)]
      omega

end Right

/-! ## Successive reads -/

structure Call where
  count : UInt32
  heap : Mem
  buf : Mem

def ataDevreads (disk : Mem) : Device → List Call → List UInt8
  | _, [] => []
  | d, c :: cs =>
    let (d', buf) := ataDevread disk c.heap d c.buf c.count
    (List.range c.count.toNat).map buf ++ ataDevreads disk d' cs

def AllReadable : Device → List Call → Prop
  | _, [] => True
  | d, c :: cs => Readable d c.count ∧ AllReadable { d with off := d.off + c.count } cs

def total : List Call → Nat
  | [] => 0
  | c :: cs => c.count.toNat + total cs

theorem exact_bytes {d : Device} {count : UInt32} (exact' : Exact d count) (disk heap buf : Mem) :
    (List.range count.toNat).map (ataDevread disk heap d buf count).2 =
      (List.range count.toNat).map fun x => disk (512 * d.bdStart.toNat + d.off.toNat + x) := by
  apply List.map_congr_left
  intro x member
  rw [exact' disk heap buf x, if_pos (List.mem_range.mp member)]

/-- The offset is where the read before ended, until it wraps. -/
theorem ataDevreads_bytes (disk : Mem) (d : Device) (cs : List Call) (readable : AllReadable d cs)
    (bounded : d.off.toNat + total cs ≤ 2 ^ 32) :
    ataDevreads disk d cs =
      (List.range (total cs)).map fun x => disk (512 * d.bdStart.toNat + d.off.toNat + x) := by
  induction cs generalizing d with
  | nil => rfl
  | cons c cs ih =>
    obtain ⟨first, rest⟩ := readable
    have next : (d.off + c.count).toNat = (d.off.toNat + c.count.toNat) % 2 ^ 32 :=
      UInt32.toNat_add _ _
    have more : d.off.toNat + (c.count.toNat + total cs) ≤ 2 ^ 32 := bounded
    have later := ih _ rest (by rw [next]; omega)
    have tail : (ataDevreads disk { d with off := d.off + c.count } cs) =
        (List.range (total cs)).map fun x =>
          disk (512 * d.bdStart.toNat + d.off.toNat + (c.count.toNat + x)) := by
      rw [later]
      apply List.map_congr_left
      intro x member
      have some' := List.mem_range.mp member
      have place : 512 * d.bdStart.toNat + (d.off + c.count).toNat + x =
          512 * d.bdStart.toNat + d.off.toNat + (c.count.toNat + x) := by omega
      rw [place]
    have here := exact_bytes (readable_exact first) disk c.heap c.buf
    rw [total, List.range_add, List.map_append, List.map_map]
    exact congrArg₂ (· ++ ·) here tail

/-- A read is exact if and only if it is `Readable`, and reads from offset 0 that all are return
    a prefix of the device. -/
theorem devread_exact_iff (d : Device) (count : UInt32) (disk : Mem) (bdStart : UInt32)
    (cs : List Call) :
    (Exact d count ↔ Readable d count) ∧
      (AllReadable ⟨0, bdStart⟩ cs → total cs ≤ 2 ^ 32 →
        ataDevreads disk ⟨0, bdStart⟩ cs = (List.range (total cs)).map fun x =>
          disk (512 * bdStart.toNat + x)) := by
  refine ⟨⟨exact_readable, readable_exact⟩, fun readable bounded => ?_⟩
  have bytes := ataDevreads_bytes disk ⟨0, bdStart⟩ cs readable (by rw [UInt32.toNat_zero]; omega)
  rw [bytes]
  apply List.map_congr_left
  intro x _
  rw [UInt32.toNat_zero, Nat.add_zero]

def numbered : Mem := fun x => UInt8.ofNat (x / 512)

def empty : Mem := fun _ => 0

theorem two_sectors_in_turn :
    ataDevreads numbered ⟨0, 0⟩ [⟨512, empty, empty⟩, ⟨512, empty, empty⟩] =
      (List.range 1024).map fun x => numbered (512 * 0 + x) :=
  (devread_exact_iff ⟨0, 0⟩ 512 numbered 0 [⟨512, empty, empty⟩, ⟨512, empty, empty⟩]).2
    ⟨Or.inr (by decide), Or.inr (by decide), trivial⟩ (by decide)

/-- Read in one call, the second sector is the first one again. -/
theorem first_sector_twice :
    (ataDevread numbered empty ⟨0, 0⟩ empty 1024).2 512 = 0 ∧ numbered 512 = 1 ∧
    ¬ Exact ⟨0, 0⟩ 1024 := by
  have byte : (ataDevread numbered empty ⟨0, 0⟩ empty 1024).2 512 = 0 := by decide +kernel
  have other : numbered (512 * 0 + 0 + 512) = 1 := by decide
  refine ⟨byte, by decide, fun exact' => ?_⟩
  have claimed := exact' numbered empty empty 512
  rw [byte, if_pos (by decide)] at claimed
  exact absurd (claimed.trans other) (by decide)

end RawDisk
