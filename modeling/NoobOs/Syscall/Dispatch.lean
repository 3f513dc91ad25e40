import Mathlib.Data.UInt
import Mathlib.Data.List.Basic

/-!
`sys_hand` of `syscall.c`. The entry of `systab` is read before the number is tested, at
an address that wraps at 32 bits, and the test compares the shifted number with the size
of the table in bytes.
-/
namespace Syscall

inductive Handler where
  | sysRead | sysWrite | sysOpen | sysClose | sysYield | sysChdir | sysMkdir | sysUnlink
  | sysIoctl | sysDup | sysDup2 | sysFstat | sysGetdents
  deriving DecidableEq, Repr

def nsys : Nat := 50

/-- The initialised entries; C fills the rest with zeros. -/
def systab : List (Option Handler) :=
  [ none, none, none, some .sysRead, some .sysWrite, some .sysOpen, some .sysClose, none,
    some .sysYield, some .sysChdir, some .sysMkdir, some .sysUnlink, none, none, none,
    some .sysIoctl, some .sysDup, some .sysDup2, some .sysFstat, some .sysGetdents ] ++
  List.replicate (nsys - 20) none

/-- The kernel in memory: 32-bit words by address, where the table lies and what its
    pointers are. Whatever stands around the table is left open. -/
structure Image where
  word : UInt32 → UInt32
  base : UInt32
  entry : Handler → UInt32
  entry_ne : ∀ h, entry h ≠ 0
  table : ∀ i < nsys, word (base + 4 * UInt32.ofNat i) = ((systab[i]?.join).map entry).getD 0

structure Regs where
  eax : UInt32
  ebx : UInt32
  ecx : UInt32
  edx : UInt32
  esi : UInt32
  edi : UInt32
  ebp : UInt32

/-- A call of the function at an address, or the message about the number and `hlt` for ever. -/
inductive Outcome where
  | call (e a1 a2 a3 a4 a5 a6 : UInt32)
  | invalid (nr : UInt32)
  deriving DecidableEq

/-- The subscript `systab` is read at, and what follows. -/
structure Dispatch where
  index : UInt32
  outcome : Outcome

def sysHand (img : Image) (r : Regs) : Dispatch :=
  let e := img.word (img.base + 4 * r.eax)
  if e ≠ 0 ∧ (r.eax <<< 2).toNat ≤ 4 * nsys then
    ⟨r.eax, .call e r.ebx r.ecx r.edx r.esi r.edi r.ebp⟩
  else ⟨r.eax, .invalid r.eax⟩

/-- The handler of a number, if the number is below the size of the table and its entry is set. -/
def handlerOf (nr : UInt32) : Option Handler := systab[nr.toNat]?.join

/-- What should be called, or the error branch. -/
def expected (img : Image) (r : Regs) : Outcome :=
  match handlerOf r.eax with
  | some h => .call (img.entry h) r.ebx r.ecx r.edx r.esi r.edi r.ebp
  | none => .invalid r.eax

structure Dispatched (img : Image) (r : Regs) : Prop where
  inside : (sysHand img r).index.toNat < nsys
  outcome : (sysHand img r).outcome = expected img r

theorem sysHand_index (img : Image) (r : Regs) : (sysHand img r).index = r.eax := by
  simp only [sysHand]
  split <;> rfl

theorem shifted_small {nr : UInt32} (small : nr.toNat < nsys) : (nr <<< 2).toNat ≤ 4 * nsys := by
  have value : (nr <<< 2).toNat = nr.toNat * 4 % 2 ^ 32 := by
    rw [UInt32.toNat_shiftLeft, Nat.shiftLeft_eq]
    rfl
  simp only [nsys] at small ⊢
  omega

theorem entry_at (img : Image) {nr : UInt32} (small : nr.toNat < nsys) :
    img.word (img.base + 4 * nr) = ((handlerOf nr).map img.entry).getD 0 := by
  have table := img.table nr.toNat small
  rwa [UInt32.ofNat_toNat] at table

theorem outcome_expected_iff (img : Image) (r : Regs) :
    (sysHand img r).outcome = expected img r ↔
      r.eax.toNat < nsys ∨ img.word (img.base + 4 * r.eax) = 0 ∨
      4 * nsys < (r.eax <<< 2).toNat := by
  by_cases small : r.eax.toNat < nsys
  · have read := entry_at img small
    simp only [small, true_or, iff_true, expected]
    cases found : handlerOf r.eax with
    | some h =>
      rw [found] at read
      simp only [sysHand, read, Option.map_some, Option.getD_some, img.entry_ne h,
        shifted_small small,
        ne_eq, not_false_eq_true, and_self, if_true]
    | none =>
      rw [found] at read
      simp only [sysHand, read, Option.map_none, Option.getD_none, ne_eq, not_true_eq_false,
        false_and, if_false]
  · have missing : handlerOf r.eax = none := by
      have length : systab.length = nsys := rfl
      rw [handlerOf, List.getElem?_eq_none (by omega)]
      rfl
    simp only [small, false_or, expected, missing]
    by_cases called : img.word (img.base + 4 * r.eax) ≠ 0 ∧ (r.eax <<< 2).toNat ≤ 4 * nsys
    · have outcome : (sysHand img r).outcome =
          .call (img.word (img.base + 4 * r.eax)) r.ebx r.ecx r.edx r.esi r.edi r.ebp := by
        simp only [sysHand, called, ne_eq, not_false_eq_true, and_self, if_true]
      rw [outcome]
      constructor
      · intro same
        cases same
      · rintro (zero | large)
        · exact absurd zero called.1
        · omega
    · have outcome : (sysHand img r).outcome = .invalid r.eax := by
        simp only [sysHand, called, if_false]
      rw [outcome]
      constructor
      · intro _
        by_cases zero : img.word (img.base + 4 * r.eax) = 0
        · exact Or.inl zero
        · exact Or.inr (by by_contra low; exact called ⟨zero, by omega⟩)
      · intro _
        rfl

theorem sys_hand_dispatches_iff (img : Image) (r : Regs) :
    Dispatched img r ↔ r.eax.toNat < nsys := by
  constructor
  · intro right
    rw [← sysHand_index img r]
    exact right.inside
  · intro small
    exact ⟨by rwa [sysHand_index], (outcome_expected_iff img r).mpr (Or.inl small)⟩

def plainImage : Image where
  word a :=
    (systab[((a - 0x00120000) / 4).toNat]?.join.map fun h => 0x00100000 + 16 *
      h.ctorIdx.toUInt32).getD 0
  base := 0x00120000
  entry h := 0x00100000 + 16 * h.ctorIdx.toUInt32
  entry_ne h := by cases h <;> decide
  table := by decide +kernel

/-- Number 2^30 + 3 reads and passes the test as number 3 does. -/
theorem wrapped_number_calls_read :
    ¬ ∀ (img : Image) (r : Regs), Dispatched img r := by
  intro right
  have refused := (right plainImage ⟨0x40000003, 0, 0, 0, 0, 0, 0⟩).outcome
  revert refused
  decide +kernel

end Syscall
