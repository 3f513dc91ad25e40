import NoobOs.Lib.ByteMemory
import NoobOs.Lib.EntryChain
import Mathlib.Data.UInt
import Mathlib.Logic.Function.Basic

/-!
The interrupt table of ACPI: `parse_madt` and `irq2gsi` of `apic.c`. The table is what memory holds
from its address on; it does not reach the end of the address space. `none` is a store past the end
of `irq_overrides`, or a walk that goes on too long.
-/
namespace Madt
open ByteMemory EntryChain

def maxOverride : Nat := 20
def overrideExists : UInt8 := 0x80
def lapicIdNone : UInt8 := 0xde

def mentryLapic : UInt8 := 0
def mentryIopic : UInt8 := 1
def mentryIoverride : UInt8 := 2

structure IntOverride where
  bus : UInt8
  source : UInt8
  flg : UInt8
  gsi : Nat

structure Apic where
  lapicId : UInt8
  ioapicAddr : Nat
  gsiBase : Nat
  irqOverrides : Nat → IntOverride

def boot : Apic := ⟨lapicIdNone, 0, 0, fun _ => ⟨0, 0, 0, 0⟩⟩

def setOverride (m : Mem) (data : Nat) (s : Apic) : Option Apic :=
  let irqSrc := m (data + 1)
  let iso : IntOverride := ⟨m data, irqSrc, m (data + 6) ||| overrideExists, load32 m (data + 2)⟩
  if irqSrc.toNat < maxOverride then
    some { s with irqOverrides := Function.update s.irqOverrides irqSrc.toNat iso }
  else none

def madtEntry (m : Mem) (ptr : Nat) (s : Apic) : Option Apic :=
  let data := ptr + 2
  if m ptr = mentryLapic then
    some (if s.lapicId = lapicIdNone then { s with lapicId := m (data + 1) } else s)
  else if m ptr = mentryIopic then
    some { s with ioapicAddr := load32 m (data + 2), gsiBase := load32 m (data + 6) }
  else if m ptr = mentryIoverride then setOverride m data s
  else some s

def nextEntry (m : Mem) (ptr : Nat) : Option Nat := some (ptr + (m (ptr + 1)).toNat)

/-- `tab->h.len` is at offset 4, `tab->mentry` at 44. -/
def tableEnd (m : Mem) (tab : Nat) : Nat := tab + load32 m (tab + 4)

/-- `tab` is what `get_acpitab` returns. -/
def parseMadt (fuel : Nat) (m : Mem) (tab : Option Nat) (s : Apic) : Option Apic :=
  match tab with
  | none => some s
  | some tab =>
    (walk (· < tableEnd m tab) (nextEntry m) (madtEntry m) fuel (tab + 44) s).map Prod.fst

/-- The `int` as the bits of its 32. -/
def irq2gsi (s : Apic) (irq : Nat) : Nat :=
  if (s.irqOverrides irq).flg &&& overrideExists ≠ 0 then (s.irqOverrides irq).gsi else irq

/-- An entry that overrides an interrupt line. -/
def Overrides (m : Mem) (irq ptr : Nat) : Prop :=
  m ptr = mentryIoverride ∧ (m (ptr + 3)).toNat = irq

instance (m : Mem) (irq ptr : Nat) : Decidable (Overrides m irq ptr) :=
  inferInstanceAs (Decidable (_ ∧ _))

/-- The line that the last override among the entries gives it, or the line itself. -/
def routed (m : Mem) (ps : List Nat) (irq : Nat) : Nat :=
  (((ps.filter (Overrides m irq ·)).getLast?).map fun ptr => load32 m (ptr + 4)).getD irq

/-- The entries that the walk comes to, and a list of all of them that meets the end of the table.
    -/
def Entry (m : Mem) (tab ptr : Nat) : Prop :=
  Visited (· < tableEnd m tab) (nextEntry m) (tab + 44) ptr
def Exact (m : Mem) (tab : Nat) (ps : List Nat) : Prop :=
  Chain (· < tableEnd m tab) (nextEntry m) (tab + 44) ps (tableEnd m tab)

/-- The walk ends, within `irq_overrides`, and an exact table routes the lines as its entries say.
    -/
def Parsed (m : Mem) (tab : Nat) : Prop :=
  ∃ fuel s, parseMadt fuel m (some tab) boot = some s ∧
    ∀ ps, Exact m tab ps → ∀ irq < maxOverride, irq2gsi s irq = routed m ps irq

section Walk
variable {m : Mem} {tab ptr irq : Nat} {s s' : Apic}

theorem setOverride_defined (data : Nat) (s : Apic) :
    (∃ s', setOverride m data s = some s') ↔ (m (data + 1)).toNat < maxOverride := by
  unfold setOverride
  by_cases inside : (m (data + 1)).toNat < maxOverride
  · simp [inside]
  · simp [inside]

theorem marked (flags : UInt8) :
    (flags ||| overrideExists) &&& overrideExists = overrideExists := by
  apply UInt8.toBitVec_inj.mp
  ext i inside
  simp only [UInt8.toBitVec_and, UInt8.toBitVec_or, BitVec.getElem_and, BitVec.getElem_or]
  cases flags.toBitVec[i] <;> simp

theorem setOverride_routes {data : Nat} (stored : setOverride m data s = some s') (irq : Nat) :
    irq2gsi s' irq = if (m (data + 1)).toNat = irq then load32 m (data + 2) else irq2gsi s irq := by
  unfold setOverride at stored
  dsimp only at stored
  split at stored
  · cases stored
    by_cases same : (m (data + 1)).toNat = irq
    · subst same
      have exists' : overrideExists ≠ 0 := by decide
      simp [irq2gsi, marked, exists']
    · simp [irq2gsi, same, Ne.symm same]
  · cases stored

theorem madtEntry_override (iover : m ptr = mentryIoverride) (s : Apic) :
    madtEntry m ptr s = setOverride m (ptr + 2) s := by
  unfold madtEntry
  rw [if_neg (by rw [iover]; decide), if_neg (by rw [iover]; decide), if_pos iover]

theorem madtEntry_other (other : m ptr ≠ mentryIoverride) (s : Apic) :
    ∃ s', madtEntry m ptr s = some s' ∧ s'.irqOverrides = s.irqOverrides := by
  unfold madtEntry
  dsimp only
  rw [if_neg other]
  split
  · refine ⟨_, rfl, ?_⟩
    split <;> rfl
  · split
    · exact ⟨_, rfl, rfl⟩
    · exact ⟨s, rfl, rfl⟩

theorem madtEntry_defined (m : Mem) (ptr : Nat) (s : Apic) :
    (∃ s', madtEntry m ptr s = some s') ↔
    (m ptr = mentryIoverride → (m (ptr + 3)).toNat < maxOverride) := by
  by_cases iover : m ptr = mentryIoverride
  · rw [madtEntry_override iover, setOverride_defined]
    exact ⟨fun inside _ => inside, fun inside => inside iover⟩
  · obtain ⟨s', entered, -⟩ := madtEntry_other iover s
    exact iff_of_true ⟨s', entered⟩ fun same => absurd same iover

theorem madtEntry_routes (entered : madtEntry m ptr s = some s') (irq : Nat) :
    irq2gsi s' irq = if Overrides m irq ptr then load32 m (ptr + 4) else irq2gsi s irq := by
  by_cases iover : m ptr = mentryIoverride
  · rw [madtEntry_override iover] at entered
    rw [setOverride_routes entered irq]
    exact if_congr (and_iff_right iover).symm rfl rfl
  · obtain ⟨s'', entered', same⟩ := madtEntry_other iover s
    rw [entered] at entered'
    cases entered'
    rw [if_neg fun both : Overrides m irq ptr => iover both.1, irq2gsi, irq2gsi, same]

/-- The visits of a list of entries: the last override of a line is the one that is left. -/
theorem visits_route {ps : List Nat}
    (visited : ps.foldlM (fun s ptr => madtEntry m ptr s) s = some s') (irq : Nat) :
    irq2gsi s' irq = (((ps.filter (Overrides m irq ·)).getLast?).map fun ptr =>
      load32 m (ptr + 4)).getD (irq2gsi s irq) := by
  induction ps generalizing s with
  | nil =>
    cases visited
    rfl
  | cons ptr ps ih =>
    rw [List.foldlM_cons] at visited
    obtain ⟨s₁, entered, rest⟩ := Option.bind_eq_some_iff.mp visited
    rw [ih rest, madtEntry_routes entered irq]
    by_cases iover : Overrides m irq ptr
    · rw [if_pos iover, List.filter_cons_of_pos (by simpa using iover), List.getLast?_cons]
      cases (ps.filter (Overrides m irq ·)).getLast? with
      | none => rfl
      | some q => rfl
    · rw [if_neg iover, List.filter_cons_of_neg (by simpa using iover)]

/-- An entry of length 0 is never left, and one that overrides a line past the array stores there.
    -/
theorem Parsed.entries (parsed : Parsed m tab) (entry : Entry m tab ptr) :
    m (ptr + 1) ≠ 0 ∧ (m ptr = mentryIoverride → (m (ptr + 3)).toNat < maxOverride) := by
  obtain ⟨fuel, s, done, -⟩ := parsed
  obtain ⟨r, walked, -⟩ := Option.map_eq_some_iff.mp done
  obtain ⟨⟨s₀, s₁, entered⟩, q, link, apart⟩ := walk_met walked entry
  refine ⟨?_, (madtEntry_defined m ptr s₀).mp ⟨s₁, entered⟩⟩
  intro zero
  cases link
  exact apart (by simp [zero])

end Walk

/-- The walk ends in bounds, with the lines routed, just when no entry it comes to has length 0 or
    overrides a line past the array. -/
theorem parse_madt_iff (m : Mem) (tab : Nat) : Parsed m tab ↔
    ∀ ptr, Entry m tab ptr → m (ptr + 1) ≠ 0 ∧
    (m ptr = mentryIoverride → (m (ptr + 3)).toNat < maxOverride) := by
  constructor
  · exact fun parsed ptr entry => parsed.entries entry
  · intro good
    have defined : ∀ ptr, Entry m tab ptr → (∀ s, ∃ s', madtEntry m ptr s = some s') ∧
        ∃ q, nextEntry m ptr = some q ∧ ptr < q := by
      intro ptr entry
      obtain ⟨nonzero, inside⟩ := good ptr entry
      have length : 0 < (m (ptr + 1)).toNat := by
        rw [Nat.pos_iff_ne_zero]
        exact fun zero => nonzero (UInt8.toNat_inj.mp zero)
      exact ⟨fun s => (madtEntry_defined m ptr s).mpr inside, _, rfl,
        Nat.lt_add_of_pos_right length⟩
    obtain ⟨⟨s, e⟩, walked⟩ :=
      walk_ends (fun _ less => less) defined (tableEnd m tab + 1) (by omega) boot (by omega)
    refine ⟨tableEnd m tab + 1, s, congrArg (Option.map Prod.fst) walked, ?_⟩
    intro ps chain irq _
    have longer := walk_mono (Nat.le_add_right (tableEnd m tab + 1) (ps.length + 1)) walked
    rw [walk_chain chain (Nat.lt_irrefl _) (by omega)] at longer
    obtain ⟨s', visited, same⟩ := Option.map_eq_some_iff.mp longer
    cases same
    have start : irq2gsi boot irq = irq := if_neg (by simp [boot])
    rw [visits_route visited irq, start, routed]

def stuckTable : Mem := fun x => if x = 4100 then 45 else 0
def farTable : Mem := fun x =>
  if x = 4100 then 54 else if x = 4140 then 2 else if x = 4141 then 10
  else if x = 4143 then 200 else 0

theorem bad_tables : ¬ Parsed stuckTable 4096 ∧ ¬ Parsed farTable 4096 := by
  have stuck : Entry stuckTable 4096 4140 := Visited.here (by decide)
  have far : Entry farTable 4096 4140 := Visited.here (by decide)
  constructor
  · exact fun parsed => (parsed.entries stuck).1 rfl
  · exact fun parsed => absurd ((parsed.entries far).2 rfl) (by decide)

end Madt
