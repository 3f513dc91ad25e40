import NoobOs.Lib.Orbits
import Mathlib.Data.UInt
import Mathlib.Data.List.FinRange
import Mathlib.Data.Finset.Range

/-!
`pci_init` of `pci.c`. It walks one bus, takes the header of every function from function 0,
and at the first bridge leaves the bus for the bridge's subordinate one, never to come back.
Configuration space does not change while it is read; `none` is a loop that never ends, its
fuel being the number of states the loop has.
-/
namespace Pci
open Orbits

abbrev Config := Nat → Nat → Nat → Nat → UInt32

def pciReadl (cfg : Config) (bus slot func off : Nat) : UInt32 := cfg bus slot func (off % 256 / 4)

def pciReadb (cfg : Config) (bus slot func off : Nat) : Nat :=
  (pciReadl cfg bus slot func off).toNat / 2 ^ (off % 4 * 8) % 256

abbrev Header := List UInt32

def pciReadall (cfg : Config) (bus dev func : Nat) : Header :=
  (List.range 16).map fun i => pciReadl cfg bus dev func (i * 4)

def word (h : Header) (i : Nat) : UInt32 := h.getD i 0

def byte (h : Header) (i : Nat) : Nat := (word h (i / 4)).toNat / 2 ^ (i % 4 * 8) % 256

def capptr (h : Header) : Nat := byte h 0x34
def sBusnum (h : Header) : Nat := byte h 0x19
def ssBusnum (h : Header) : Nat := byte h 0x1a

structure Pcidev where
  hdr : Header
  id : UInt32
  loc : Nat
  func : Nat
  entries : UInt32
  deriving DecidableEq

/-- The table of an MSI-X capability: the BAR that `bir` names, and an offset. Six BARs are
    followed by other words of the header. -/
def msixEntries (h : Header) (table : UInt32) : UInt32 :=
  word h (4 + (table &&& 7).toNat) + (table &&& ~~~ 7)

/-- The walk over the capabilities: `pdev->entries` at its end. -/
def capWalk (cfg : Config) (bus dev func : Nat) (h : Header) : Nat → Nat → UInt32 → Option UInt32
  | 0, _, _ => none
  | fuel + 1, cap, entries =>
    if cap = 0 then some entries
    else
      let capId := pciReadb cfg bus dev func cap
      let next := pciReadb cfg bus dev func ((cap + 1) % 256)
      let entries :=
        if capId = 0x11 then msixEntries h (pciReadl cfg bus dev func ((cap + 4) % 256))
        else entries
      capWalk cfg bus dev func h fuel next entries

/-- A function that answers: the header of function 0 is stored, and its `capptr` is taken for the
    status that says whether there are capabilities. `init_virtio_blk` does nothing yet. -/
def probe (cfg : Config) (bus dev func : Nat) : Option Pcidev := do
  let id := pciReadl cfg bus dev func 0
  let h := pciReadall cfg bus dev 0
  let loc := bus <<< 16 ||| dev
  let entries ←
    if capptr h &&& 0x10 ≠ 0 then capWalk cfg bus dev func h 256 (pciReadb cfg bus dev func 0x34) 0
    else some 0
  return ⟨h, id, loc, func, entries⟩

def headerType (cfg : Config) (bus dev func : Nat) : Nat :=
  (pciReadl cfg bus dev func 0xc).toNat / 2 ^ 16 % 256

def isBridge (cfg : Config) (bus dev func : Nat) : Bool := headerType cfg bus dev func &&& 0x7f = 1

def multifunction (cfg : Config) (bus dev : Nat) : Bool := headerType cfg bus dev 0 &&& 0x80 ≠ 0

def answers (cfg : Config) (bus dev func : Nat) : Bool := pciReadl cfg bus dev func 0 ≠ 0xffffffff

def scanFuncs (cfg : Config) (bus dev : Nat) :
    List Nat → List Pcidev → Option (List Pcidev × Option Nat)
  | [], devs => some (devs, none)
  | func :: funcs, devs =>
    if answers cfg bus dev func then do
      let pdev ← probe cfg bus dev func
      let devs := pdev :: devs
      if isBridge cfg bus dev func then return (devs, some (ssBusnum (pciReadall cfg bus dev func)))
      if func = 0 ∧ ¬ multifunction cfg bus dev then return (devs, none)
      scanFuncs cfg bus dev funcs devs
    else scanFuncs cfg bus dev funcs devs

def scanDevs (cfg : Config) (bus : Nat) : List Nat → List Pcidev → Option (List Pcidev × Option Nat)
  | [], devs => some (devs, none)
  | dev :: rest, devs => do
    match ← scanFuncs cfg bus dev (List.range 8) devs with
    | (devs, some bus') => return (devs, some bus')
    | (devs, none) => scanDevs cfg bus rest devs

def scanFrom (cfg : Config) : Nat → Nat → List Pcidev → Option (List Pcidev)
  | 0, _, _ => none
  | fuel + 1, bus, devs => do
    match ← scanDevs cfg bus (List.range 32) devs with
    | (devs, none) => return devs
    | (devs, some bus') => scanFrom cfg fuel bus' devs

def pciInit (cfg : Config) : Option (List Pcidev) := scanFrom cfg 256 0 []

/-! ## What there is to enumerate -/

/-- A function that answers; the others of a device with one function are no functions of it. -/
structure Present (cfg : Config) (bus dev func : Nat) : Prop where
  inBus : dev < 32
  inDev : func < 8
  here : answers cfg bus dev func
  own : func = 0 ∨ ¬ (answers cfg bus dev 0 ∧ ¬ multifunction cfg bus dev)

/-- The buses below bus 0: those that a bridge on one of them has for its secondary bus. -/
inductive Reach (cfg : Config) : Nat → Prop where
  | root : Reach cfg 0
  | behind {bus dev func : Nat} (reach : Reach cfg bus) (present : Present cfg bus dev func)
      (bridge : isBridge cfg bus dev func) (assigned : sBusnum (pciReadall cfg bus dev func) ≠ 0) :
      Reach cfg (sBusnum (pciReadall cfg bus dev func))

def place (p : Pcidev) : Nat × Nat := (p.loc, p.func)

def placeOf (bus dev func : Nat) : Nat × Nat := (bus <<< 16 ||| dev, func)

/-- `pci_init` returns, each entry is a function below bus 0 with its id and its own header, and
    each such function has one entry. -/
def EnumeratesRight (cfg : Config) : Prop :=
  ∃ devs, pciInit cfg = some devs ∧
    (∀ p ∈ devs, ∃ bus dev func, Reach cfg bus ∧ Present cfg bus dev func ∧
      place p = placeOf bus dev func ∧
      p.id = pciReadl cfg bus dev func 0 ∧ p.hdr = pciReadall cfg bus dev func) ∧
    ∀ bus dev func, Reach cfg bus → Present cfg bus dev func →
      (devs.map place).count (placeOf bus dev func) = 1

/-! ## What is found on a bus -/

def funcsOf (cfg : Config) (bus dev : Nat) : List Nat :=
  if answers cfg bus dev 0 ∧ ¬ multifunction cfg bus dev then [0]
  else (List.range 8).filter fun func => answers cfg bus dev func

def functions (cfg : Config) (bus : Nat) : List (Nat × Nat) :=
  (List.range 32).flatMap fun dev => (funcsOf cfg bus dev).map fun func => (dev, func)

def upToBridge (cfg : Config) (bus : Nat) : List (Nat × Nat) → List (Nat × Nat)
  | [] => []
  | (dev, func) :: rest => if isBridge cfg bus dev func then [(dev, func)]
    else (dev, func) :: upToBridge cfg bus rest

def listed (cfg : Config) (bus : Nat) : List (Nat × Nat) := upToBridge cfg bus (functions cfg bus)

/-- The bus the scan goes on with: the subordinate one of the first bridge. -/
def nextBus (cfg : Config) (bus : Nat) : Option Nat :=
  ((functions cfg bus).find? fun x => isBridge cfg bus x.1 x.2).map fun x =>
    ssBusnum (pciReadall cfg bus x.1 x.2)

def nextCap (cfg : Config) (bus dev func cap : Nat) : Option Nat :=
  if cap = 0 then none else some (pciReadb cfg bus dev func ((cap + 1) % 256))

/-- The capability list that is followed for a function has an end. -/
def CapsEnd (cfg : Config) (bus dev func : Nat) : Prop :=
  capptr (pciReadall cfg bus dev 0) &&& 0x10 ≠ 0 →
    ∃ caps, Path (nextCap cfg bus dev func) (pciReadb cfg bus dev func 0x34) caps

/-- `route` are the buses from bus 0 along the subordinate numbers of the first bridges. Nothing is
    behind the bridge on any of them, the buses with functions on them are those below bus 0, every
    function has the header of function 0, and every capability list that is followed ends. -/
structure Followed (cfg : Config) (route : List Nat) : Prop where
  path : Path (nextBus cfg) 0 route
  last : ∀ bus ∈ route, listed cfg bus = functions cfg bus
  below : ∀ bus, functions cfg bus ≠ [] → (bus ∈ route ↔ Reach cfg bus)
  headers : ∀ bus ∈ route, ∀ x ∈ functions cfg bus, pciReadall cfg bus x.1 x.2 =
    pciReadall cfg bus x.1 0
  caps : ∀ bus ∈ route, ∀ x ∈ functions cfg bus, CapsEnd cfg bus x.1 x.2

section Scan
variable {cfg : Config} {bus dev func : Nat}

theorem mem_funcsOf (inDev : dev < 32) : func ∈ funcsOf cfg bus dev ↔ Present cfg bus dev func := by
  unfold funcsOf
  by_cases single : answers cfg bus dev 0 ∧ ¬ multifunction cfg bus dev
  · rw [if_pos single, List.mem_singleton]
    constructor
    · rintro rfl
      exact ⟨inDev, by omega, single.1, Or.inl rfl⟩
    · intro present
      exact present.own.resolve_right fun other => other single
  · rw [if_neg single, List.mem_filter, List.mem_range]
    constructor
    · rintro ⟨bound, here⟩
      exact ⟨inDev, bound, here, Or.inr single⟩
    · intro present
      exact ⟨present.inDev, present.here⟩

theorem mem_functions : (dev, func) ∈ functions cfg bus ↔ Present cfg bus dev func := by
  simp only [functions, List.mem_flatMap, List.mem_range, List.mem_map, Prod.mk.injEq]
  constructor
  · rintro ⟨dev', inDev, func', member, rfl, rfl⟩
    exact (mem_funcsOf inDev).mp member
  · intro present
    exact ⟨dev, present.inBus, func, (mem_funcsOf present.inBus).mpr present, rfl, rfl⟩

theorem functions_nodup (cfg : Config) (bus : Nat) : (functions cfg bus).Nodup := by
  rw [functions, List.nodup_flatMap]
  constructor
  · intro dev _
    apply List.Nodup.map
    · intro f g same
      exact (Prod.mk.inj same).2
    · unfold funcsOf
      split
      · exact List.nodup_singleton 0
      · exact List.nodup_range.filter _
  · refine List.nodup_range.pairwise_of_forall_ne ?_
    intro d _ e _ different x left right
    obtain ⟨f, -, rfl⟩ := List.mem_map.mp left
    obtain ⟨g, -, same⟩ := List.mem_map.mp right
    exact different (Prod.mk.inj same).1.symm

theorem upToBridge_begins (cfg : Config) (bus : Nat) (xs : List (Nat × Nat)) :
    upToBridge cfg bus xs <+: xs := by
  induction xs with
  | nil => exact List.prefix_refl []
  | cons x xs ih =>
    obtain ⟨dev, func⟩ := x
    rw [upToBridge]
    split
    · exact (List.prefix_cons_inj _).mpr List.nil_prefix
    · exact (List.prefix_cons_inj _).mpr ih

theorem upToBridge_ne_nil {xs : List (Nat × Nat)} (some' : xs ≠ []) :
    upToBridge cfg bus xs ≠ [] := by
  cases xs with
  | nil => exact absurd rfl some'
  | cons x xs =>
    obtain ⟨dev, func⟩ := x
    rw [upToBridge]
    split <;> simp

theorem capWalk_isSome (h : Header) (fuel cap : Nat) (entries : UInt32) :
    (capWalk cfg bus dev func h fuel cap entries).isSome ↔
      ∃ caps, Path (nextCap cfg bus dev func) cap caps ∧ caps.length ≤ fuel := by
  induction fuel generalizing cap entries with
  | zero =>
    simp only [capWalk, Option.isSome_none, Bool.false_eq_true, Nat.le_zero_eq, false_iff]
    rintro ⟨caps, path, empty⟩
    cases path with
    | stop halt => cases empty
    | step go rest => cases empty
  | succ fuel ih =>
    rw [capWalk]
    by_cases null : cap = 0
    · have halt : nextCap cfg bus dev func cap = none := if_pos null
      rw [if_pos null]
      exact iff_of_true rfl ⟨[cap], Path.stop halt, by simp⟩
    · have go : nextCap cfg bus dev func cap = some (pciReadb cfg bus dev func ((cap + 1) % 256)) :=
        if_neg null
      rw [if_neg null, ih]
      constructor
      · rintro ⟨caps, path, short⟩
        exact ⟨cap :: caps, Path.step go path, Nat.succ_le_succ short⟩
      · rintro ⟨caps, path, short⟩
        cases path with
        | stop halt =>
          rw [halt] at go
          cases go
        | step go' rest =>
          rw [go, Option.some.injEq] at go'
          subst go'
          exact ⟨_, rest, Nat.le_of_succ_le_succ short⟩

theorem pciReadb_lt (cfg : Config) (bus slot func off : Nat) :
    pciReadb cfg bus slot func off < 256 :=
  Nat.mod_lt _ (by decide)

theorem caps_inside {caps : List Nat}
    (path : Path (nextCap cfg bus dev func) (pciReadb cfg bus dev func 0x34) caps) :
    ∀ c ∈ caps, c ∈ Finset.range 256 := by
  refine path.forall_mem (Finset.mem_range.mpr (pciReadb_lt cfg bus dev func 0x34)) ?_
  intro a b go
  unfold nextCap at go
  split at go
  · cases go
  · obtain rfl := Option.some.inj go
    exact Finset.mem_range.mpr (pciReadb_lt cfg bus dev func _)

def entryAt (cfg : Config) (bus : Nat) (x : Nat × Nat) : Pcidev :=
  let h := pciReadall cfg bus x.1 0
  ⟨h, pciReadl cfg bus x.1 x.2 0, bus <<< 16 ||| x.1, x.2,
    if capptr h &&& 0x10 ≠ 0 then
      (capWalk cfg bus x.1 x.2 h 256 (pciReadb cfg bus x.1 x.2 0x34) 0).getD 0 else 0⟩

theorem probe_eq_some_iff {p : Pcidev} :
    probe cfg bus dev func = some p ↔ CapsEnd cfg bus dev func ∧
    p = entryAt cfg bus (dev, func) := by
  by_cases followed : capptr (pciReadall cfg bus dev 0) &&& 0x10 ≠ 0
  · have ends : CapsEnd cfg bus dev func ↔
        (capWalk cfg bus dev func (pciReadall cfg bus dev 0) 256
            (pciReadb cfg bus dev func 0x34) 0).isSome := by
      rw [capWalk_isSome]
      constructor
      · intro end'
        obtain ⟨caps, path⟩ := end' followed
        have short := path.length_le (caps_inside path)
        exact ⟨caps, path, by simpa using short⟩
      · rintro ⟨caps, path, -⟩ -
        exact ⟨caps, path⟩
    rw [ends, probe, entryAt]
    simp only [if_pos followed]
    cases capWalk cfg bus dev func (pciReadall cfg bus dev 0) 256
      (pciReadb cfg bus dev func 0x34) 0 with
    | none => simp
    | some entries => simp [eq_comm]
  · have ends : CapsEnd cfg bus dev func := fun yes => absurd yes followed
    rw [probe, entryAt]
    simp [followed, ends, eq_comm]

def process (cfg : Config) (bus : Nat) :
    List (Nat × Nat) → List Pcidev → Option (List Pcidev × Option Nat)
  | [], devs => some (devs, none)
  | (dev, func) :: rest, devs => do
    let pdev ← probe cfg bus dev func
    if isBridge cfg bus dev func then
      return (pdev :: devs, some (ssBusnum (pciReadall cfg bus dev func)))
    process cfg bus rest (pdev :: devs)

theorem process_append (xs ys : List (Nat × Nat)) (devs : List Pcidev) :
    process cfg bus (xs ++ ys) devs = (do
      match ← process cfg bus xs devs with
      | (devs, some bus') => return (devs, some bus')
      | (devs, none) => process cfg bus ys devs) := by
  induction xs generalizing devs with
  | nil => rfl
  | cons x xs ih =>
    obtain ⟨dev, func⟩ := x
    rw [List.cons_append, process, process]
    cases probe cfg bus dev func with
    | none => rfl
    | some p =>
      simp only [Option.bind_eq_bind, Option.bind_some]
      by_cases bridge : isBridge cfg bus dev func
      · simp only [bridge, if_true]
        rfl
      · simp only [bridge]
        exact ih (p :: devs)

theorem scanFuncs_later {funcs : List Nat} (later : ∀ f ∈ funcs, f ≠ 0) (devs : List Pcidev) :
    scanFuncs cfg bus dev funcs devs =
      process cfg bus ((funcs.filter fun f => answers cfg bus dev f).map fun f =>
        (dev, f)) devs := by
  induction funcs generalizing devs with
  | nil => rfl
  | cons f funcs ih =>
    have rest := ih fun g member => later g (List.mem_cons_of_mem f member)
    have nonzero := later f List.mem_cons_self
    rw [scanFuncs]
    by_cases here : answers cfg bus dev f
    · rw [if_pos here, List.filter_cons_of_pos here, List.map_cons, process]
      simp only [nonzero, false_and, if_false, rest]
    · rw [if_neg here, List.filter_cons_of_neg here, rest]

theorem scanFuncs_eq (devs : List Pcidev) :
    scanFuncs cfg bus dev (List.range 8) devs =
      process cfg bus ((funcsOf cfg bus dev).map fun f => (dev, f)) devs := by
  have range : List.range 8 = 0 :: [1, 2, 3, 4, 5, 6, 7] := rfl
  have later : ∀ f ∈ [1, 2, 3, 4, 5, 6, 7], f ≠ 0 := by decide
  have rest : ∀ devs, scanFuncs cfg bus dev [1, 2, 3, 4, 5, 6, 7] devs = _ := scanFuncs_later later
  unfold funcsOf
  by_cases here : answers cfg bus dev 0
  · by_cases multi : multifunction cfg bus dev
    · rw [if_neg fun single => single.2 multi, range, List.filter_cons_of_pos here, List.map_cons,
        process, scanFuncs,
        if_pos here]
      simp only [multi, not_true_eq_false, and_false, if_false, rest]
    · rw [if_pos ⟨here, multi⟩, range, scanFuncs, if_pos here, List.map_singleton, process]
      simp only [multi]
      rfl
  · rw [if_neg fun single => here single.1, range, List.filter_cons_of_neg here, scanFuncs,
      if_neg here, rest]

theorem scanDevs_eq (ds : List Nat) (devs : List Pcidev) :
    scanDevs cfg bus ds devs =
      process cfg bus (ds.flatMap fun d => (funcsOf cfg bus d).map fun f => (d, f)) devs := by
  induction ds generalizing devs with
  | nil => rfl
  | cons d ds ih =>
    rw [scanDevs, scanFuncs_eq, List.flatMap_cons, process_append]
    simp only [ih]

theorem process_eq_some_iff {xs : List (Nat × Nat)} {devs : List Pcidev}
    {out : List Pcidev × Option Nat} :
    process cfg bus xs devs = some out ↔
      (∀ x ∈ upToBridge cfg bus xs, CapsEnd cfg bus x.1 x.2) ∧
      out = (((upToBridge cfg bus xs).map (entryAt cfg bus)).reverse ++ devs,
        (xs.find? fun x => isBridge cfg bus x.1 x.2).map fun x =>
          ssBusnum (pciReadall cfg bus x.1 x.2)) := by
  induction xs generalizing devs with
  | nil => simp [process, upToBridge, eq_comm]
  | cons x xs ih =>
    obtain ⟨dev, func⟩ := x
    rw [process, upToBridge]
    simp only [Option.bind_eq_bind, Option.bind_eq_some_iff, probe_eq_some_iff]
    by_cases bridge : isBridge cfg bus dev func
    · simp only [bridge, if_true, List.forall_mem_singleton, List.map_singleton,
        List.reverse_singleton,
        List.singleton_append, List.find?_cons_of_pos, Option.map_some, Option.pure_def,
        Option.some.injEq]
      constructor
      · rintro ⟨p, ⟨ends, rfl⟩, rfl⟩
        exact ⟨ends, rfl⟩
      · rintro ⟨ends, rfl⟩
        exact ⟨_, ⟨ends, rfl⟩, rfl⟩
    · have skip : ((dev, func) :: xs).find? (fun x => isBridge cfg bus x.1 x.2) =
          xs.find? fun x => isBridge cfg bus x.1 x.2 := List.find?_cons_of_neg bridge
      rw [skip]
      simp only [bridge, Bool.false_eq_true, if_false, ih, List.forall_mem_cons, List.map_cons,
        List.reverse_cons,
        List.append_assoc, List.singleton_append]
      constructor
      · rintro ⟨p, ⟨ends, rfl⟩, rest, rfl⟩
        exact ⟨⟨ends, rest⟩, rfl⟩
      · rintro ⟨⟨ends, rest⟩, rfl⟩
        exact ⟨_, ⟨ends, rfl⟩, rest, rfl⟩

def entriesOf (cfg : Config) (bus : Nat) : List Pcidev := (listed cfg bus).map (entryAt cfg bus)

theorem scanFrom_eq_some_iff {fuel : Nat} {devs out : List Pcidev} :
    scanFrom cfg fuel bus devs = some out ↔ ∃ route, Path (nextBus cfg) bus route ∧
    route.length ≤ fuel ∧
      (∀ b ∈ route, ∀ x ∈ listed cfg b, CapsEnd cfg b x.1 x.2) ∧
      out = (route.flatMap (entriesOf cfg)).reverse ++ devs := by
  induction fuel generalizing bus devs with
  | zero =>
    simp only [scanFrom, reduceCtorEq, Nat.le_zero_eq, false_iff]
    rintro ⟨route, path, empty, -⟩
    cases path with
    | stop halt => cases empty
    | step go rest => cases empty
  | succ fuel ih =>
    have scanned : ∀ out', scanDevs cfg bus (List.range 32) devs = some out' ↔
        (∀ x ∈ listed cfg bus, CapsEnd cfg bus x.1 x.2) ∧
          out' = ((entriesOf cfg bus).reverse ++ devs, nextBus cfg bus) := by
      intro out'
      rw [scanDevs_eq]
      exact process_eq_some_iff
    rw [scanFrom]
    simp only [Option.bind_eq_bind, Option.bind_eq_some_iff, scanned]
    cases following : nextBus cfg bus with
    | none =>
      constructor
      · rintro ⟨out', ⟨ends, rfl⟩, done⟩
        have same : (entriesOf cfg bus).reverse ++ devs = out := Option.some.inj done
        refine ⟨[bus], Path.stop following, by simp, by simpa using ends, ?_⟩
        simp [same]
      · rintro ⟨route, path, -, ends, rfl⟩
        cases path with
        | stop halt => exact ⟨_, ⟨ends bus List.mem_cons_self, rfl⟩, by simp⟩
        | step go rest =>
          rw [following] at go
          cases go
    | some bus' =>
      constructor
      · rintro ⟨out', ⟨ends, rfl⟩, done⟩
        obtain ⟨route, path, short, later, rfl⟩ := ih.mp done
        refine ⟨bus :: route, Path.step following path, Nat.succ_le_succ short, ?_, ?_⟩
        · exact List.forall_mem_cons.mpr ⟨ends, later⟩
        · simp [List.flatMap_cons]
      · rintro ⟨route, path, short, ends, rfl⟩
        cases path with
        | stop halt =>
          rw [following] at halt
          cases halt
        | @step _ b route go rest =>
          rw [following, Option.some.injEq] at go
          subst go
          obtain ⟨here, later⟩ := List.forall_mem_cons.mp ends
          refine ⟨_, ⟨here, rfl⟩, ih.mpr ⟨route, rest, Nat.le_of_succ_le_succ short, later, ?_⟩⟩
          simp [List.flatMap_cons]

/-- Bus numbers have 8 bits. -/
theorem route_inside {route : List Nat} (path : Path (nextBus cfg) 0 route) :
    ∀ b ∈ route, b ∈ Finset.range 256 := by
  refine path.forall_mem (Finset.mem_range.mpr (by decide)) ?_
  intro a b go
  obtain ⟨x, -, rfl⟩ := Option.map_eq_some_iff.mp go
  exact Finset.mem_range.mpr (Nat.mod_lt _ (by decide))

theorem pciInit_eq_some_iff {devs : List Pcidev} :
    pciInit cfg = some devs ↔ ∃ route, Path (nextBus cfg) 0 route ∧
      (∀ b ∈ route, ∀ x ∈ listed cfg b, CapsEnd cfg b x.1 x.2) ∧
      devs = (route.flatMap (entriesOf cfg)).reverse := by
  rw [pciInit, scanFrom_eq_some_iff]
  constructor
  · rintro ⟨route, path, -, ends, rfl⟩
    exact ⟨route, path, ends, List.append_nil _⟩
  · rintro ⟨route, path, ends, rfl⟩
    have short := path.length_le (route_inside path)
    exact ⟨route, path, by simpa using short, ends, (List.append_nil _).symm⟩

theorem placeOf_inj {bus' dev' func' : Nat} (inBus : dev < 32) (inBus' : dev' < 32)
    (same : placeOf bus dev func = placeOf bus' dev' func') :
    bus = bus' ∧ dev = dev' ∧ func = func' := by
  obtain ⟨loc, rfl⟩ := Prod.mk.inj same
  rw [← Nat.shiftLeft_add_eq_or_of_lt (by omega), ← Nat.shiftLeft_add_eq_or_of_lt (by omega),
    Nat.shiftLeft_eq,
    Nat.shiftLeft_eq] at loc
  omega

theorem mem_entries {route : List Nat} {p : Pcidev} :
    p ∈ (route.flatMap (entriesOf cfg)).reverse ↔ ∃ b ∈ route, ∃ x ∈ listed cfg b,
    entryAt cfg b x = p := by
  simp only [List.mem_reverse, List.mem_flatMap, entriesOf, List.mem_map]

theorem listed_present {x : Nat × Nat} (member : x ∈ listed cfg bus) : Present cfg bus x.1 x.2 :=
  mem_functions.mp ((upToBridge_begins cfg bus (functions cfg bus)).subset member)

theorem places_nodup {route : List Nat} (distinct : route.Nodup) :
    ((route.flatMap (entriesOf cfg)).reverse.map place).Nodup := by
  rw [List.map_reverse, List.nodup_reverse, List.map_flatMap, List.nodup_flatMap]
  constructor
  · intro b _
    rw [entriesOf, List.map_map]
    refine List.Nodup.map_on ?_
      ((upToBridge_begins cfg b (functions cfg b)).sublist.nodup (functions_nodup cfg b))
    intro x left y right same
    obtain ⟨-, dev', func'⟩ :=
      placeOf_inj (listed_present left).inBus (listed_present right).inBus same
    exact Prod.ext dev' func'
  · refine distinct.pairwise_of_forall_ne ?_
    intro b _ c _ different q left right
    simp only [entriesOf, List.map_map, List.mem_map] at left right
    obtain ⟨x, inB, rfl⟩ := left
    obtain ⟨y, inC, same⟩ := right
    exact different (placeOf_inj (listed_present inC).inBus (listed_present inB).inBus same).1.symm

end Scan

section Enumeration
variable {cfg : Config} {route : List Nat}

theorem entry_right {bus : Nat} {x : Nat × Nat} (inRoute : bus ∈ route)
    (member : x ∈ listed cfg bus)
    (each : ∀ p ∈ (route.flatMap (entriesOf cfg)).reverse, ∃ bus dev func, Reach cfg bus ∧
    Present cfg bus dev func ∧
      place p = placeOf bus dev func ∧ p.id = pciReadl cfg bus dev func 0 ∧
      p.hdr = pciReadall cfg bus dev func) :
    Reach cfg bus ∧ pciReadall cfg bus x.1 x.2 = pciReadall cfg bus x.1 0 := by
  obtain ⟨bus', dev, func, reach, present, here, -, header⟩ :=
    each (entryAt cfg bus x) (mem_entries.mpr ⟨bus, inRoute, x, member, rfl⟩)
  obtain ⟨rfl, rfl, rfl⟩ := placeOf_inj (listed_present member).inBus present.inBus here
  exact ⟨reach, header.symm⟩

theorem function_listed {bus : Nat} {x : Nat × Nat} (reach : Reach cfg bus)
    (member : x ∈ functions cfg bus)
    (every : ∀ bus dev func, Reach cfg bus → Present cfg bus dev func →
      ((route.flatMap (entriesOf cfg)).reverse.map place).count (placeOf bus dev func) = 1) :
    bus ∈ route ∧ x ∈ listed cfg bus := by
  have present : Present cfg bus x.1 x.2 := mem_functions.mp member
  have once := every bus x.1 x.2 reach present
  have there : placeOf bus x.1 x.2 ∈ (route.flatMap (entriesOf cfg)).reverse.map place := by
    apply List.count_pos_iff.mp
    omega
  obtain ⟨p, found, here⟩ := List.mem_map.mp there
  obtain ⟨bus', inRoute, y, inList, rfl⟩ := mem_entries.mp found
  obtain ⟨rfl, dev, func⟩ := placeOf_inj (listed_present inList).inBus present.inBus here
  obtain rfl : y = x := Prod.ext dev func
  exact ⟨inRoute, inList⟩

theorem prefix_all {xs ys : List (Nat × Nat)} (first : xs <+: ys) (distinct : ys.Nodup)
    (all : ∀ y ∈ ys, y ∈ xs) :
    xs = ys :=
  first.eq_of_length_le (distinct.subperm all).length_le

theorem followed_of_right (path : Path (nextBus cfg) 0 route)
    (ends : ∀ b ∈ route, ∀ x ∈ listed cfg b, CapsEnd cfg b x.1 x.2)
    (each : ∀ p ∈ (route.flatMap (entriesOf cfg)).reverse, ∃ bus dev func, Reach cfg bus ∧
    Present cfg bus dev func ∧
      place p = placeOf bus dev func ∧ p.id = pciReadl cfg bus dev func 0 ∧
      p.hdr = pciReadall cfg bus dev func)
    (every : ∀ bus dev func, Reach cfg bus → Present cfg bus dev func →
      ((route.flatMap (entriesOf cfg)).reverse.map place).count (placeOf bus dev func) = 1) :
    Followed cfg route := by
  have reached : ∀ bus ∈ route, functions cfg bus ≠ [] → Reach cfg bus := by
    intro bus inRoute some'
    have listed' : listed cfg bus ≠ [] := upToBridge_ne_nil some'
    obtain ⟨x, member⟩ := List.exists_mem_of_ne_nil _ listed'
    exact (entry_right inRoute member each).1
  have last : ∀ bus ∈ route, listed cfg bus = functions cfg bus := by
    intro bus inRoute
    refine prefix_all (upToBridge_begins cfg bus _) (functions_nodup cfg bus) fun x member => ?_
    have reach := reached bus inRoute (List.ne_nil_of_mem member)
    exact (function_listed reach member every).2
  refine ⟨path, last, fun bus some' => ⟨fun inRoute => reached bus inRoute some', fun reach => ?_⟩,
    ?_, ?_⟩
  · obtain ⟨x, member⟩ := List.exists_mem_of_ne_nil _ some'
    exact (function_listed reach member every).1
  · intro bus inRoute x member
    rw [← last bus inRoute] at member
    exact (entry_right inRoute member each).2
  · intro bus inRoute x member
    rw [← last bus inRoute] at member
    exact ends bus inRoute x member

theorem right_of_followed (followed : Followed cfg route) : EnumeratesRight cfg := by
  obtain ⟨path, last, below, headers, caps⟩ := followed
  refine ⟨(route.flatMap (entriesOf cfg)).reverse, ?_, ?_, ?_⟩
  · refine pciInit_eq_some_iff.mpr ⟨route, path, fun b inRoute x member => caps b inRoute x ?_, rfl⟩
    rwa [← last b inRoute]
  · intro p found
    obtain ⟨bus, inRoute, x, member, rfl⟩ := mem_entries.mp found
    have there : x ∈ functions cfg bus := by rwa [← last bus inRoute]
    have reach := (below bus (List.ne_nil_of_mem there)).mp inRoute
    exact ⟨bus, x.1, x.2, reach, listed_present member, rfl, rfl,
      (headers bus inRoute x there).symm⟩
  · intro bus dev func reach present
    apply List.count_eq_one_of_mem (places_nodup path.nodup)
    have there : (dev, func) ∈ functions cfg bus := mem_functions.mpr present
    have inRoute := (below bus (List.ne_nil_of_mem there)).mpr reach
    refine List.mem_map.mpr ⟨entryAt cfg bus (dev, func),
      mem_entries.mpr ⟨bus, inRoute, (dev, func), ?_, rfl⟩, rfl⟩
    rwa [last bus inRoute]

end Enumeration

/-- `pci_init` enumerates right exactly if the buses it follows are as described. -/
theorem enumerates_right_iff (cfg : Config) :
    EnumeratesRight cfg ↔ ∃ route, Followed cfg route := by
  constructor
  · rintro ⟨devs, ran, each, every⟩
    obtain ⟨route, path, ends, rfl⟩ := pciInit_eq_some_iff.mp ran
    exact ⟨route, followed_of_right path ends each every⟩
  · rintro ⟨route, followed⟩
    exact right_of_followed followed

/-- The bridges below bus 0 have secondary numbers of their own, or none. -/
def Tree (cfg : Config) : Prop :=
  ∀ b d f b' d' f', Reach cfg b → Reach cfg b' → Present cfg b d f → Present cfg b' d' f' →
    isBridge cfg b d f → isBridge cfg b' d' f' →
    sBusnum (pciReadall cfg b d f) = sBusnum (pciReadall cfg b' d' f') →
    sBusnum (pciReadall cfg b d f) = 0 ∨ (b = b' ∧ d = d' ∧ f = f')

def threeDevices : Config := fun bus dev func i =>
  if bus = 0 ∧ func = 0 then
    match dev, i with
    | 0, 0 => 0x12378086
    | 0, _ => 0
    | 1, 0 => 0x00011b36
    | 1, 3 => 0x00010000
    | 1, 6 => 0x00010100
    | 1, _ => 0
    | 2, 0 => 0x100e8086
    | 2, _ => 0
    | _, _ => 0xffffffff
  else 0xffffffff

theorem threeDevices_bridge {bus dev func : Nat} (bridge : isBridge threeDevices bus dev func) :
    bus = 0 ∧ dev = 1 ∧ func = 0 := by
  by_cases zero : bus = 0 ∧ func = 0
  · obtain ⟨rfl, rfl⟩ := zero
    match dev, bridge with
    | 0, no => exact absurd no (by decide +kernel)
    | 1, _ => exact ⟨rfl, rfl, rfl⟩
    | 2, no => exact absurd no (by decide +kernel)
    | _ + 3, no => simp [isBridge, headerType, pciReadl, threeDevices] at no
  · simp [isBridge, headerType, pciReadl, threeDevices, zero] at bridge

theorem threeDevices_tree : Tree threeDevices := by
  intro b d f b' d' f' _ _ _ _ bridge bridge' _
  obtain ⟨rfl, rfl, rfl⟩ := threeDevices_bridge bridge
  obtain ⟨rfl, rfl, rfl⟩ := threeDevices_bridge bridge'
  exact Or.inr ⟨rfl, rfl, rfl⟩

/-- The scan leaves for bus 1 at the bridge; the controller gets no entry. -/
theorem device_behind_bridge_missed : Tree threeDevices ∧ ¬ EnumeratesRight threeDevices := by
  refine ⟨threeDevices_tree, ?_⟩
  rintro ⟨devs, ran, -, every⟩
  have present : Present threeDevices 0 2 0 := ⟨by decide, by decide, by decide +kernel, Or.inl rfl⟩
  have once := every 0 2 0 Reach.root present
  have places : (pciInit threeDevices).map (List.map place) =
    some [placeOf 0 1 0, placeOf 0 0 0] := by decide +kernel
  rw [ran, Option.map_some, Option.some.injEq] at places
  rw [places] at once
  exact absurd once (by decide)

end Pci
