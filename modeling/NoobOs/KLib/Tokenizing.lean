import NoobOs.KLib.StringBuffers
import NoobOs.Lib.MaximalRuns
import Mathlib.Data.List.GetD
import Mathlib.Logic.Function.Basic

/-!
`strtok_r` called again and again, with every read and write checked, on several strings in any
order. Each string keeps its own saved pointer.
-/
namespace Strings
open ByteMemory MaximalRuns

/-- `while (*p && f(*p)) p++` within an area. -/
def scanIn (b : Area) (m : Mem) (f : UInt8 → Bool) : Nat → Nat → Option Nat
  | 0, _ => none
  | fuel + 1, a => do
    let c ← loadIn b m a
    if c ≠ 0 ∧ f c then scanIn b m f fuel (a + 1) else return a

def strtokRIn (b : Area) (m : Mem) (str : Option Nat) (delim : Str) (save : Option Nat) :
    Option (Mem × Option Nat × Option Nat) :=
  match str.or save with
  | none => some (m, none, none)
  | some next => do
    let start ← scanIn b m (dlim delim) (2 ^ 32) next
    if (← loadIn b m start) = 0 then return (m, none, none)
    let next ← scanIn b m (fun c => !dlim delim c) (2 ^ 32) start
    if (← loadIn b m next) = 0 then return (m, some start, none)
    let m ← storeIn b m next 0
    return (m, some start, some (next + 1))

structure Splitting where
  addr : Nat
  text : Str
  delim : Str
  ends : 0 ∉ text
  short : text.length < 2 ^ 32

/-- The bytes of the string and its terminator: all that may be touched. -/
def Splitting.area (j : Splitting) : Area := ⟨j.addr, j.text.length + 1⟩

def Splitting.byte (j : Splitting) (i : Nat) : UInt8 := j.text.getD i 0
def Splitting.sep (j : Splitting) (i : Nat) : Bool := dlim j.delim (j.byte i)

/-- The first and the next position of each maximal run of bytes that are no delimiters, in order.
    -/
def Splitting.runs (j : Splitting) : List (Nat × Nat) := MaximalRuns.runs j.sep j.text.length

structure Turns (ι : Type) where
  mem : Mem
  save : ι → Option Nat
  begun : ι → Bool

variable {ι : Type} [DecidableEq ι]

/-- The first call passes the string, the later ones null. -/
def callOn (T : ι → Splitting) (s : Turns ι) (i : ι) : Option (Turns ι × Option Nat) := do
  let str := if s.begun i then none else some (T i).addr
  let (mem, token, save) ← strtokRIn (T i).area s.mem str (T i).delim (s.save i)
  return (⟨mem, Function.update s.save i save, Function.update s.begun i true⟩, token)

def callsOn (T : ι → Splitting) : List ι → Turns ι → Option (Turns ι × List (Option Nat))
  | [], s => some (s, [])
  | i :: is, s => do
    let (s, token) ← callOn T s i
    let (s, tokens) ← callsOn T is s
    return (s, token :: tokens)

/-! ## One string -/

section Scan
variable {b : Area} {m : Mem} {a n q : Nat}

theorem scanIn_spec (f : UInt8 → Bool) (fuel : Nat) (some' : ∀ i, q ≤ i → i < n → m (a + i) ≠ 0)
    (ends : m (a + n) = 0)
    (room : ∀ i, q ≤ i → i ≤ n → b.Has (a + i)) (low : q ≤ n) (enough : n - q < fuel) :
    ∃ e, q ≤ e ∧ e ≤ n ∧ (∀ i, q ≤ i → i < e → f (m (a + i)) = true) ∧
    (e = n ∨ f (m (a + e)) = false) ∧
      scanIn b m f fuel (a + q) = some (a + e) := by
  induction fuel generalizing q with
  | zero => omega
  | succ fuel ih =>
    rw [scanIn, loadIn_eq (room q (Nat.le_refl q) low), Option.bind_eq_bind, Option.bind_some]
    by_cases go : m (a + q) ≠ 0 ∧ f (m (a + q))
    · have less : q < n := by
        rcases Nat.lt_or_eq_of_le low with less | rfl
        · exact less
        · exact absurd ends go.1
      obtain ⟨e, past, inside, all, stop, scanned⟩ :=
        ih (q := q + 1) (fun i above => some' i (by omega))
        (fun i above => room i (by omega)) less (by omega)
      refine ⟨e, by omega, inside, ?_, stop, ?_⟩
      · intro i above below
        rcases Nat.lt_or_eq_of_le above with later | rfl
        · exact all i later below
        · exact go.2
      · rw [if_pos go]
        exact scanned
    · refine ⟨q, Nat.le_refl q, low, fun i above below => by omega, ?_, if_neg go⟩
      rcases Nat.lt_or_eq_of_le low with less | rfl
      · right
        by_contra goes
        exact go ⟨some' q (Nat.le_refl q) less, by simpa using goes⟩
      · exact Or.inl rfl

variable {delim : Str} {save : Option Nat} {next start stop : Nat}

theorem strtokRIn_empty (skipped : scanIn b m (dlim delim) (2 ^ 32) next = some start)
    (room : b.Has start)
    (zero : m start = 0) : strtokRIn b m (some next) delim save = some (m, none, none) := by
  rw [strtokRIn, Option.some_or]
  dsimp only
  rw [skipped, Option.bind_eq_bind, Option.bind_some, loadIn_eq room, Option.bind_eq_bind,
    Option.bind_some, if_pos zero]
  rfl

theorem strtokRIn_found (skipped : scanIn b m (dlim delim) (2 ^ 32) next = some start)
    (room : b.Has start)
    (nonzero : m start ≠ 0)
    (passed : scanIn b m (fun c => !dlim delim c) (2 ^ 32) start = some stop)
    (room' : b.Has stop) : strtokRIn b m (some next) delim save =
      if m stop = 0 then some (m, some start, none)
      else some (store8 m stop 0, some start, some (stop + 1)) := by
  rw [strtokRIn, Option.some_or]
  dsimp only
  rw [skipped, Option.bind_eq_bind, Option.bind_some, loadIn_eq room, Option.bind_eq_bind,
    Option.bind_some,
    if_neg nonzero, passed, Option.bind_eq_bind, Option.bind_some, loadIn_eq room',
    Option.bind_some,
    storeIn_eq room']
  rfl

theorem scanIn_from {f : UInt8 → Bool} {fuel e : Nat} (scanned : scanIn b m f fuel a = some e) :
    scanFrom m f fuel a = some e ∧ b.Has e := by
  induction fuel generalizing a with
  | zero => cases scanned
  | succ fuel ih =>
    rw [scanIn] at scanned
    by_cases here : b.Has a
    · rw [loadIn_eq here, Option.bind_eq_bind, Option.bind_some] at scanned
      rw [scanFrom]
      by_cases go : m a ≠ 0 ∧ f (m a)
      · rw [if_pos go] at scanned ⊢
        exact ih scanned
      · rw [if_neg go] at scanned ⊢
        cases scanned
        exact ⟨rfl, here⟩
    · rw [loadIn, if_neg here] at scanned
      cases scanned

theorem strtokRIn_at {str : Option Nat} {r : Mem × Option Nat × Option Nat}
    (call : strtokRIn b m str delim save = some r) : strtokRAt b m str delim save = some r := by
  unfold strtokRIn at call
  unfold strtokRAt
  cases from' : str.or save with
  | none =>
    rw [from'] at call
    exact call
  | some next =>
    rw [from'] at call
    obtain ⟨start, scanned, call⟩ := Option.bind_eq_some_iff.mp call
    obtain ⟨skipped, room⟩ := scanIn_from scanned
    rw [loadIn_eq room, Option.bind_eq_bind, Option.bind_some] at call
    simp only [scan, skipped, Option.bind_eq_bind, Option.bind_some]
    by_cases ended : m start = 0
    · rw [if_pos ended] at call ⊢
      exact call
    · rw [if_neg ended] at call ⊢
      obtain ⟨stop, scanned', call⟩ := Option.bind_eq_some_iff.mp call
      obtain ⟨passed, room'⟩ := scanIn_from scanned'
      rw [loadIn_eq room', Option.bind_eq_bind, Option.bind_some] at call
      simp only [passed, Option.bind_some]
      exact call

theorem callOn_at {T : ι → Splitting} {s s' : Turns ι} {i : ι} {token : Option Nat}
    (called : callOn T s i = some (s', token)) :
    strtokRAt (T i).area s.mem (if s.begun i then none else some (T i).addr)
    (T i).delim (s.save i) =
      some (s'.mem, token, s'.save i) := by
  obtain ⟨⟨m', token', save'⟩, call, rest⟩ := Option.bind_eq_some_iff.mp called
  cases rest
  simp only [strtokRIn_at call, Function.update_self]

end Scan

/-- After `k` calls: the first `k` runs are strings of their own before the saved pointer, and the
    string from there on is as it was. -/
structure Splitting.After (j : Splitting) (m : Mem) (k : Nat) (save : Option Nat) : Prop where
  tokens : ∀ l < k, ∀ o e, j.runs[l]? = some (o, e) →
    (∀ i, o ≤ i → i < e → m (j.addr + i) = j.byte i) ∧ m (j.addr + e) = 0 ∧
      ∀ a, save = some a → j.addr + e < a
  done : save = none → j.runs.length ≤ k
  left : ∀ a, save = some a → ∃ q ≤ j.text.length, a = j.addr + q ∧ (q = 0 ∨ j.sep (q - 1) = true) ∧
    (∀ i, q ≤ i → i ≤ j.text.length → m (j.addr + i) = j.byte i) ∧
    ∀ o e, (o, e) ∈ j.runs.drop k ↔ Run j.sep j.text.length o e ∧ q ≤ o

section One
variable {j : Splitting} {m m' : Mem} {k : Nat} {save : Option Nat}

theorem Splitting.byte_nonzero (j : Splitting) {i : Nat} (less : i < j.text.length) :
    j.byte i ≠ 0 := by
  intro zero
  rw [Splitting.byte, List.getD_eq_getElem _ _ less] at zero
  exact j.ends (zero ▸ List.getElem_mem less)

theorem Splitting.byte_end (j : Splitting) : j.byte j.text.length = 0 :=
  List.getD_eq_default _ _ (Nat.le_refl _)

theorem Splitting.room (j : Splitting) {i : Nat} (inside : i ≤ j.text.length) :
    j.area.Has (j.addr + i) :=
  ⟨Nat.le_add_right _ _, Nat.add_lt_add_left (Nat.lt_succ_of_le inside) _⟩

theorem Splitting.run_inside {l o e : Nat} (here : j.runs[l]? = some (o, e)) :
    Run j.sep j.text.length o e :=
  mem_runs.mp (List.mem_of_getElem? here)

theorem Splitting.After.moved (here : j.After m k save) (same : ∀ x, j.area.Has x → m' x = m x) :
    j.After m' k save := by
  have at' : ∀ i ≤ j.text.length, m' (j.addr + i) = m (j.addr + i) :=
    fun i inside => same _ (j.room inside)
  refine ⟨?_, here.done, ?_⟩
  · intro l less o e run
    obtain ⟨bytes, stop, behind⟩ := here.tokens l less o e run
    have inside := (Splitting.run_inside run).inside
    refine ⟨?_, (at' e inside).trans stop, behind⟩
    intro i above below
    rw [at' i (by omega), bytes i above below]
  · intro a saved
    obtain ⟨q, low, is, boundary, bytes, next⟩ := here.left a saved
    exact ⟨q, low, is, boundary, fun i above inside => (at' i inside).trans (bytes i above inside),
      next⟩

theorem Splitting.After.start (here : StrAt m j.addr j.text) : j.After m 0 (some j.addr) := by
  refine ⟨fun l less => absurd less (Nat.not_lt_zero l), nofun, ?_⟩
  intro a saved
  cases saved
  refine ⟨0, Nat.zero_le _, rfl, Or.inl rfl, ?_, ?_⟩
  · intro i _ inside
    rw [(bytesAt_iff _ _).mp here.2 i (by simpa using Nat.lt_succ_of_le inside), Splitting.byte,
      List.getElem_append]
    split
    · next less => rw [List.getD_eq_getElem _ _ less]
    · next past => rw [List.getD_eq_default _ _ (by omega), List.getElem_singleton]
  · intro o e
    rw [List.drop_zero, Splitting.runs, mem_runs]
    exact (and_iff_left (Nat.zero_le o)).symm

theorem Splitting.no_runs {q : Nat}
    (next : ∀ o e, (o, e) ∈ j.runs.drop k ↔ Run j.sep j.text.length o e ∧ q ≤ o)
    (all : ∀ i, q ≤ i → i < j.text.length → j.sep i = true) : j.runs.length ≤ k := by
  rw [← List.drop_eq_nil_iff, List.eq_nil_iff_forall_not_mem]
  rintro ⟨o, e⟩ member
  obtain ⟨run, above⟩ := (next o e).mp member
  have stop := all o above (Nat.lt_of_lt_of_le run.nonempty run.inside)
  rw [run.plain o (Nat.le_refl o) run.nonempty] at stop
  cases stop

theorem Splitting.After.cut {q o e : Nat} {next : Option Nat}
    (here : j.After m k (some (j.addr + q)))
    (bytes : ∀ i, q ≤ i → i ≤ j.text.length → m (j.addr + i) = j.byte i) (low : q ≤ o)
    (run : Run j.sep j.text.length o e) (first : j.runs[k]? = some (o, e))
    (stop : m' (j.addr + e) = 0)
    (others : ∀ x, x ≠ j.addr + e → m' x = m x) (after : ∀ a, next = some a → a = j.addr + e + 1) :
    ∀ l < k + 1, ∀ o e, j.runs[l]? = some (o, e) →
      (∀ i, o ≤ i → i < e → m' (j.addr + i) = j.byte i) ∧ m' (j.addr + e) = 0 ∧
      ∀ a, next = some a → j.addr + e < a := by
  have less := run.nonempty
  have inside := run.inside
  intro l below o' e' run'
  rcases Nat.lt_succ_iff_lt_or_eq.mp below with before | rfl
  · obtain ⟨kept, stop', behind⟩ := here.tokens l before o' e' run'
    have apart := behind _ rfl
    refine ⟨?_, ?_, ?_⟩
    · intro i above under
      rw [others _ (by omega), kept i above under]
    · rw [others _ (by omega), stop']
    · intro a is
      have := after a is
      omega
  · rw [first] at run'
    cases run'
    refine ⟨?_, stop, ?_⟩
    · intro i above under
      rw [others _ (by omega), bytes i (by omega) (by omega)]
    · intro a is
      have := after a is
      omega

theorem Splitting.After.finished (here : j.After m k save) (past : j.runs.length ≤ k) :
    j.After m (k + 1) none := by
  refine ⟨?_, fun _ => Nat.le_succ_of_le past, nofun⟩
  intro l less o e run
  have before : l < j.runs.length := (List.getElem?_eq_some_iff.mp run).1
  obtain ⟨bytes, stop, -⟩ := here.tokens l (by omega) o e run
  exact ⟨bytes, stop, nofun⟩

theorem Splitting.walks {q : Nat} (low : q ≤ j.text.length)
    (boundary : q = 0 ∨ j.sep (q - 1) = true)
    (bytes : ∀ i, q ≤ i → i ≤ j.text.length → m (j.addr + i) = j.byte i)
    (next : ∀ o e, (o, e) ∈ j.runs.drop k ↔ Run j.sep j.text.length o e ∧ q ≤ o) :
    (j.runs.length ≤ k ∧ scanIn j.area m (dlim j.delim) (2 ^ 32) (j.addr + q) =
    some (j.addr + j.text.length)) ∨
    ∃ o e, q ≤ o ∧ Run j.sep j.text.length o e ∧ j.runs[k]? = some (o, e) ∧
      (∀ o' e', (o', e') ∈ j.runs.drop (k + 1) ↔ Run j.sep j.text.length o' e' ∧ e + 1 ≤ o') ∧
      scanIn j.area m (dlim j.delim) (2 ^ 32) (j.addr + q) = some (j.addr + o) ∧
      scanIn j.area m (fun c => !dlim j.delim c) (2 ^ 32) (j.addr + o) = some (j.addr + e) := by
  have short := j.short
  have nonzero : ∀ i, q ≤ i → i < j.text.length → m (j.addr + i) ≠ 0 := by
    intro i above less
    rw [bytes i above (Nat.le_of_lt less)]
    exact j.byte_nonzero less
  have ends : m (j.addr + j.text.length) = 0 := (bytes _ low (Nat.le_refl _)).trans j.byte_end
  have room : ∀ i, q ≤ i → i ≤ j.text.length → j.area.Has (j.addr + i) :=
    fun i _ inside => j.room inside
  obtain ⟨o, above, inside, skipped, stops, scanned⟩ :=
    scanIn_spec (dlim j.delim) (2 ^ 32) nonzero ends room low (by omega)
  have separators : ∀ i, q ≤ i → i < o → j.sep i = true := by
    intro i over' under
    rw [Splitting.sep, ← bytes i over' (by omega)]
    exact skipped i over' under
  rcases Nat.lt_or_eq_of_le inside with less | rfl
  · right
    have plain : j.sep o = false := by
      rw [Splitting.sep, ← bytes o above inside]
      exact stops.resolve_left (Nat.ne_of_lt less)
    obtain ⟨e, past, inside', passed, stops', scanned'⟩ :=
      scanIn_spec (fun c => !dlim j.delim c) (2 ^ 32)
      (fun i over' => nonzero i (by omega)) ends (fun i over' => room i (by omega))
        inside (by omega)
    have right : e = j.text.length ∨ j.sep e = true := by
      rw [Splitting.sep, ← bytes e (by omega) inside']
      simpa using stops'
    have others : ∀ i, o ≤ i → i < e → j.sep i = false := by
      intro i over' under
      rw [Splitting.sep, ← bytes i (by omega) (by omega)]
      simpa using passed i over' under
    have run := run_between boundary above separators less plain past inside' others right
    obtain ⟨first, later⟩ := runs_next next run above separators
    exact ⟨o, e, above, run, first, later, scanned, scanned'⟩
  · exact Or.inl ⟨Splitting.no_runs next separators, scanned⟩

theorem Splitting.After.call (here : j.After m k save) :
    ∃ m' next, strtokRIn j.area m save j.delim save = some
    (m', (j.runs[k]?).map (j.addr + ·.1), next) ∧
      j.After m' (k + 1) next ∧ ∀ x, ¬ j.area.Has x → m' x = m x := by
  cases save with
  | none =>
    have past := here.done rfl
    refine ⟨m, none, ?_, here.finished past, fun _ _ => rfl⟩
    rw [List.getElem?_eq_none past]
    rfl
  | some a =>
    obtain ⟨q, low, rfl, boundary, bytes, next⟩ := here.left a rfl
    have ends : m (j.addr + j.text.length) = 0 := (bytes _ low (Nat.le_refl _)).trans j.byte_end
    rcases Splitting.walks low boundary bytes next with ⟨past, scanned⟩
      | ⟨o, e, above, run, first, later, scanned, scanned'⟩
    · refine ⟨m, none, ?_, here.finished past, fun _ _ => rfl⟩
      rw [List.getElem?_eq_none past, strtokRIn_empty scanned (j.room (Nat.le_refl _)) ends]
      rfl
    · have less := run.nonempty
      have inside := run.inside
      have nonzero : m (j.addr + o) ≠ 0 := by
        rw [bytes o above (by omega)]
        exact j.byte_nonzero (by omega)
      rw [strtokRIn_found scanned (j.room (by omega)) nonzero scanned' (j.room inside), first,
        Option.map_some]
      rcases Nat.lt_or_eq_of_le inside with more | rfl
      · have stop : m (j.addr + e) ≠ 0 := by
          rw [bytes e (by omega) inside]
          exact j.byte_nonzero more
        have others : ∀ x, x ≠ j.addr + e → store8 m (j.addr + e) 0 x = m x :=
          fun x apart => store8_other _ _ apart
        rw [if_neg stop]
        refine ⟨store8 m (j.addr + e) 0, some (j.addr + e + 1), rfl, ⟨?_, nofun, ?_⟩, ?_⟩
        · exact here.cut bytes above run first (store8_same _ _ _) others fun a is =>
            (Option.some.inj is).symm
        · intro a is
          cases is
          refine ⟨e + 1, more, rfl, Or.inr ?_, ?_, later⟩
          · exact run.right.resolve_left (Nat.ne_of_lt more)
          · intro i over' inside'
            rw [others _ (by omega), bytes i (by omega) inside']
        · exact fun x outside => others x fun same => outside (same ▸ j.room inside)
      · rw [if_pos ends]
        refine ⟨m, none, rfl, ⟨?_, fun _ => ?_, nofun⟩, fun _ _ => rfl⟩
        · exact here.cut bytes above run first ends (fun _ _ => rfl) nofun
        · apply Splitting.no_runs later
          intro i over' inside'
          omega

theorem Splitting.After.token (here : j.After m k save) {l o e : Nat} (less : l < k)
    (run : j.runs[l]? = some (o, e)) :
    StrAt m (j.addr + o) ((j.text.drop o).take (e - o)) := by
  obtain ⟨bytes, stop, -⟩ := here.tokens l less o e run
  have inside := (Splitting.run_inside run).inside
  have nonempty := (Splitting.run_inside run).nonempty
  have size : ((j.text.drop o).take (e - o)).length = e - o := by
    rw [List.length_take, List.length_drop]
    omega
  refine ⟨fun zero => j.ends (List.mem_of_mem_drop (List.mem_of_mem_take zero)),
    (bytesAt_append _ _ _).mpr ⟨?_, ?_, trivial⟩⟩
  · rw [bytesAt_iff]
    intro i less'
    rw [size] at less'
    rw [Nat.add_assoc, bytes (o + i) (by omega) (by omega), Splitting.byte,
      List.getD_eq_getElem _ _ (by omega),
      List.getElem_take, List.getElem_drop]
  · rw [size, show j.addr + o + (e - o) = j.addr + e by omega]
    exact stop

end One

/-! ## Several strings -/

section Several
variable {T : ι → Splitting} {s : Turns ι} {k : ι → Nat}

def Turns.pointer (T : ι → Splitting) (s : Turns ι) (i : ι) : Option Nat :=
  if s.begun i then s.save i else some (T i).addr

theorem callOn_eq (T : ι → Splitting) (s : Turns ι) (i : ι) : callOn T s i = do
    let (mem, token, save) ← strtokRIn (T i).area s.mem (s.pointer T i) (T i).delim (s.pointer T i)
    return (⟨mem, Function.update s.save i save, Function.update s.begun i true⟩, token) := by
  have same : (if s.begun i then none else some (T i).addr).or (s.save i) =
      (s.pointer T i).or (s.pointer T i) := by
    rw [Option.or_self, Turns.pointer]
    split
    · exact Option.none_or
    · exact Option.some_or
  simp only [callOn, strtokRIn, same]

theorem callOn_spec (apart : ∀ i l, i ≠ l → ∀ x, (T i).area.Has x → ¬ (T l).area.Has x)
    (here : ∀ i, (T i).After s.mem (k i) (s.pointer T i)) (i : ι) :
    ∃ s', callOn T s i = some (s', ((T i).runs[k i]?).map ((T i).addr + ·.1)) ∧
      (∀ l, (T l).After s'.mem (Function.update k i (k i + 1) l) (s'.pointer T l)) ∧
      ∀ x, ¬ (T i).area.Has x → s'.mem x = s.mem x := by
  obtain ⟨mem, next, call, after, others⟩ := (here i).call
  refine ⟨⟨mem, Function.update s.save i next, Function.update s.begun i true⟩, ?_, ?_, others⟩
  · rw [callOn_eq, call]
    rfl
  · intro l
    by_cases same : l = i
    · subst same
      simpa [Turns.pointer] using after
    · have kept := (here l).moved fun x inside => others x (apart l i same x inside)
      simpa [Turns.pointer, same] using kept

theorem callsOn_spec (apart : ∀ i l, i ≠ l → ∀ x, (T i).area.Has x → ¬ (T l).area.Has x)
    (here : ∀ i, (T i).After s.mem (k i) (s.pointer T i)) (calls : List ι) :
    ∃ s' tokens, callsOn T calls s = some (s', tokens) ∧
      (∀ n i, calls[n]? = some i →
        tokens[n]? = some (((T i).runs[k i + (calls.take n).count i]?).map ((T i).addr + ·.1))) ∧
      (∀ i, (T i).After s'.mem (k i + calls.count i) (s'.pointer T i)) ∧
      ∀ x, (∀ i ∈ calls, ¬ (T i).area.Has x) → s'.mem x = s.mem x := by
  induction calls generalizing s k with
  | nil => exact ⟨s, [], rfl, nofun, here, fun _ _ => rfl⟩
  | cons c calls ih =>
    obtain ⟨s₁, call, after, others⟩ := callOn_spec apart here c
    obtain ⟨s', tokens, calls', found, final, others'⟩ := ih after
    have counted : ∀ i is, Function.update k c (k c + 1) i + is.count i =
        k i + (c :: is).count i := by
      intro i is
      by_cases same : i = c
      · subst same
        rw [Function.update_self, List.count_cons_self]
        omega
      · rw [Function.update_of_ne same, List.count_cons_of_ne (Ne.symm same)]
    refine ⟨s', ((T c).runs[k c]?).map ((T c).addr + ·.1) :: tokens, ?_, ?_, ?_, ?_⟩
    · rw [callsOn, call, Option.bind_eq_bind, Option.bind_some]
      dsimp only
      rw [calls']
      rfl
    · intro n i this
      cases n with
      | zero =>
        cases this
        rfl
      | succ n =>
        rw [List.getElem?_cons_succ] at this ⊢
        rw [found n i this, counted, List.take_succ_cons]
    · intro i
      rw [← counted]
      exact final i
    · intro x outside
      rw [others' x fun i member => outside i (List.mem_cons_of_mem _ member),
        others x (outside c List.mem_cons_self)]

/-- The calls on each string return its runs, in order and cut off in place, and null from then on,
    whatever is called on the other strings in between. -/
theorem strtok_r_splits (T : ι → Splitting) (s : Turns ι) (fresh : ∀ i, s.begun i = false)
    (strings : ∀ i, StrAt s.mem (T i).addr (T i).text)
    (apart : ∀ i l, i ≠ l → ∀ x, (T i).area.Has x → ¬ (T l).area.Has x) (calls : List ι) :
    ∃ s' tokens, callsOn T calls s = some (s', tokens) ∧
      (∀ n i, calls[n]? = some i →
        tokens[n]? = some (((T i).runs[(calls.take n).count i]?).map ((T i).addr + ·.1))) ∧
      (∀ i, ∀ k < calls.count i, ∀ o e, (T i).runs[k]? = some (o, e) →
        StrAt s'.mem ((T i).addr + o) (((T i).text.drop o).take (e - o))) ∧
      (∀ x, (∀ i ∈ calls, ¬ (T i).area.Has x) → s'.mem x = s.mem x) ∧
      ∀ i, (T i).runs.Pairwise (fun r r' => r.2 < r'.1) ∧
        ∀ o e, (o, e) ∈ (T i).runs ↔ Run (T i).sep (T i).text.length o e := by
  have start : ∀ i, (T i).After s.mem 0 (s.pointer T i) := by
    intro i
    rw [Turns.pointer, fresh i]
    exact Splitting.After.start (strings i)
  obtain ⟨s', tokens, run, found, final, others⟩ := callsOn_spec (k := fun _ => 0) apart start calls
  refine ⟨s', tokens, run, ?_, ?_, others, fun i => ⟨runs_sorted _ _, fun o e => mem_runs⟩⟩
  · intro n i at'
    rw [found n i at', Nat.zero_add]
  · intro i k less o e here
    exact (final i).token (by omega) here

end Several

def twoPaths : Bool → Splitting
  | true => ⟨16, [0x2f, 0x61], [0x2f], by decide, by decide⟩
  | false => ⟨32, [0x62], [0x2f], by decide, by decide⟩

def twoPathsMem : Mem :=
  fun x => if x = 16 then 0x2f else if x = 17 then 0x61 else if x = 32 then 0x62 else 0

theorem two_paths_split : ∃ s' tokens,
    callsOn twoPaths [true, false, true] ⟨twoPathsMem, fun _ => none, fun _ => false⟩ =
    some (s', tokens) ∧
      tokens[1]? = some (((twoPaths false).runs[0]?).map (32 + ·.1)) := by
  have apart : ∀ i l, i ≠ l → ∀ x, (twoPaths i).area.Has x → ¬ (twoPaths l).area.Has x := by
    rintro (_ | _) (_ | _) differ x ⟨low, high⟩ ⟨low', high'⟩ <;>
      simp only [twoPaths, Splitting.area, List.length_cons, List.length_nil] at low high low' high'
    · exact differ rfl
    · omega
    · omega
    · exact differ rfl
  have strings : ∀ i, StrAt twoPathsMem (twoPaths i).addr (twoPaths i).text := by
    rintro (_ | _)
    · exact ⟨by decide, rfl, rfl, trivial⟩
    · exact ⟨by decide, rfl, rfl, rfl, trivial⟩
  obtain ⟨s', tokens, run, found, -⟩ :=
    strtok_r_splits twoPaths ⟨twoPathsMem, fun _ => none, fun _ => false⟩
    (fun _ => rfl) strings apart [true, false, true]
  exact ⟨s', tokens, run, found 1 false rfl⟩

end Strings
