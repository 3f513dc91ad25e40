import Mathlib.Data.List.TakeWhile
import NoobOs.KLib.Strings
import NoobOs.Lib.Areas

/-!
The string functions of `mem.c` on memory. A `char *` is an address, a null one is `none`.
An outer `none` is a store outside the area that is written to, or a loop that runs
through all addresses.
-/
namespace Strings
open ByteMemory

/-- A string at an address, with its terminator. -/
def StrAt (m : Mem) (a : Nat) (s : Str) : Prop := 0 ∉ s ∧ BytesAt m a (s ++ [0])

/-- `while (*p && f(*p)) p++`. -/
def scanFrom (m : Mem) (f : UInt8 → Bool) : Nat → Nat → Option Nat
  | 0, _ => none
  | fuel + 1, a => if m a ≠ 0 ∧ f (m a) then scanFrom m f fuel (a + 1) else some a

def scan (m : Mem) (f : UInt8 → Bool) (a : Nat) : Option Nat := scanFrom m f (2 ^ 32) a

def strlenAt (m : Mem) (a : Nat) : Option Nat := (scan m (fun _ => true) a).map (· - a)

/-- The memory, the token and the new `*saveptr`; the one store is in `b`. -/
def strtokRAt (b : Area) (m : Mem) (str : Option Nat) (delim : Str) (save : Option Nat) :
    Option (Mem × Option Nat × Option Nat) :=
  match str.or save with
  | none => some (m, none, none)
  | some next => do
    let start ← scan m (dlim delim) next
    if m start = 0 then return (m, none, none)
    let next ← scan m (fun c => !dlim delim c) start
    if m next = 0 then return (m, some start, none)
    let m ← storeIn b m next 0
    return (m, some start, some (next + 1))

/-- Against a literal, given as its bytes before the terminator. -/
def strcmpAt (m : Mem) : Nat → Str → UInt8
  | a, [] => m a
  | a, d :: ds => if m a = d ∧ m a ≠ 0 then strcmpAt m (a + 1) ds else m a - d

/-- `strncpy` and `memcpy` go on behind a zero byte. -/
def strncpyAt (b : Area) (m : Mem) (dst src siz : Nat) : Option Mem := copyIn b siz m dst src
def memcpyAt (b : Area) (m : Mem) (dst src siz : Nat) : Option Mem := copyIn b siz m dst src

section Spelled
variable {m m' : Mem} {a : Nat} {s t : Str}

theorem StrAt.first {c : UInt8} (here : StrAt m a (c :: s)) :
    m a = c ∧ c ≠ 0 ∧ StrAt m (a + 1) s := by
  obtain ⟨ends, first, later⟩ := here
  rw [List.mem_cons, not_or] at ends
  exact ⟨first, Ne.symm ends.1, ends.2, later⟩

theorem StrAt.empty (here : StrAt m a []) : m a = 0 := here.2.1

theorem StrAt.head_eq {c : UInt8} (here : StrAt m a s) (nonzero : c ≠ 0) :
    m a = c ↔ s.head? = some c := by
  cases s with
  | nil => simp [here.empty, Ne.symm nonzero]
  | cons d s => simp [here.first.1]

theorem StrAt.moved {a' : Nat} (here : StrAt m a s)
    (same : ∀ i ≤ s.length, m' (a' + i) = m (a + i)) :
    StrAt m' a' s := by
  refine ⟨here.1, here.2.moved ?_⟩
  intro i inside
  rw [List.length_append, List.length_singleton] at inside
  exact same i (by omega)

theorem StrAt.behind (here : StrAt m a (s ++ t)) : StrAt m (a + s.length) t := by
  obtain ⟨ends, bytes⟩ := here
  rw [List.append_assoc, bytesAt_append] at bytes
  exact ⟨fun zero => ends (List.mem_append_right s zero), bytes.2⟩

theorem StrAt.cut {c : UInt8} (here : StrAt m a (s ++ c :: t)) :
    StrAt (store8 m (a + s.length) 0) a s := by
  obtain ⟨ends, bytes⟩ := here
  rw [List.append_assoc, bytesAt_append] at bytes
  refine ⟨fun zero => ends (List.mem_append_left _ zero), (bytesAt_append s [0] a).mpr ⟨?_, ?_⟩⟩
  · apply bytes.1.moved
    intro i inside
    exact store8_other _ _ (by omega)
  · exact ⟨store8_same _ _ _, trivial⟩

theorem scanFrom_spec (f : UInt8 → Bool) (fuel : Nat) (here : StrAt m a s)
    (enough : s.length < fuel) :
    scanFrom m f fuel a = some (a + (s.takeWhile f).length) := by
  induction s generalizing a fuel with
  | nil =>
    obtain ⟨fuel, rfl⟩ := Nat.exists_eq_succ_of_ne_zero (Nat.ne_of_gt enough)
    simp [scanFrom, here.empty]
  | cons c s ih =>
    obtain ⟨fuel, rfl⟩ := Nat.exists_eq_succ_of_ne_zero (Nat.ne_of_gt (Nat.zero_lt_of_lt enough))
    obtain ⟨first, nonzero, later⟩ := here.first
    rw [scanFrom, first]
    by_cases go : f c = true
    · have rest := ih fuel later (by simpa using enough)
      rw [if_pos ⟨nonzero, go⟩, rest, List.takeWhile_cons_of_pos go, List.length_cons]
      congr 1
      omega
    · rw [if_neg fun both => go both.2, List.takeWhile_cons_of_neg go]
      rfl

theorem scan_spec (f : UInt8 → Bool) (here : StrAt m a s) (short : s.length < 2 ^ 32) :
    scan m f a = some (a + (s.takeWhile f).length) ∧ StrAt m (a + (s.takeWhile f).length)
    (s.dropWhile f) := by
  refine ⟨scanFrom_spec f _ here short, ?_⟩
  have whole := here
  rw [← List.takeWhile_append_dropWhile (p := f) (l := s)] at whole
  exact whole.behind

theorem strlenAt_spec (here : StrAt m a s) (short : s.length < 2 ^ 32) :
    strlenAt m a = some s.length := by
  have all : s.takeWhile (fun _ => true) = s := List.takeWhile_eq_self_iff.mpr fun _ _ => rfl
  rw [strlenAt, (scan_spec _ here short).1, all, Option.map_some]
  congr 1
  omega

theorem strcmpAt_eq (here : StrAt m a s) {d : Str} (ends : 0 ∉ d) :
    strcmpAt m a d = strcmp s d := by
  induction d generalizing a s with
  | nil =>
    cases s with
    | nil => exact here.empty
    | cons c s => exact here.first.1
  | cons y d ih =>
    rw [List.mem_cons, not_or] at ends
    cases s with
    | nil => simp [strcmpAt, strcmp, here.empty, ends.1]
    | cons c s =>
      obtain ⟨first, nonzero, later⟩ := here.first
      rw [strcmpAt, strcmp, first]
      by_cases same : c = y
      · rw [if_pos ⟨same, nonzero⟩, if_pos same]
        exact ih later ends.2
      · rw [if_neg fun both => same both.1, if_neg same]

end Spelled

/-! ## Tokens in place -/

/-- What `*saveptr` has left to split: pieces of a string that begins no lower than `lim`,
    with all of it in the area. -/
def RestAt (b : Area) (m : Mem) (delim : Str) (lim : Nat) (rest : Option Nat) (ts : List Str) :
    Prop :=
  b.start ≤ lim ∧ lim ≤ b.start + b.size ∧
  match rest with
  | none => ts = []
  | some a => ∃ s, StrAt m a s ∧ pieces delim s = ts ∧ lim ≤ a ∧ a + s.length < b.start + b.size

section Tokens
variable {b : Area} {m : Mem} {delim s : Str} {a lim : Nat} {rest : Option Nat} {t : Str}
  {ts : List Str}

theorem strtokRAt_refines (delim : Str) (here : StrAt m a s) (short : s.length < 2 ^ 32)
    (low : b.start ≤ a)
    (high : a + s.length < b.start + b.size) :
    (strtokR none delim (some s) = (none, none) ∧
    strtokRAt b m (some a) delim (some a) = some (m, none, none)) ∨
    ∃ t save m' o next, strtokR none delim (some s) = (some t, save) ∧
      strtokRAt b m (some a) delim (some a) = some (m', some o, next) ∧
      a ≤ o ∧ o + t.length ≤ a + s.length ∧ StrAt m' o t ∧ (∀ x, x ≠ o + t.length → m' x = m x) ∧
      ((save = none ∧ next = none) ∨ ∃ r, save = some r ∧ next = some (o + t.length + 1) ∧
        StrAt m' (o + t.length + 1) r ∧ o + t.length + 1 + r.length = a + s.length) := by
  obtain ⟨skipped, atStart⟩ := scan_spec (dlim delim) here short
  have whole := congrArg List.length (List.takeWhile_append_dropWhile (p := dlim delim) (l := s))
  rw [List.length_append] at whole
  simp only [strtokR, strtokRAt, Option.none_or, Option.some_or, skipped, Option.bind_eq_bind,
    Option.bind_some]
  generalize s.takeWhile (dlim delim) = sep at *
  cases left : s.dropWhile (dlim delim) with
  | nil =>
    rw [left] at atStart
    exact Or.inl ⟨rfl, by rw [if_pos atStart.empty]; rfl⟩
  | cons c cs =>
    right
    rw [left] at atStart whole
    obtain ⟨first, nonzero, -⟩ := atStart.first
    obtain ⟨passed, atStop⟩ := scan_spec (fun d => !dlim delim d) atStart (by omega)
    have split := List.takeWhile_append_dropWhile (p := fun d => !dlim delim d) (l := c :: cs)
    have sizes := congrArg List.length split
    rw [List.length_append] at sizes
    simp only [first, if_neg nonzero, passed, Option.bind_some]
    generalize (c :: cs).takeWhile (fun d => !dlim delim d) = t at *
    cases behind : (c :: cs).dropWhile fun d => !dlim delim d with
    | nil =>
      rw [behind] at atStop split sizes
      rw [List.append_nil] at split
      rw [List.length_nil] at sizes
      refine ⟨t, none, m, a + sep.length, none, rfl, ?_, by omega, by omega, split ▸ atStart,
        fun _ _ => rfl,
        Or.inl ⟨rfl, rfl⟩⟩
      rw [if_pos atStop.empty]
      rfl
    | cons d r =>
      rw [behind] at atStop split sizes
      rw [List.length_cons] at sizes
      obtain ⟨stop, nonzero', later⟩ := atStop.first
      have inside : b.Has (a + sep.length + t.length) := ⟨by omega, by omega⟩
      refine ⟨t, some r, store8 m (a + sep.length + t.length) 0, a + sep.length,
        some (a + sep.length + t.length + 1),
        rfl, ?_, by omega, by omega, (split ▸ atStart).cut, fun x apart => store8_other _ _ apart,
        Or.inr ⟨r, rfl, rfl, ?_, by omega⟩⟩
      · rw [stop, if_neg nonzero', storeIn_eq inside]
        rfl
      · apply later.moved
        intro i _
        exact store8_other _ _ (by omega)

theorem strtokRAt_saved (b : Area) (m : Mem) (delim : Str) (save : Option Nat) :
    strtokRAt b m none delim save = strtokRAt b m save delim save := by
  simp only [strtokRAt, Option.none_or, Option.or_self]

theorem strtokRAt_fresh (b : Area) (m : Mem) (a : Nat) (delim : Str) (save : Option Nat) :
    strtokRAt b m (some a) delim save = strtokRAt b m (some a) delim (some a) := by
  simp only [strtokRAt, Option.some_or]

theorem strtokRAt_start {save next : Option Nat} {m' : Mem} {o : Nat}
    (call : strtokRAt b m (some a) delim save = some (m', some o, next)) (here : StrAt m a s)
    (short : s.length < 2 ^ 32) : o = a + (s.takeWhile (dlim delim)).length := by
  simp only [strtokRAt, Option.some_or, (scan_spec (dlim delim) here short).1, Option.bind_eq_bind,
    Option.bind_some] at call
  split at call
  · cases call
  · obtain ⟨stop, -, call⟩ := Option.bind_eq_some_iff.mp call
    split at call
    · cases call
      rfl
    · obtain ⟨m'', -, call⟩ := Option.bind_eq_some_iff.mp call
      cases call
      rfl

theorem strtokRAt_done (left : RestAt b m delim lim rest []) (small : b.size < 2 ^ 32) :
    strtokRAt b m rest delim rest = some (m, none, none) := by
  obtain ⟨low, high, left⟩ := left
  cases rest with
  | none => rfl
  | some a =>
    obtain ⟨s, here, none', above, inside⟩ := left
    rcases strtokRAt_refines delim here (by omega) (by omega) inside with
      ⟨-, call⟩ | ⟨t, save, m', o, next, first, -⟩
    · exact call
    · rcases strtokR_pieces delim s with ⟨-, called⟩ | ⟨t, ts, save, some', -⟩
      · rw [first] at called
        cases called
      · rw [none'] at some'
        cases some'

theorem strtokRAt_next (left : RestAt b m delim lim rest (t :: ts)) (small : b.size < 2 ^ 32) :
    ∃ m' o next, strtokRAt b m rest delim rest = some (m', some o, next) ∧ lim ≤ o ∧ StrAt m' o t ∧
      (∀ x, x < o ∨ ¬ b.Has x → m' x = m x) ∧ RestAt b m' delim (o + t.length + 1) next ts := by
  obtain ⟨low, high, left⟩ := left
  cases rest with
  | none => cases left
  | some a =>
    obtain ⟨s, here, some', above, inside⟩ := left
    rcases strtokR_pieces delim s with ⟨none', -⟩ | ⟨t', ts', save, split, called, saved⟩
    · rw [none'] at some'
      cases some'
    · rw [some'] at split
      cases split
      rcases strtokRAt_refines delim here (by omega) (by omega) inside with
        ⟨first, -⟩ | ⟨t', save', m', o, next, first, call, after, bound, token, others, next'⟩
      · rw [first] at called
        cases called
      · rw [first] at called
        cases called
        refine ⟨m', o, next, call, by omega, token, ?_, by omega, by omega, ?_⟩
        · intro x apart
          apply others
          rintro rfl
          rcases apart with below | outside
          · omega
          · exact outside ⟨by omega, by omega⟩
        · rcases next' with ⟨rfl, rfl⟩ | ⟨r, rfl, rfl, rest', size⟩
          · rcases saved with ⟨-, rfl⟩ | ⟨r, same, -⟩
            · rfl
            · cases same
          · rcases saved with ⟨same, -⟩ | ⟨r', same, -, split⟩
            · cases same
            · cases same
              exact ⟨r, rest', split, by omega, by omega⟩

end Tokens

end Strings
