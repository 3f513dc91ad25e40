import NoobOs.KLib.StringBuffers

/-!
`memcmp`, `strncmp` and `strcmp` of `mem.c` on two strings in memory, with every read checked.
Their result is the difference of two bytes in eight bits.
-/
namespace Strings
open ByteMemory

/-- The loop of the three. A terminator ends it if `text`; `out` is what follows when `n` bytes
    have been gone through. -/
def compareIn (b1 b2 : Area) (m : Mem) (text : Bool) (out : Option UInt8) :
    Nat → Nat → Nat → Option UInt8
  | 0, _, _ => out
  | n + 1, s, d => do
    let x ← loadIn b1 m s
    let y ← loadIn b2 m d
    if x = y ∧ (text → x ≠ 0) then compareIn b1 b2 m text out n (s + 1) (d + 1) else return x - y

def memcmpIn (b1 b2 : Area) (m : Mem) (s1 s2 siz : Nat) : Option UInt8 :=
  compareIn b1 b2 m false (some 0) siz s1 s2
def strncmpIn (b1 b2 : Area) (m : Mem) (s1 s2 siz : Nat) : Option UInt8 :=
  compareIn b1 b2 m true (some 0) siz s1 s2

/-- Without a limit: `none` is also a loop that runs through all addresses. -/
def strcmpIn (b1 b2 : Area) (m : Mem) (s d : Nat) : Option UInt8 :=
  compareIn b1 b2 m true none (2 ^ 32) s d

def Same (m : Mem) (text : Bool) (s d i : Nat) : Prop :=
  m (s + i) = m (d + i) ∧ (text → m (s + i) ≠ 0)

instance (m : Mem) (text : Bool) (s d i : Nat) : Decidable (Same m text s d i) :=
  inferInstanceAs (Decidable (_ ∧ _))

section Compare
variable {m : Mem} {text : Bool} {out : Option UInt8} {s d n : Nat} {b1 b2 : Area}

theorem same_succ (i : Nat) : Same m text s d (i + 1) ↔ Same m text (s + 1) (d + 1) i := by
  rw [Same, Same, Nat.add_right_comm s 1 i, Nat.add_right_comm d 1 i]
  rfl

theorem compareIn_turn (room : b1.Has (s + 0) ∧ b2.Has (d + 0)) :
    compareIn b1 b2 m text out (n + 1) s d =
      if Same m text s d 0 then compareIn b1 b2 m text out n (s + 1) (d + 1)
      else some (m s - m d) := by
  have room1 : b1.Has s := room.1
  have room2 : b2.Has d := room.2
  rw [compareIn, loadIn_eq room1, loadIn_eq room2]
  rfl

theorem compareIn_stops {k : Nat} (less : k < n) (first : ∀ i < k, Same m text s d i)
    (stop : ¬ Same m text s d k)
    (room : ∀ i ≤ k, b1.Has (s + i) ∧ b2.Has (d + i)) :
    compareIn b1 b2 m text out n s d = some (m (s + k) - m (d + k)) := by
  induction n generalizing s d k with
  | zero => omega
  | succ n ih =>
    rw [compareIn_turn (room 0 (Nat.zero_le k))]
    cases k with
    | zero => exact if_neg stop
    | succ k =>
      rw [if_pos (first 0 (Nat.zero_lt_succ k)), show s + (k + 1) = s + 1 + k by omega,
        show d + (k + 1) = d + 1 + k by omega]
      apply ih (by omega)
      · exact fun i below => (same_succ i).mp (first (i + 1) (by omega))
      · exact fun same => stop ((same_succ k).mpr same)
      · intro i below
        rw [Nat.add_right_comm s, Nat.add_right_comm d]
        exact room (i + 1) (by omega)

theorem compareIn_ends (all : ∀ i < n, Same m text s d i)
    (room : ∀ i < n, b1.Has (s + i) ∧ b2.Has (d + i)) :
    compareIn b1 b2 m text out n s d = out := by
  induction n generalizing s d with
  | zero => rfl
  | succ n ih =>
    rw [compareIn_turn (room 0 (Nat.zero_lt_succ n)), if_pos (all 0 (Nat.zero_lt_succ n))]
    apply ih
    · exact fun i below => (same_succ i).mp (all (i + 1) (by omega))
    · intro i below
      rw [Nat.add_right_comm s, Nat.add_right_comm d]
      exact room (i + 1) (by omega)

theorem first_stop (m : Mem) (text : Bool) (s d n : Nat) :
    (∃ k < n, (∀ i < k, Same m text s d i) ∧ ¬ Same m text s d k) ∨ ∀ i < n, Same m text s d i := by
  by_cases all : ∀ i < n, Same m text s d i
  · exact Or.inr all
  · left
    simp only [not_forall] at all
    obtain ⟨i, below, stop⟩ := all
    have found : ∃ k, k < n ∧ ¬ Same m text s d k := ⟨i, below, stop⟩
    obtain ⟨less, differs⟩ := Nat.find_spec found
    refine ⟨Nat.find found, less, ?_, differs⟩
    intro j before
    by_contra other
    exact Nat.find_min found before ⟨by omega, other⟩

theorem compareIn_exact (m : Mem) (text : Bool) (out : Option UInt8) (s d n : Nat) :
    ∃ len ≤ n, (∀ i, i + 1 < len → Same m text s d i) ∧
      ((∃ k < n, (∀ i < k, Same m text s d i) ∧ ¬ Same m text s d k ∧
          compareIn ⟨s, len⟩ ⟨d, len⟩ m text out n s d = some (m (s + k) - m (d + k))) ∨
        (∀ i < n, Same m text s d i) ∧ compareIn ⟨s, len⟩ ⟨d, len⟩ m text out n s d = out) := by
  have room : ∀ len i, i < len → (Area.mk s len).Has (s + i) ∧ (Area.mk d len).Has (d + i) := by
    intro len i below
    exact ⟨⟨Nat.le_add_right s i, Nat.add_lt_add_left below s⟩, Nat.le_add_right d i,
      Nat.add_lt_add_left below d⟩
  rcases first_stop m text s d n with ⟨k, less, first, stop⟩ | all
  · refine ⟨k + 1, less, fun i below => first i (by omega), Or.inl ⟨k, less, first, stop, ?_⟩⟩
    exact compareIn_stops less first stop fun i below => room (k + 1) i (by omega)
  · refine ⟨n, Nat.le_refl n, fun i below => all i (by omega), Or.inr ⟨all, ?_⟩⟩
    exact compareIn_ends all fun i below => room n i below

end Compare

section Results
variable (m : Mem) (a b n : Nat)

theorem memcmpIn_exact : ∃ len ≤ n, (∀ i, i + 1 < len → m (a + i) = m (b + i)) ∧
    ∃ r, memcmpIn ⟨a, len⟩ ⟨b, len⟩ m a b n = some r ∧
    (r = 0 ↔ ∀ i < n, m (a + i) = m (b + i)) := by
  have plain : ∀ i, Same m false a b i ↔ m (a + i) = m (b + i) := fun i => and_iff_left (by simp)
  obtain ⟨len, short, before, ends⟩ := compareIn_exact m false (some 0) a b n
  refine ⟨len, short, fun i below => (plain i).mp (before i below), ?_⟩
  rcases ends with ⟨k, less, -, stop, result⟩ | ⟨all, result⟩
  · refine ⟨_, result, iff_of_false ?_ fun equal => stop ((plain k).mpr (equal k less))⟩
    exact fun zero => stop ((plain k).mpr (sub_eq_zero.mp zero))
  · exact ⟨0, result, iff_of_true rfl fun i below => (plain i).mp (all i below)⟩

theorem strncmpIn_exact : ∃ len ≤ n, (∀ i, i + 1 < len → m (a + i) = m (b + i) ∧ m (a + i) ≠ 0) ∧
    ∃ r, strncmpIn ⟨a, len⟩ ⟨b, len⟩ m a b n = some r ∧
      (r = 0 ↔ (∀ i < n, m (a + i) = m (b + i)) ∨ ∃ j < n, m (a + j) = 0 ∧
      ∀ i ≤ j, m (a + i) = m (b + i)) := by
  obtain ⟨len, short, before, ends⟩ := compareIn_exact m true (some 0) a b n
  refine ⟨len, short, fun i below => ⟨(before i below).1, (before i below).2 rfl⟩, ?_⟩
  rcases ends with ⟨k, less, first, stop, result⟩ | ⟨all, result⟩
  · refine ⟨_, result, sub_eq_zero.trans ⟨?_, ?_⟩⟩
    · intro equal
      have zero : m (a + k) = 0 := by
        by_contra nonzero
        exact stop ⟨equal, fun _ => nonzero⟩
      refine Or.inr ⟨k, less, zero, ?_⟩
      intro i below
      rcases Nat.lt_or_eq_of_le below with before' | rfl
      · exact (first i before').1
      · exact equal
    · rintro (all | ⟨j, -, zero, all⟩)
      · exact all k less
      · -- the terminator is not before the first stop
        rcases Nat.lt_or_ge j k with before' | reaches
        · exact absurd zero ((first j before').2 rfl)
        · exact all k reaches
  · exact ⟨0, result, iff_of_true rfl (Or.inl fun i below => (all i below).1)⟩

variable {m a b}

theorem strcmp_at_stop {s d : Str} (here : StrAt m a s) (there : StrAt m b d) {k : Nat}
    (first : ∀ i < k, Same m true a b i) (stop : ¬ Same m true a b k) :
    m (a + k) - m (b + k) = strcmp s d := by
  induction k generalizing a b s d with
  | zero =>
    cases s with
    | nil =>
      cases d with
      | nil => simp [here.empty, there.empty, strcmp]
      | cons y d => simp [here.empty, there.first.1, strcmp]
    | cons c s =>
      cases d with
      | nil => simp [here.first.1, there.empty, strcmp]
      | cons y d =>
        have differ : c ≠ y := by
          rintro rfl
          exact stop ⟨here.first.1.trans there.first.1.symm, fun _ => here.first.1 ▸ here.first.2.1⟩
        rw [strcmp, if_neg differ, Nat.add_zero, Nat.add_zero, here.first.1, there.first.1]
  | succ k ih =>
    obtain ⟨same, nonzero⟩ := first 0 (Nat.zero_lt_succ k)
    rw [Nat.add_zero, Nat.add_zero] at same
    cases s with
    | nil => exact absurd here.empty (nonzero rfl)
    | cons c s =>
      cases d with
      | nil => exact absurd (same.trans there.empty) (nonzero rfl)
      | cons y d =>
        have equal : c = y := here.first.1.symm.trans (same.trans there.first.1)
        rw [strcmp, if_pos equal, show a + (k + 1) = a + 1 + k by omega, show b + (k + 1) =
          b + 1 + k by omega]
        apply ih here.first.2.2 there.first.2.2
        · exact fun i below => (same_succ i).mp (first (i + 1) (by omega))
        · exact fun goes => stop ((same_succ k).mpr goes)

theorem strcmpIn_exact {s d : Str} (here : StrAt m a s) (there : StrAt m b d)
    (short : s.length < 2 ^ 32) :
    ∃ len, (∀ i, i + 1 < len → m (a + i) = m (b + i) ∧ m (a + i) ≠ 0) ∧
      strcmpIn ⟨a, len⟩ ⟨b, len⟩ m a b = some (strcmp s d) := by
  obtain ⟨len, -, before, ends⟩ := compareIn_exact m true none a b (2 ^ 32)
  refine ⟨len, fun i below => ⟨(before i below).1, (before i below).2 rfl⟩, ?_⟩
  rcases ends with ⟨k, -, first, stop, result⟩ | ⟨all, -⟩
  · exact result.trans (congrArg some (strcmp_at_stop here there first stop))
  · have whole : StrAt m a (s ++ []) := by rwa [List.append_nil]
    exact absurd whole.behind.empty ((all s.length short).2 rfl)

end Results

/-- The comparisons in eight bits are zero exactly for equal bytes, and none of them reads behind
    the first difference, a terminator or its limit. -/
theorem comparisons_exact (m : Mem) (a b : Nat) :
    (∀ s d, StrAt m a s → StrAt m b d → s.length < 2 ^ 32 →
      ∃ len, (∀ i, i + 1 < len → m (a + i) = m (b + i) ∧ m (a + i) ≠ 0) ∧
        ∃ r, strcmpIn ⟨a, len⟩ ⟨b, len⟩ m a b = some r ∧ (r = 0 ↔ s = d)) ∧
    (∀ n, ∃ len ≤ n, (∀ i, i + 1 < len → m (a + i) = m (b + i) ∧ m (a + i) ≠ 0) ∧
      ∃ r, strncmpIn ⟨a, len⟩ ⟨b, len⟩ m a b n = some r ∧
        (r = 0 ↔ (∀ i < n, m (a + i) = m (b + i)) ∨
          ∃ j < n, m (a + j) = 0 ∧ ∀ i ≤ j, m (a + i) = m (b + i))) ∧
    ∀ n, ∃ len ≤ n, (∀ i, i + 1 < len → m (a + i) = m (b + i)) ∧
      ∃ r, memcmpIn ⟨a, len⟩ ⟨b, len⟩ m a b n = some r ∧
      (r = 0 ↔ ∀ i < n, m (a + i) = m (b + i)) := by
  refine ⟨?_, strncmpIn_exact m a b, memcmpIn_exact m a b⟩
  intro s d here there short
  obtain ⟨len, before, result⟩ := strcmpIn_exact here there short
  exact ⟨len, before, _, result, strcmp_eq_zero here.1 there.1⟩

def twoWords : Mem :=
  storeBytes (storeBytes (fun _ => 0) 16 [0x63, 0x61, 0x74, 0]) 32 [0x63, 0x61, 0x72, 0]

theorem letters_differ : ∃ len,
    (∀ i, i + 1 < len → twoWords (16 + i) = twoWords (32 + i) ∧ twoWords (16 + i) ≠ 0) ∧
      ∃ r, strcmpIn ⟨16, len⟩ ⟨32, len⟩ twoWords 16 32 = some r ∧
        (r = 0 ↔ ([0x63, 0x61, 0x74] : Str) = [0x63, 0x61, 0x72]) :=
  (comparisons_exact twoWords 16 32).1 [0x63, 0x61, 0x74] [0x63, 0x61, 0x72]
    ⟨by decide, rfl, rfl, rfl, rfl, trivial⟩ ⟨by decide, rfl, rfl, rfl, rfl, trivial⟩ (by decide)

end Strings
