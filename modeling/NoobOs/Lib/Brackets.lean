import Mathlib.Data.List.Induction

/-!
Bracketed words over any alphabet. The level of a word is followed from the left and must
never drop below zero; a word is balanced when it comes back to the level it started from.
-/
namespace Brackets

inductive Kind where
  | opening
  | closing
  | plain
  deriving DecidableEq

section Levels
variable {α : Type} (kind : α → Kind)

/-- The level after a word, unless a closing bracket has none to close. -/
def levels : Nat → List α → Option Nat
  | d, [] => some d
  | d, x :: w =>
    match kind x, d with
    | .opening, d => levels (d + 1) w
    | .closing, 0 => none
    | .closing, d + 1 => levels d w
    | .plain, d => levels d w

def Balanced (w : List α) : Prop := levels kind 0 w = some 0

instance (w : List α) : Decidable (Balanced kind w) := inferInstanceAs (Decidable (_ = _))

variable {kind} {x : α} {d e : Nat}

theorem levels_opening (here : kind x = .opening) (d : Nat) (w : List α) :
    levels kind d (x :: w) = levels kind (d + 1) w := by
  simp [levels, here]

theorem levels_closing (here : kind x = .closing) (d : Nat) (w : List α) :
    levels kind (d + 1) (x :: w) = levels kind d w := by
  simp [levels, here]

theorem levels_unclosed (here : kind x = .closing) (w : List α) :
    levels kind 0 (x :: w) = none := by
  simp [levels, here]

theorem levels_plain (here : kind x = .plain) (d : Nat) (w : List α) :
    levels kind d (x :: w) = levels kind d w := by
  cases d <;> simp [levels, here]

theorem levels_append (d : Nat) (v w : List α) :
    levels kind d (v ++ w) = (levels kind d v).bind fun e => levels kind e w := by
  induction v generalizing d with
  | nil => rfl
  | cons x v ih =>
    rw [List.cons_append]
    cases here : kind x with
    | opening => rw [levels_opening here, levels_opening here, ih]
    | plain => rw [levels_plain here, levels_plain here, ih]
    | closing =>
      cases d with
      | zero => rw [levels_unclosed here, levels_unclosed here, Option.bind_none]
      | succ d => rw [levels_closing here, levels_closing here, ih]

theorem first_closing (w : List α) (f : Nat) (low : e ≤ d)
    (ends : levels kind (f + d + 1) w = some e) :
    ∃ v x rest, w = v ++ x :: rest ∧ kind x = .closing ∧ levels kind f v = some 0 ∧
      levels kind d rest = some e := by
  induction w generalizing f with
  | nil =>
    simp only [levels, Option.some.injEq] at ends
    omega
  | cons y w ih =>
    cases here : kind y with
    | opening =>
      rw [levels_opening here, show f + d + 1 + 1 = f + 1 + d + 1 by omega] at ends
      obtain ⟨v, x, rest, whole, closes, inner, outer⟩ := ih (f + 1) ends
      exact ⟨y :: v, x, rest, by rw [whole, List.cons_append],
        closes, by rwa [levels_opening here], outer⟩
    | plain =>
      rw [levels_plain here] at ends
      obtain ⟨v, x, rest, whole, closes, inner, outer⟩ := ih f ends
      exact ⟨y :: v, x, rest, by rw [whole, List.cons_append],
        closes, by rwa [levels_plain here], outer⟩
    | closing =>
      rw [levels_closing here] at ends
      cases f with
      | zero => exact ⟨[], y, w, rfl, here, rfl, by rwa [Nat.zero_add] at ends⟩
      | succ f =>
        rw [show f + 1 + d = f + d + 1 by omega] at ends
        obtain ⟨v, x, rest, whole, closes, inner, outer⟩ := ih f ends
        exact ⟨y :: v, x, rest, by rw [whole, List.cons_append],
          closes, by rwa [levels_closing here], outer⟩

theorem levels_snoc (d : Nat) (v : List α) (x : α) :
    levels kind d (v ++ [x]) = (levels kind d v).bind fun e => levels kind e [x] :=
  levels_append d v [x]

theorem last_opening (w : List α) (f : Nat) (ends : levels kind 0 w = some (d + 1 + f)) :
    ∃ before x v, w = before ++ x :: v ∧ kind x = .opening ∧ levels kind 0 v = some f := by
  induction w using List.reverseRecOn generalizing f with
  | nil =>
    simp only [levels, Option.some.injEq] at ends
    omega
  | append_singleton w y ih =>
    rw [levels_snoc, Option.bind_eq_some_iff] at ends
    obtain ⟨g, reached, last⟩ := ends
    have extend : ∀ f', g = d + 1 + f' → levels kind f' [y] = some f →
        ∃ before x v, w ++ [y] = before ++ x :: v ∧ kind x = .opening ∧
            levels kind 0 v = some f := by
      intro f' level step
      obtain ⟨before, x, v, whole, opens, inner⟩ := ih f' (by rw [reached, level])
      refine ⟨before, x, v ++ [y], ?_, opens, ?_⟩
      · rw [whole, List.append_assoc, List.cons_append]
      · rw [levels_snoc, inner, Option.bind_some, step]
    cases here : kind y with
    | opening =>
      rw [levels_opening here] at last
      simp only [levels, Option.some.injEq] at last
      cases f with
      | zero => exact ⟨w, y, [], rfl, here, rfl⟩
      | succ f => exact extend f (by omega) (by rw [levels_opening here]; rfl)
    | plain =>
      rw [levels_plain here] at last
      simp only [levels, Option.some.injEq] at last
      exact extend f (by omega) (by rw [levels_plain here]; rfl)
    | closing =>
      cases g with
      | zero =>
        rw [levels_unclosed here] at last
        cases last
      | succ g =>
        rw [levels_closing here] at last
        simp only [levels, Option.some.injEq] at last
        exact extend (f + 1) (by omega) (by rw [levels_closing here]; rfl)

end Levels

/-! ## Matching brackets -/

section Matching
variable {α : Type} (kind : α → Kind) (w : List α)

/-- The brackets at `i` and `j` belong together: what stands between them is balanced. -/
def Matches (i j : Nat) : Prop :=
  i < j ∧ w[i]?.map kind = some .opening ∧ w[j]?.map kind = some .closing ∧
    Balanced kind ((w.drop (i + 1)).take (j - (i + 1)))

instance (i j : Nat) : Decidable (Matches kind w i j) := inferInstanceAs (Decidable (_ ∧ _))

def closingOf (i : Nat) : Option Nat := (List.range w.length).find? fun j => Matches kind w i j

def openingOf (j : Nat) : Option Nat := (List.range w.length).find? fun i => Matches kind w i j

variable {kind} {w} {i j : Nat}

theorem matches_of_split (before rest : List α) {v : List α} {x y : α} (opens : kind x = .opening)
    (closes : kind y = .closing) (inner : Balanced kind v) :
    Matches kind (before ++ x :: (v ++ y :: rest)) before.length
    (before.length + 1 + v.length) := by
  have behind : (before ++ x :: (v ++ y :: rest)).drop (before.length + 1) = v ++ y :: rest := by
    simp [List.drop_append]
  refine ⟨by omega, by simp [opens], ?_, ?_⟩
  · rw [← List.getElem?_drop, behind]
    simp [closes]
  · rw [behind, Nat.add_sub_cancel_left, List.take_left]
    exact inner

theorem split_of_matches (here : Matches kind w i j) :
    ∃ before x v y rest, w = before ++ x :: (v ++ y :: rest) ∧ before.length = i ∧
      i + 1 + v.length = j ∧ kind x = .opening ∧ kind y = .closing ∧ Balanced kind v := by
  obtain ⟨order, opens, closes, inner⟩ := here
  obtain ⟨x, first, opens⟩ := Option.map_eq_some_iff.mp opens
  obtain ⟨y, last, closes⟩ := Option.map_eq_some_iff.mp closes
  obtain ⟨low, rfl⟩ := List.getElem?_eq_some_iff.mp first
  obtain ⟨high, rfl⟩ := List.getElem?_eq_some_iff.mp last
  have rest : (w.drop (i + 1)).drop (j - (i + 1)) = w[j] :: w.drop (j + 1) := by
    rw [List.drop_drop, show i + 1 + (j - (i + 1)) = j by omega, List.drop_eq_getElem_cons high]
  refine ⟨w.take i, w[i], (w.drop (i + 1)).take (j - (i + 1)), w[j], w.drop (j + 1),
    ?_, ?_, ?_, opens,
    closes, inner⟩
  · rw [← rest, List.take_append_drop, List.getElem_cons_drop, List.take_append_drop]
  · rw [List.length_take]
    omega
  · rw [List.length_take, List.length_drop]
    omega

theorem closingOf_spec (found : closingOf kind w i = some j) : Matches kind w i j := by
  simpa using List.find?_some found

theorem openingOf_spec (found : openingOf kind w j = some i) : Matches kind w i j := by
  simpa using List.find?_some found

theorem Matches.inside (here : Matches kind w i j) : j < w.length := by
  obtain ⟨_, _, closes, _⟩ := here
  by_contra far
  rw [List.getElem?_eq_none (by omega)] at closes
  cases closes

theorem closingOf_exists (balanced : Balanced kind w) (here : w[i]?.map kind = some .opening) :
    ∃ j, closingOf kind w i = some j := by
  obtain ⟨x, first, opens⟩ := Option.map_eq_some_iff.mp here
  obtain ⟨inside, rfl⟩ := List.getElem?_eq_some_iff.mp first
  have whole : w = w.take i ++ w[i] :: w.drop (i + 1) := by
    rw [List.getElem_cons_drop, List.take_append_drop]
  rw [Balanced, whole, levels_append, Option.bind_eq_some_iff] at balanced
  obtain ⟨d, _, ends⟩ := balanced
  rw [levels_opening opens] at ends
  obtain ⟨v, y, rest, behind, closes, inner, _⟩ :=
    first_closing (d := d) _ 0 (Nat.zero_le _) (by simpa using ends)
  have pair := matches_of_split (w.take i) rest opens closes inner
  rw [← behind, ← whole, List.length_take, Nat.min_eq_left (by omega)] at pair
  have found : (closingOf kind w i).isSome := by
    rw [closingOf, List.find?_isSome]
    exact ⟨_, List.mem_range.mpr pair.inside, by simpa using pair⟩
  exact Option.isSome_iff_exists.mp found

theorem openingOf_exists (balanced : Balanced kind w) (here : w[j]?.map kind = some .closing) :
    ∃ i, openingOf kind w j = some i := by
  obtain ⟨y, last, closes⟩ := Option.map_eq_some_iff.mp here
  obtain ⟨inside, rfl⟩ := List.getElem?_eq_some_iff.mp last
  have whole : w = w.take j ++ w[j] :: w.drop (j + 1) := by
    rw [List.getElem_cons_drop, List.take_append_drop]
  rw [Balanced, whole, levels_append, Option.bind_eq_some_iff] at balanced
  obtain ⟨g, reached, ends⟩ := balanced
  cases g with
  | zero =>
    rw [levels_unclosed closes] at ends
    cases ends
  | succ d =>
    obtain ⟨before, x, v, front, opens, inner⟩ := last_opening (d := d) _ 0 reached
    have pair := matches_of_split before (w.drop (j + 1)) opens closes inner
    rw [← List.cons_append, ← List.append_assoc, ← front, ← whole] at pair
    have place : before.length + 1 + v.length = j := by
      have length := congrArg List.length front
      rw [List.length_take, List.length_append, List.length_cons] at length
      omega
    rw [place] at pair
    have found : (openingOf kind w j).isSome := by
      rw [openingOf, List.find?_isSome]
      exact ⟨before.length, List.mem_range.mpr (by omega), by simpa using pair⟩
    exact Option.isSome_iff_exists.mp found

end Matching

end Brackets
