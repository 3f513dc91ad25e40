import Mathlib.Data.List.Infix
import Mathlib.Tactic.Common

/- A stack driven by a list of moves, unbounded and in an array of `room` entries. A move
   up from the empty stack does nothing. -/
namespace BoundedStack

inductive Move (α : Type) where
  | stay
  | up
  | into (a : α)

variable {α : Type} {room : Nat} {ms : List (Move α)} {st : List α}

def step : List α → Move α → List α
  | st, .stay => st
  | st, .up => st.tail
  | st, .into a => a :: st

def walk (ms : List (Move α)) (st : List α) : List α := ms.foldl step st

/-- In an array; `none` is a store past its end. -/
def walkIn (room : Nat) : List (Move α) → List α → Option (List α)
  | [], st => some st
  | .stay :: ms, st => walkIn room ms st
  | .up :: ms, st => walkIn room ms st.tail
  | .into a :: ms, st => if st.length < room then walkIn room ms (a :: st) else none

/-- At no moment are there more than `room` entries. -/
def Shallow (room : Nat) (ms : List (Move α)) (st : List α) : Prop :=
  ∀ p, p <+: ms → (walk p st).length ≤ room

def Move.gain : Move α → Int
  | .stay => 0
  | .up => -1
  | .into _ => 1

/-- The entries made less the moves up. -/
def gain : List (Move α) → Int
  | [] => 0
  | m :: ms => m.gain + gain ms

theorem walk_append (as bs : List (Move α)) (st : List α) :
    walk (as ++ bs) st = walk bs (walk as st) :=
  List.foldl_append

theorem walk_snoc (ms : List (Move α)) (m : Move α) (st : List α) :
    walk (ms ++ [m]) st = step (walk ms st) m := by
  rw [walk_append]
  rfl

theorem walkIn_append (room : Nat) (as bs : List (Move α)) (st : List α) :
    walkIn room (as ++ bs) st = (walkIn room as st).bind (walkIn room bs) := by
  induction as generalizing st with
  | nil => rfl
  | cons m as ih =>
    cases m with
    | stay => exact ih st
    | up => exact ih st.tail
    | into a =>
      rw [List.cons_append, walkIn, walkIn]
      split
      · exact ih (a :: st)
      · rfl

theorem Shallow.tail {m : Move α} (shallow : Shallow room (m :: ms) st) :
    Shallow room ms (step st m) := by
  intro p before
  exact shallow (m :: p) (List.cons_prefix_cons.mpr ⟨rfl, before⟩)

theorem shallow_cons {m : Move α} (now : st.length ≤ room) (later : Shallow room ms (step st m)) :
    Shallow room (m :: ms) st := by
  intro p before
  cases p with
  | nil => exact now
  | cons m' p =>
    obtain ⟨rfl, rest⟩ := List.cons_prefix_cons.mp before
    exact later p rest

/-- The array is enough exactly if the stack is never higher. -/
theorem walkIn_eq (low : st.length ≤ room) (result : List α) :
    walkIn room ms st = some result ↔ Shallow room ms st ∧ walk ms st = result := by
  induction ms generalizing st with
  | nil =>
    have here : Shallow room ([] : List (Move α)) st := by
      intro p before
      rw [List.prefix_nil.mp before]
      exact low
    simp [walkIn, walk, here]
  | cons m ms ih =>
    have both : Shallow room (m :: ms) st ↔ Shallow room ms (step st m) :=
      ⟨Shallow.tail, shallow_cons low⟩
    rw [both]
    cases m with
    | stay => exact ih low
    | up =>
      have lower : st.tail.length ≤ room := by
        rw [List.length_tail]
        omega
      exact ih lower
    | into a =>
      rw [walkIn]
      by_cases fits : st.length < room
      · have higher : (a :: st).length ≤ room := fits
        rw [if_pos fits]
        exact ih higher
      · rw [if_neg fits]
        refine iff_of_false (by simp) ?_
        rintro ⟨shallow, -⟩
        have high := shallow [] List.nil_prefix
        rw [walk, List.foldl_nil, step, List.length_cons] at high
        omega

/-! ## Windows -/

theorem gain_append (as bs : List (Move α)) : gain (as ++ bs) = gain as + gain bs := by
  induction as with
  | nil => simp [gain]
  | cons m as ih =>
    rw [List.cons_append, gain, gain, ih]
    omega

theorem gain_le_walk (ms : List (Move α)) (st : List α) :
    (st.length : Int) + gain ms ≤ (walk ms st).length := by
  induction ms generalizing st with
  | nil => simp [gain, walk]
  | cons m ms ih =>
    have rest := ih (step st m)
    have one : (st.length : Int) + m.gain ≤ (step st m).length := by
      cases m with
      | stay => simp [step, Move.gain]
      | up =>
        simp only [step, Move.gain, List.length_tail]
        omega
      | into a => simp [step, Move.gain]
    rw [gain]
    change _ ≤ ((walk ms (step st m)).length : Int)
    omega

theorem walk_gained (ms : List (Move α)) : ∃ s, s <:+ ms ∧ gain s = (walk ms []).length := by
  induction ms using List.reverseRecOn with
  | nil => exact ⟨[], List.suffix_rfl, rfl⟩
  | append_singleton ms m ih =>
    obtain ⟨s, ⟨before, rfl⟩, height⟩ := ih
    have longer : s ++ [m] <:+ before ++ s ++ [m] := ⟨before, by rw [List.append_assoc]⟩
    rw [walk_snoc]
    cases m with
    | stay => exact ⟨s ++ [.stay],
      longer, by rw [gain_append, height]; simp [gain, Move.gain, step]⟩
    | up =>
      by_cases empty : walk (before ++ s) [] = []
      · exact ⟨[], List.nil_suffix, by rw [empty]; rfl⟩
      · refine ⟨s ++ [.up], longer, ?_⟩
        have some' := List.length_pos_iff.mpr empty
        rw [gain_append, height, step, List.length_tail]
        simp only [gain, Move.gain]
        omega
    | into a => exact ⟨s ++ [.into a],
      longer, by rw [gain_append, height]; simp [gain, Move.gain, step]⟩

/-- The stack never gets higher than the most that consecutive moves gain. -/
theorem shallow_iff_windows : Shallow room ms [] ↔ ∀ w, w <:+: ms → gain w ≤ room := by
  constructor
  · rintro shallow w ⟨before, after, rfl⟩
    have high := shallow (before ++ w) (List.prefix_append _ _)
    have gained := gain_le_walk w (walk before [])
    rw [walk_append] at high
    omega
  · intro windows p before
    obtain ⟨s, last, height⟩ := walk_gained p
    have most := windows s (last.isInfix.trans before.isInfix)
    omega

end BoundedStack
