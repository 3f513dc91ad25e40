import Mathlib.Logic.Function.Basic
import Mathlib.Tactic.Common

/- A ring of `n` cells with a read and a write index and no count: equal indices mean
   empty, so at most `n - 1` cells are in use. -/
namespace RingBuffer
variable {α : Type}

structure Buffer (α : Type) where
  buf : Nat → α
  r : Nat
  w : Nat

def push (n : Nat) (q : Buffer α) (c : α) : Buffer α :=
  ⟨Function.update q.buf q.w c, q.r, (q.w + 1) % n⟩

def pop (n : Nat) (q : Buffer α) : α × Buffer α := (q.buf q.r, { q with r := (q.r + 1) % n })

/-- How many cells the two indices say are in use. -/
def seen (n : Nat) (q : Buffer α) : Nat := (q.w + n - q.r) % n

def contents (n : Nat) (q : Buffer α) : List α :=
  (List.range (seen n q)).map fun i => q.buf ((q.r + i) % n)

structure Good (n : Nat) (q : Buffer α) : Prop where
  read : q.r < n
  write : q.w < n

section Index
variable {n : Nat} {q : Buffer α}

theorem next_index {i : Nat} (inside : i < n) : (i + 1) % n = if i + 1 = n then 0 else i + 1 := by
  split
  · next last => rw [last, Nat.mod_self]
  · exact Nat.mod_eq_of_lt (by omega)

theorem shifted_index {i k : Nat} (inside : i < n) (few : k ≤ n) :
    (i + k) % n = if i + k < n then i + k else i + k - n := by
  split
  · next low => exact Nat.mod_eq_of_lt low
  · rw [Nat.mod_eq_sub_mod (by omega)]
    exact Nat.mod_eq_of_lt (by omega)

theorem Good.seen_eq (good : Good n q) :
    seen n q = if q.r ≤ q.w then q.w - q.r else q.w + n - q.r := by
  obtain ⟨read, write⟩ := good
  unfold seen
  split
  · have shape : q.w + n - q.r = q.w - q.r + n := by omega
    rw [shape, Nat.add_mod_right, Nat.mod_eq_of_lt (by omega)]
  · exact Nat.mod_eq_of_lt (by omega)

theorem Good.seen_lt (good : Good n q) : seen n q < n := by
  obtain ⟨read, write⟩ := good
  exact Nat.mod_lt _ (by omega)

theorem contents_length (n : Nat) (q : Buffer α) : (contents n q).length = seen n q := by
  simp [contents]

theorem Good.empty_iff (good : Good n q) : q.r = q.w ↔ contents n q = [] := by
  rw [← List.length_eq_zero_iff, contents_length, good.seen_eq]
  obtain ⟨read, write⟩ := good
  split <;> omega

theorem Good.push_contents (good : Good n q) (room : seen n q + 1 < n) (c : α) :
    Good n (push n q c) ∧ contents n (push n q c) = contents n q ++ [c] := by
  obtain ⟨read, write⟩ := good
  have good' : Good n (push n q c) := ⟨read, Nat.mod_lt _ (by omega)⟩
  have before := Good.seen_eq ⟨read, write⟩
  have after : seen n (push n q c) = seen n q + 1 := by
    rw [good'.seen_eq]
    simp only [push, next_index write]
    split at before <;> split <;> split <;> omega
  have last : (q.r + seen n q) % n = q.w := by
    rw [shifted_index read (by omega)]
    split at before <;> split <;> omega
  refine ⟨good', ?_⟩
  unfold contents
  rw [after, List.range_succ, List.map_append, List.map_singleton]
  congr 1
  · apply List.map_congr_left
    intro i member
    have below := List.mem_range.mp member
    apply Function.update_of_ne
    simp only [push]
    rw [shifted_index read (by omega)]
    split at before <;> split <;> omega
  · simp only [push, last, Function.update_self]

theorem Good.pop_contents (good : Good n q) (some' : q.r ≠ q.w) :
    Good n (pop n q).2 ∧ contents n q = (pop n q).1 :: contents n (pop n q).2 := by
  obtain ⟨read, write⟩ := good
  have good' : Good n (pop n q).2 := ⟨Nat.mod_lt _ (by omega), write⟩
  have before := Good.seen_eq ⟨read, write⟩
  have after : seen n q = seen n (pop n q).2 + 1 := by
    rw [good'.seen_eq]
    simp only [pop, next_index read]
    split at before <;> split <;> split <;> omega
  refine ⟨good', ?_⟩
  unfold contents
  rw [after, List.range_succ_eq_map, List.map_cons, List.map_map]
  congr 1
  · rw [Nat.add_zero, Nat.mod_eq_of_lt read]
    rfl
  · apply List.map_congr_left
    intro i member
    simp only [Function.comp_apply, pop, Nat.mod_add_mod, Nat.succ_eq_add_one, Nat.add_assoc,
      Nat.add_comm 1 i]

end Index

end RingBuffer
