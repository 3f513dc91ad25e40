import Mathlib.Data.List.Basic
import Mathlib.Data.List.Induction

/- Input that comes piece by piece and is taken in blocks of n. What has come waits in a buffer, and
   a full buffer is taken when the next item comes, so the last block is still there at the end. -/
namespace BlockStream

variable {H α : Type}

structure Buffered (H α : Type) where
  state : H
  count : Nat
  buffer : List α

def start (h : H) : Buffered H α := ⟨h, 0, []⟩

/-- `f` takes a block, with the number of items up to its end. -/
def push (f : H → List α → Nat → H) (n : Nat) (s : Buffered H α) (x : α) : Buffered H α :=
  if s.buffer.length = n then ⟨f s.state s.buffer (s.count + n), s.count + n, [x]⟩
  else { s with buffer := s.buffer ++ [x] }

/-! The input as a whole: the blocks before the last are taken in order. -/

def block (n : Nat) (xs : List α) (i : Nat) : List α := (xs.drop (i * n)).take n

def before (n : Nat) (xs : List α) : Nat := (xs.length - 1) / n

def chain (f : H → List α → Nat → H) (n : Nat) (h : H) (xs : List α) : H :=
  (List.range (before n xs)).foldl (fun h i => f h (block n xs i) ((i + 1) * n)) h

def last (n : Nat) (xs : List α) : List α := xs.drop (before n xs * n)

def Holds (f : H → List α → Nat → H) (n : Nat) (h : H) (xs : List α) (s : Buffered H α) : Prop :=
  s.state = chain f n h xs ∧ s.count = before n xs * n ∧ s.buffer = last n xs

section Blocks
variable {f : H → List α → Nat → H} {n : Nat} {h : H} {xs : List α} {s : Buffered H α} {x : α}

theorem before_le (n : Nat) (xs : List α) : before n xs * n ≤ xs.length :=
  Nat.le_trans (Nat.div_mul_le_self _ _) (Nat.sub_le _ _)

theorem last_length (n : Nat) (xs : List α) : (last n xs).length = xs.length - before n xs * n :=
  List.length_drop

theorem last_le (positive : 0 < n) (xs : List α) : (last n xs).length ≤ n := by
  have split := Nat.div_add_mod (xs.length - 1) n
  have small := Nat.mod_lt (xs.length - 1) positive
  rw [last_length, before, Nat.mul_comm]
  omega

theorem block_append {i : Nat} (ys : List α) (inside : (i + 1) * n ≤ xs.length) :
    block n (xs ++ ys) i = block n xs i := by
  rw [Nat.succ_mul] at inside
  rw [block, List.drop_append_of_le_length (by omega),
    List.take_append_of_le_length (by rw [List.length_drop]; omega), block]

theorem before_full (positive : 0 < n) (full : (last n xs).length = n) (x : α) :
    before n (xs ++ [x]) = before n xs + 1 := by
  have split : xs.length = (before n xs + 1) * n := by
    rw [last_length] at full
    rw [Nat.succ_mul]
    omega
  rw [before, List.length_append, List.length_singleton, Nat.add_sub_cancel, split,
    Nat.mul_div_cancel _ positive]

theorem before_room (positive : 0 < n) (room : (last n xs).length ≠ n) (x : α) :
    before n (xs ++ [x]) = before n xs := by
  have bound := last_le positive xs
  rw [last_length] at room bound
  rw [before, List.length_append, List.length_singleton, Nat.add_sub_cancel]
  have reach := before_le n xs
  apply Nat.div_eq_of_lt_le
  · exact reach
  · rw [Nat.succ_mul]
    omega

theorem chain_append (n : Nat) (x : α) :
    (List.range (before n xs)).foldl (fun h i => f h (block n (xs ++ [x]) i) ((i + 1) * n)) h =
    chain f n h xs := by
  rw [chain]
  apply List.foldl_ext
  intro h i inside
  have up : (i + 1) * n ≤ before n xs * n := Nat.mul_le_mul_right n (List.mem_range.mp inside)
  rw [block_append _ (Nat.le_trans up (before_le n xs))]

theorem push_holds (positive : 0 < n) (holds : Holds f n h xs s) :
    Holds f n h (xs ++ [x]) (push f n s x) := by
  obtain ⟨state, count, buffer⟩ := holds
  by_cases full : (last n xs).length = n
  · have whole : block n (xs ++ [x]) (before n xs) = last n xs := by
      have exact : (before n xs + 1) * n ≤ xs.length := by
        rw [last_length] at full
        rw [Nat.succ_mul]
        omega
      rw [block_append _ exact, block, ← last, List.take_of_length_le (Nat.le_of_eq full)]
    have ends : last n (xs ++ [x]) = [x] := by
      have length := last_length n xs
      have reach := before_le n xs
      rw [last, before_full positive full, Nat.succ_mul, List.drop_append,
        List.drop_of_length_le (by omega),
        show before n xs * n + n - xs.length = 0 by omega]
      rfl
    rw [push, buffer, if_pos full]
    refine ⟨?_, ?_, ends.symm⟩
    · rw [chain, before_full positive full, List.range_succ, List.foldl_append, chain_append,
        List.foldl_cons, List.foldl_nil,
        whole, state, count, Nat.succ_mul]
    · rw [before_full positive full, Nat.succ_mul, count]
  · rw [push, buffer, if_neg full]
    refine ⟨?_, ?_, ?_⟩
    · rw [chain, before_room positive full, chain_append]
      exact state
    · rw [before_room positive full]
      exact count
    · have ends : last n (xs ++ [x]) = last n xs ++ [x] := by
        rw [last, before_room positive full, List.drop_append_of_le_length (before_le n xs), last]
      exact ends.symm

/-- However the input is cut, the stream is at its last block with all before it taken in order. -/
theorem stream_holds (positive : 0 < n) (f : H → List α → Nat → H) (h : H) (xs : List α) :
    Holds f n h xs (xs.foldl (push f n) (start h)) := by
  induction xs using List.reverseRecOn with
  | nil => exact ⟨by simp [start, chain, before], by simp [start, before], by simp [start, last]⟩
  | append_singleton xs x ih =>
    rw [List.foldl_append]
    exact push_holds positive ih

end Blocks

end BlockStream
