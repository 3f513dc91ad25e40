import Mathlib.Logic.Function.Basic
import Mathlib.Tactic.Linarith

/- Cells of a grid kept row after row in one array, whose rows may go on past either end. A loop
   over rows and columns stores one cell each. -/
namespace CellGrid

variable {β : Type}

def place (w row col : Int) : Int := row * w + col

theorem place_inj {w row row' col col' : Int} (inside : 0 ≤ col ∧ col < w)
    (inside' : 0 ≤ col' ∧ col' < w) :
    place w row col = place w row' col' ↔ row = row' ∧ col = col' := by
  constructor
  · intro same
    unfold place at same
    have rows : row = row' := by
      rcases lt_trichotomy row row' with less | eq | more
      · have up : (row + 1) * w ≤ row' * w := mul_le_mul_of_nonneg_right (by omega) (by omega)
        rw [Int.add_mul, Int.one_mul] at up
        omega
      · exact eq
      · have up : (row' + 1) * w ≤ row * w := mul_le_mul_of_nonneg_right (by omega) (by omega)
        rw [Int.add_mul, Int.one_mul] at up
        omega
    subst rows
    exact ⟨rfl, by omega⟩
  · rintro ⟨rfl, rfl⟩
    rfl

/-- A loop: for each column, the rows in turn. -/
def columns (w : Nat) (rows : List Int) : List (Int × Int) :=
  (List.range w).flatMap fun i : Nat => rows.map (·, (i : Int))

theorem mem_columns {w : Nat} {rows : List Int} {row col : Int} :
    (row, col) ∈ columns w rows ↔ row ∈ rows ∧ 0 ≤ col ∧ col < w := by
  simp only [columns, List.mem_flatMap, List.mem_range, List.mem_map, Prod.mk.injEq]
  constructor
  · rintro ⟨i, less, r, member, rfl, rfl⟩
    exact ⟨member, by omega, by omega⟩
  · rintro ⟨member, low, high⟩
    exact ⟨col.toNat, by omega, row, member, rfl, by omega⟩

/-- The loop stores to the rows from `off` on. -/
def fill (w off : Int) (cell : Int × Int → β) (cells : List (Int × Int)) (g : Int → β) : Int → β :=
  cells.foldl (fun g p => Function.update g (place w (p.1 + off) p.2) (cell p)) g

theorem fill_cell {w : Nat} (rows : List Int) (row : Int) {col : Int} (off : Int)
    (cell : Int × Int → β) (g : Int → β)
    (inside : 0 ≤ col ∧ col < w) : fill w off cell (columns w rows) g (place w (row + off) col) =
      if row ∈ rows then cell (row, col) else g (place w (row + off) col) := by
  have general : ∀ cells : List (Int × Int), (∀ p ∈ cells, 0 ≤ p.2 ∧ p.2 < w) → ∀ g : Int → β,
      fill w off cell cells g (place w (row + off) col) =
        if (row, col) ∈ cells then cell (row, col) else g (place w (row + off) col) := by
    intro cells
    induction cells with
    | nil => exact fun _ g => rfl
    | cons p cells ih =>
      intro range g
      have rest := ih (fun q member => range q (List.mem_cons_of_mem _ member))
        (Function.update g (place w (p.1 + off) p.2) (cell p))
      rw [fill, List.foldl_cons]
      refine rest.trans ?_
      by_cases later : (row, col) ∈ cells
      · rw [if_pos later, if_pos (List.mem_cons_of_mem _ later)]
      · rw [if_neg later]
        by_cases here : (row, col) = p
        · rw [if_pos (by rw [here]; exact List.mem_cons_self ..), ← here, Function.update_self]
        · have apart : place w (row + off) col ≠ place w (p.1 + off) p.2 := by
            intro same
            obtain ⟨rows, cols⟩ := (place_inj inside (range p (List.mem_cons_self ..))).mp same
            exact here (Prod.ext (by omega) cols)
          rw [Function.update_of_ne apart,
            if_neg (by simp only [List.mem_cons, here, later, or_self, not_false_eq_true])]
  rw [general _ (fun p member => (mem_columns.mp member).2) g]
  exact if_congr (by rw [mem_columns]; exact and_iff_left inside) rfl rfl

theorem range_takeWhile (s n k : Nat) :
    (List.range' s n).takeWhile (fun j => decide (j < k)) = List.range' s (min n (k - s)) := by
  induction n generalizing s with
  | zero => simp
  | succ n ih =>
    rw [List.range'_succ]
    by_cases less : s < k
    · have more : min (n + 1) (k - s) = min n (k - (s + 1)) + 1 := by omega
      rw [List.takeWhile_cons_of_pos (by simpa using less), ih, more, List.range'_succ]
    · have none : min (n + 1) (k - s) = 0 := by omega
      rw [List.takeWhile_cons_of_neg (by simpa using less), none, List.range'_zero]

end CellGrid
