import Mathlib.Data.List.Basic
import Mathlib.Data.Nat.Find

/- The maximal runs of positions that are no separator, among the first `n`. -/
namespace MaximalRuns
variable {sep : Nat → Bool} {n o e o' e' q k : Nat}

structure Run (sep : Nat → Bool) (n o e : Nat) : Prop where
  nonempty : o < e
  inside : e ≤ n
  plain : ∀ i, o ≤ i → i < e → sep i = false
  left : o = 0 ∨ sep (o - 1) = true
  right : e = n ∨ sep e = true

def Starts (sep : Nat → Bool) (o : Nat) : Prop := sep o = false ∧ (o = 0 ∨ sep (o - 1) = true)

instance : DecidablePred (Starts sep) := fun _ => inferInstanceAs (Decidable (_ ∧ _))

theorem ends_somewhere (sep : Nat → Bool) (n o : Nat) : ∃ e, o ≤ e ∧ (n ≤ e ∨ sep e = true) :=
  ⟨max o n, Nat.le_max_left o n, Or.inl (Nat.le_max_right o n)⟩

def ending (sep : Nat → Bool) (n o : Nat) : Nat := Nat.find (ends_somewhere sep n o)

def runs (sep : Nat → Bool) (n : Nat) : List (Nat × Nat) :=
  ((List.range n).filter (Starts sep ·)).map fun o => (o, ending sep n o)

theorem Run.apart (run : Run sep n o e) (run' : Run sep n o' e') (before : o < o') : e < o' := by
  by_contra reaches
  rcases run'.left with zero | stop
  · omega
  · rw [run.plain (o' - 1) (by omega) (by omega)] at stop
    cases stop

theorem Run.unique (run : Run sep n o e) (run' : Run sep n o e') : e = e' := by
  have shorter : ∀ {e e'}, Run sep n o e → Run sep n o e' → ¬ e < e' := by
    intro e e' run run' less
    rcases run.right with all | stop
    · have := run'.inside
      omega
    · rw [run'.plain e (Nat.le_of_lt run.nonempty) less] at stop
      cases stop
  have one := shorter run run'
  have two := shorter run' run
  omega

theorem run_of_starts (starts : Starts sep o) (less : o < n) : Run sep n o (ending sep n o) := by
  obtain ⟨low, stop⟩ := Nat.find_spec (ends_somewhere sep n o)
  have before : ∀ i, o ≤ i → i < ending sep n o → i < n ∧ sep i = false := by
    intro i above below
    have goes := Nat.find_min (ends_somewhere sep n o) below
    rw [not_and_or, not_or] at goes
    rcases goes with under | ⟨inside, plain⟩
    · omega
    · exact ⟨by omega, by simpa using plain⟩
  have nonempty : o < ending sep n o := by
    rcases Nat.lt_or_eq_of_le low with less' | same
    · exact less'
    · rcases stop with past | stop
      · unfold ending
        omega
      · rw [← same, starts.1] at stop
        cases stop
  have inside : ending sep n o ≤ n := by
    have last := (before (ending sep n o - 1) (by omega) (by omega)).1
    omega
  refine ⟨nonempty, inside, fun i above below => (before i above below).2, starts.2, ?_⟩
  exact stop.imp_left fun past => Nat.le_antisymm inside past

theorem run_between (boundary : q = 0 ∨ sep (q - 1) = true) (low : q ≤ o)
    (before : ∀ i, q ≤ i → i < o → sep i = true) (less : o < n) (here : sep o = false)
    (past : o ≤ e) (inside : e ≤ n)
    (plain : ∀ i, o ≤ i → i < e → sep i = false) (right : e = n ∨ sep e = true) :
    Run sep n o e := by
  refine ⟨?_, inside, plain, ?_, right⟩
  · rcases Nat.lt_or_eq_of_le past with more | rfl
    · exact more
    · rcases right with all | stop
      · omega
      · rw [here] at stop
        cases stop
  · rcases Nat.lt_or_eq_of_le low with more | rfl
    · exact Or.inr (before (o - 1) (by omega) (by omega))
    · exact boundary

theorem mem_runs : (o, e) ∈ runs sep n ↔ Run sep n o e := by
  simp only [runs, List.mem_map, List.mem_filter, List.mem_range, decide_eq_true_eq, Prod.mk.injEq]
  constructor
  · rintro ⟨i, ⟨less, starts⟩, rfl, rfl⟩
    exact run_of_starts starts less
  · intro run
    have less : o < n := Nat.lt_of_lt_of_le run.nonempty run.inside
    have starts : Starts sep o := ⟨run.plain o (Nat.le_refl o) run.nonempty, run.left⟩
    exact ⟨o, ⟨less, starts⟩, rfl, (run_of_starts starts less).unique run⟩

theorem runs_sorted (sep : Nat → Bool) (n : Nat) :
    (runs sep n).Pairwise fun r r' => r.2 < r'.1 := by
  rw [runs, List.pairwise_map]
  apply List.Pairwise.imp_of_mem _ (List.pairwise_lt_range.filter _)
  intro i j first second less
  have run : ∀ o ∈ (List.range n).filter (Starts sep ·), Run sep n o (ending sep n o) :=
      fun o member =>
    mem_runs.mp (List.mem_map_of_mem member)
  exact (run i first).apart (run j second) less

theorem runs_next (left : ∀ o e, (o, e) ∈ (runs sep n).drop k ↔ Run sep n o e ∧ q ≤ o)
    (run : Run sep n o e)
    (low : q ≤ o) (before : ∀ i, q ≤ i → i < o → sep i = true) :
    (runs sep n)[k]? = some (o, e) ∧ ∀ o' e', (o', e') ∈ (runs sep n).drop (k + 1) ↔
    Run sep n o' e' ∧ e + 1 ≤ o' := by
  have sorted : ((runs sep n).drop k).Pairwise fun r r' => r.2 < r'.1 := (runs_sorted sep n).drop
  rw [← List.head?_drop, ← List.tail_drop]
  cases here : (runs sep n).drop k with
  | nil =>
    have member := (left o e).mpr ⟨run, low⟩
    rw [here] at member
    cases member
  | cons r rs =>
    rw [here] at sorted left
    obtain ⟨behind, -⟩ := List.pairwise_cons.mp sorted
    obtain ⟨first, above⟩ := (left r.1 r.2).mp List.mem_cons_self
    have same : (o, e) = r := by
      rcases List.mem_cons.mp ((left o e).mpr ⟨run, low⟩) with same | later
      · exact same
      · have less := behind _ later
        have stop := before r.1 above (Nat.lt_trans first.nonempty less)
        rw [first.plain r.1 (Nat.le_refl _) first.nonempty] at stop
        cases stop
    subst same
    refine ⟨rfl, ?_⟩
    intro o' e'
    constructor
    · exact fun later => ⟨((left o' e').mp (List.mem_cons_of_mem _ later)).1, behind _ later⟩
    · rintro ⟨run', past⟩
      have less := run.nonempty
      rcases List.mem_cons.mp ((left o' e').mpr ⟨run', by omega⟩) with same | later
      · rw [Prod.mk.injEq] at same
        omega
      · exact later

end MaximalRuns
