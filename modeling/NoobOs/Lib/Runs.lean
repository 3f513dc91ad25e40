import Mathlib.Logic.Basic

/- Runs of a machine whose step may fail to return. An environment promises to
   issue only legal requests; a run is any finite sequence of returned steps. -/
namespace Runs

structure Machine (State Request : Type) where
  legal : State → Request → Prop
  step : State → Request → Option State

variable {State Request : Type} {m : Machine State Request}

inductive Run (m : Machine State Request) : State → List Request → State → Prop where
  | nil (s : State) : Run m s [] s
  | cons {s t u : State} {r : Request} {rs : List Request} (ok : m.legal s r)
      (stepped : m.step s r = some t) (tail : Run m t rs u) : Run m s (r :: rs) u

def Reach (m : Machine State Request) (start s : State) : Prop := ∃ rs, Run m start rs s

theorem run_append {s t u : State} {rs qs : List Request} (first : Run m s rs t)
    (second : Run m t qs u) : Run m s (rs ++ qs) u := by
  induction first with
  | nil s => exact second
  | cons ok stepped tail ih => exact Run.cons ok stepped (ih second)

theorem run_split {s u : State} {rs qs : List Request} (run : Run m s (rs ++ qs) u) :
    ∃ t, Run m s rs t ∧ Run m t qs u := by
  induction rs generalizing s with
  | nil => exact ⟨s, Run.nil s, run⟩
  | cons r rs ih =>
    obtain ⟨⟩ | ⟨ok, stepped, tail⟩ := run
    obtain ⟨t, first, second⟩ := ih tail
    exact ⟨t, Run.cons ok stepped first, second⟩

theorem run_unique {s t t' : State} {rs : List Request} (run : Run m s rs t)
    (run' : Run m s rs t') :
    t = t' := by
  induction run with
  | nil s =>
    obtain ⟨⟩ := run'
    rfl
  | cons ok stepped tail ih =>
    obtain ⟨⟩ | ⟨_, stepped', tail'⟩ := run'
    obtain rfl := Option.some.inj (stepped.symm.trans stepped')
    exact ih tail'

theorem run_last {s u : State} {rs : List Request} {r : Request} (run : Run m s (rs ++ [r]) u) :
    ∃ t, Run m s rs t ∧ m.legal t r ∧ m.step t r = some u := by
  obtain ⟨t, first, second⟩ := run_split run
  obtain ⟨⟩ | ⟨ok, stepped, ⟨⟩⟩ := second
  exact ⟨t, first, ok, stepped⟩

theorem reach_run {start s t : State} {rs : List Request} (reach : Reach m start s)
    (run : Run m s rs t) : Reach m start t := by
  obtain ⟨qs, before⟩ := reach
  exact ⟨qs ++ rs, run_append before run⟩

theorem reach_step {start s t : State} {r : Request} (reach : Reach m start s)
    (ok : m.legal s r) (stepped : m.step s r = some t) : Reach m start t :=
  reach_run reach (Run.cons ok stepped (Run.nil t))

/-- What every returned legal step keeps holds at the end of every run. -/
theorem run_invariant (inv : State → Prop)
    (keeps : ∀ s r t, inv s → m.legal s r → m.step s r = some t → inv t)
    {s t : State} {rs : List Request} (run : Run m s rs t) (start : inv s) : inv t := by
  induction run with
  | nil s => exact start
  | cons ok stepped tail ih => exact ih (keeps _ _ _ start ok stepped)

theorem reach_invariant (inv : State → Prop) {start s : State} (initial : inv start)
    (keeps : ∀ s r t, inv s → m.legal s r → m.step s r = some t → inv t)
    (reach : Reach m start s) : inv s := by
  obtain ⟨rs, run⟩ := reach
  exact run_invariant inv keeps run initial

end Runs
