import Mathlib.Data.Finset.Card
import Mathlib.Data.List.Nodup

/- The states a deterministic step visits until it has none to go to. A path that ends
   repeats no state, so the number of states bounds its length. -/
namespace Orbits

variable {α : Type} {next : α → Option α} {a b : α} {as bs : List α}

inductive Path (next : α → Option α) : α → List α → Prop where
  | stop {a : α} (halt : next a = none) : Path next a [a]
  | step {a b : α} {as : List α} (go : next a = some b) (rest : Path next b as) :
    Path next a (a :: as)

theorem Path.deterministic (left : Path next a as) (right : Path next a bs) : as = bs := by
  induction left generalizing bs with
  | stop halt =>
    cases right with
    | stop halt' => rfl
    | step go rest =>
      rw [halt] at go
      cases go
  | step go rest ih =>
    cases right with
    | stop halt =>
      rw [halt] at go
      cases go
    | step go' rest' =>
      rw [go, Option.some.injEq] at go'
      subst go'
      rw [ih rest']

theorem Path.from_mem (path : Path next a as) (member : b ∈ as) :
    ∃ bs, Path next b bs ∧ bs.length ≤ as.length := by
  induction path with
  | @stop a halt =>
    obtain rfl := List.mem_singleton.mp member
    exact ⟨[b], Path.stop halt, Nat.le_refl _⟩
  | @step a c as go rest ih =>
    rcases List.mem_cons.mp member with rfl | later
    · exact ⟨b :: as, Path.step go rest, Nat.le_refl _⟩
    · obtain ⟨bs, onward, shorter⟩ := ih later
      exact ⟨bs, onward, Nat.le_succ_of_le shorter⟩

theorem Path.nodup (path : Path next a as) : as.Nodup := by
  induction path with
  | stop halt => exact List.nodup_singleton _
  | @step a c as go rest ih =>
    refine List.nodup_cons.mpr ⟨fun again => ?_, ih⟩
    obtain ⟨bs, onward, shorter⟩ := rest.from_mem again
    have same := onward.deterministic (Path.step go rest)
    rw [same, List.length_cons] at shorter
    omega

theorem Path.forall_mem {good : α → Prop} (path : Path next a as) (first : good a)
    (gives : ∀ a b, next a = some b → good b) : ∀ b ∈ as, good b := by
  induction path with
  | stop halt =>
    intro b member
    obtain rfl := List.mem_singleton.mp member
    exact first
  | @step a c as go rest ih =>
    intro b member
    rcases List.mem_cons.mp member with rfl | later
    · exact first
    · exact ih (gives a c go) b later

theorem Path.length_le (path : Path next a as) {states : Finset α} (inside : ∀ b ∈ as, b ∈ states) :
    as.length ≤ states.card := by
  classical
  rw [← List.toFinset_card_of_nodup path.nodup]
  exact Finset.card_le_card fun b member => inside b (List.mem_toFinset.mp member)

end Orbits
