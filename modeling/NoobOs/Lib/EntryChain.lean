import Mathlib.Logic.Basic
import Mathlib.Tactic.Common

/- A walk over entries that say where the next one is. `more` tells whether an entry is there,
   `next` may fail, and so may the visit of an entry, which changes a state. -/
namespace EntryChain
variable {σ : Type} {more : Nat → Prop} [DecidablePred more]
  {next : Nat → Option Nat} {visit : Nat → σ → Option σ}

/-- The state at the end, and where the walk ended; `none` is also a walk that goes on too long. -/
def walk (more : Nat → Prop) [DecidablePred more] (next : Nat → Option Nat)
    (visit : Nat → σ → Option σ) :
    Nat → Nat → σ → Option (σ × Nat)
  | 0, _, _ => none
  | fuel + 1, p, s =>
    if more p then do
      let s ← visit p s
      let q ← next p
      walk more next visit fuel q s
    else some (s, p)

inductive Visited (more : Nat → Prop) (next : Nat → Option Nat) : Nat → Nat → Prop where
  | here {p : Nat} (entry : more p) : Visited more next p p
  | later {p q r : Nat} (entry : more p)
      (link : next p = some q) (visited : Visited more next q r) :
    Visited more next p r

/-- The links lead through just these entries. -/
def Chain (more : Nat → Prop) (next : Nat → Option Nat) : Nat → List Nat → Nat → Prop
  | p, [], e => p = e
  | p, q :: qs, e => p = q ∧ more p ∧ ∃ r, next p = some r ∧ Chain more next r qs e

theorem walk_turn {fuel p q : Nat} {s s' : σ} (entry : more p) (visited : visit p s = some s')
    (link : next p = some q) :
    walk more next visit (fuel + 1) p s = walk more next visit fuel q s' := by
  rw [walk, if_pos entry, visited, Option.bind_eq_bind, Option.bind_some, link]
  rfl

theorem walk_stuck {p : Nat} (entry : more p) (link : next p = some p) (fuel : Nat) (s : σ) :
    walk more next visit fuel p s = none := by
  induction fuel generalizing s with
  | zero => rfl
  | succ fuel ih =>
    cases visited : visit p s with
    | none =>
      rw [walk, if_pos entry, visited]
      rfl
    | some s' => rw [walk_turn entry visited link, ih]

theorem walk_turned {fuel p : Nat} {s : σ} {r : σ × Nat} (entry : more p)
    (walked : walk more next visit fuel p s = some r) :
    ∃ n s' q, visit p s = some s' ∧ next p = some q ∧ walk more next visit n q s' = some r := by
  cases fuel with
  | zero => cases walked
  | succ fuel =>
    rw [walk, if_pos entry] at walked
    obtain ⟨s', visited, rest⟩ := Option.bind_eq_some_iff.mp walked
    obtain ⟨q, link, rest'⟩ := Option.bind_eq_some_iff.mp rest
    exact ⟨fuel, s', q, visited, link, rest'⟩

theorem walk_met {fuel p q : Nat} {s : σ} {r : σ × Nat}
    (walked : walk more next visit fuel p s = some r)
    (met : Visited more next p q) :
    (∃ s s', visit q s = some s') ∧ ∃ q', next q = some q' ∧ q' ≠ q := by
  induction met generalizing fuel s with
  | here entry =>
    obtain ⟨n, s', q', visited, link, rest⟩ := walk_turned entry walked
    refine ⟨⟨s, s', visited⟩, q', link, ?_⟩
    rintro rfl
    rw [walk_stuck entry link] at rest
    cases rest
  | later entry link visited ih =>
    obtain ⟨n, s', q', -, link', rest⟩ := walk_turned entry walked
    rw [link, Option.some.injEq] at link'
    exact ih (link' ▸ rest)

theorem walk_mono {n k p : Nat} {s : σ} {r : σ × Nat} (more' : n ≤ k)
    (walked : walk more next visit n p s = some r) :
    walk more next visit k p s = some r := by
  induction n generalizing k p s with
  | zero => cases walked
  | succ n ih =>
    obtain ⟨k, rfl⟩ :=
      Nat.exists_eq_succ_of_ne_zero (Nat.ne_of_gt (Nat.lt_of_lt_of_le (Nat.succ_pos n) more'))
    rw [walk] at walked ⊢
    by_cases entry : more p
    · rw [if_pos entry] at walked ⊢
      obtain ⟨s', visited, rest⟩ := Option.bind_eq_some_iff.mp walked
      obtain ⟨q, link, rest'⟩ := Option.bind_eq_some_iff.mp rest
      rw [visited, Option.bind_eq_bind, Option.bind_some, link]
      exact ih (Nat.le_of_succ_le_succ more') rest'
    · rw [if_neg entry] at walked ⊢
      exact walked

theorem walk_ends {bound p : Nat} (bounded : ∀ q, more q → q < bound)
    (good : ∀ q, Visited more next p q → (∀ s, ∃ s', visit q s = some s') ∧
    ∃ q', next q = some q' ∧ q < q')
    (fuel : Nat) (enough : bound < fuel + p) (s : σ) (some' : 0 < fuel) :
    ∃ r, walk more next visit fuel p s = some r := by
  induction fuel generalizing p s with
  | zero => omega
  | succ fuel ih =>
    by_cases entry : more p
    · obtain ⟨defined, q, link, onward⟩ := good p (Visited.here entry)
      obtain ⟨s', visited⟩ := defined s
      rw [walk_turn entry visited link]
      have inside := bounded p entry
      exact ih (fun r met => good r (Visited.later entry link met)) (by omega) s' (by omega)
    · exact ⟨(s, p), if_neg entry⟩

/-- Along a chain the walk makes just its visits. -/
theorem walk_chain {p e : Nat} {ps : List Nat} (chain : Chain more next p ps e)
    (ends : ¬ more e) {fuel : Nat}
    (enough : ps.length < fuel) (s : σ) :
    walk more next visit fuel p s = (ps.foldlM (fun s p => visit p s) s).map fun s => (s, e) := by
  induction ps generalizing p fuel s with
  | nil =>
    obtain ⟨fuel, rfl⟩ := Nat.exists_eq_succ_of_ne_zero (Nat.ne_of_gt enough)
    obtain rfl : p = e := chain
    rw [walk, if_neg ends]
    rfl
  | cons q qs ih =>
    obtain ⟨fuel, rfl⟩ := Nat.exists_eq_succ_of_ne_zero (Nat.ne_of_gt (Nat.zero_lt_of_lt enough))
    obtain ⟨rfl, entry, r, link, rest⟩ := chain
    rw [List.foldlM_cons]
    cases visited : visit p s with
    | none =>
      rw [walk, if_pos entry, visited]
      rfl
    | some s' =>
      rw [walk_turn entry visited link, ih rest (by simpa using enough)]
      rfl

end EntryChain
