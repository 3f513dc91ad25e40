import Mathlib.Data.List.Sort

/- Null-terminated chains through a `next` map, with 0 as the null pointer.
   The map is any function of the node's address: a word of memory, a field. -/
namespace LinkedChain

inductive Chain (next : Nat → Nat) : Nat → List Nat → Prop where
  | nil : Chain next 0 []
  | cons {p : Nat} {xs : List Nat} (real : p ≠ 0) (rest : Chain next (next p) xs) :
      Chain next p (p :: xs)

/-- Read a chain off the map; `none` when `fuel` nodes do not reach the null pointer. -/
def walk (next : Nat → Nat) : Nat → Nat → Option (List Nat)
  | 0, _ => none
  | fuel + 1, p => if p = 0 then some [] else (walk next fuel (next p)).map (p :: ·)

/-- The cell that holds the pointer to the first node where `stop` answers true
    (or the final null): the starting cell, or the `next` cell of a node. -/
def cellBefore (stop : Nat → Bool) : Option Nat → List Nat → Option Nat
  | cur, [] => cur
  | cur, y :: ys => if stop y then cur else cellBefore stop (some y) ys

theorem chain_head {next : Nat → Nat} {p : Nat} {xs : List Nat} (chain : Chain next p xs) :
    p = xs.headD 0 := by
  cases chain <;> rfl

theorem chain_null_iff {next : Nat → Nat} {p : Nat} {xs : List Nat} (chain : Chain next p xs) :
    p = 0 ↔ xs = [] := by
  cases chain with
  | nil => simp
  | cons real rest => simp [real]

theorem chain_uncons {next : Nat → Nat} {p x : Nat} {xs : List Nat}
    (chain : Chain next p (x :: xs)) : p = x ∧ x ≠ 0 ∧ Chain next (next x) xs := by
  cases chain with
  | cons real rest => exact ⟨rfl, real, rest⟩

theorem chain_next {next : Nat → Nat} {p y : Nat} {xs : List Nat} (chain : Chain next p xs)
    (member : y ∈ xs) :
    next y ∈ xs ∨ next y = 0 := by
  induction chain with
  | nil => exact absurd member List.not_mem_nil
  | @cons p xs real rest ih =>
    rcases List.mem_cons.mp member with rfl | later
    · have head := chain_head rest
      cases xs with
      | nil => exact Or.inr head
      | cons x xs =>
        rw [head, List.headD_cons]
        exact Or.inl (List.mem_cons_of_mem _ List.mem_cons_self)
    · exact (ih later).imp_left (List.mem_cons_of_mem _)

theorem chain_deterministic {next : Nat → Nat} {p : Nat} {xs ys : List Nat}
    (left : Chain next p xs) (right : Chain next p ys) : xs = ys := by
  induction left generalizing ys with
  | nil =>
    cases right with
    | nil => rfl
    | cons real rest => exact absurd rfl real
  | @cons p xs real rest ih =>
    cases right with
    | nil => exact absurd rfl real
    | cons real' rest' => rw [ih rest']

theorem chain_suffix {next : Nat → Nat} {p : Nat} {xs ys : List Nat}
    (chain : Chain next p (xs ++ ys)) : Chain next (ys.headD 0) ys := by
  induction xs generalizing p with
  | nil =>
    have chain' : Chain next p ys := chain
    rw [← chain_head chain']
    exact chain'
  | cons x xs ih =>
    cases chain with
    | cons real rest => exact ih rest

/-- A node cannot occur twice: its two suffixes would be the same list. -/
theorem chain_nodup {next : Nat → Nat} {p : Nat} {xs : List Nat} (chain : Chain next p xs) :
    xs.Nodup := by
  induction chain with
  | nil => exact List.nodup_nil
  | @cons p xs real rest ih =>
    refine List.nodup_cons.mpr ⟨?_, ih⟩
    intro again
    obtain ⟨before, after, split⟩ := List.append_of_mem again
    have tail : Chain next p (p :: after) := by
      have suffix := chain_suffix (split ▸ rest)
      simpa using suffix
    have whole : Chain next p (p :: xs) := Chain.cons real rest
    have same := chain_deterministic whole tail
    have lengths := congrArg List.length same
    rw [split] at lengths
    simp at lengths
    omega

theorem chain_congr {next next' : Nat → Nat} {p : Nat} {xs : List Nat}
    (chain : Chain next p xs) (agree : ∀ x ∈ xs, next' x = next x) : Chain next' p xs := by
  induction chain with
  | nil => exact Chain.nil
  | @cons p xs real rest ih =>
    refine Chain.cons real ?_
    rw [agree p (by simp)]
    exact ih fun x member => agree x (by simp [member])

theorem walk_of_chain {next : Nat → Nat} {p : Nat} {xs : List Nat} (chain : Chain next p xs) :
    ∀ fuel, xs.length < fuel → walk next fuel p = some xs := by
  induction chain with
  | nil =>
    intro fuel enough
    obtain ⟨n, rfl⟩ : ∃ n, fuel = n + 1 := ⟨fuel - 1, by omega⟩
    rfl
  | @cons p xs real rest ih =>
    intro fuel enough
    simp only [List.length_cons] at enough
    obtain ⟨n, rfl⟩ : ∃ n, fuel = n + 1 := ⟨fuel - 1, by omega⟩
    simp [walk, real, ih n (by omega)]

theorem cellBefore_mem (stop : Nat → Bool) (cur : Option Nat) (ys : List Nat) :
    cellBefore stop cur ys = cur ∨
      ∃ y ∈ ys.takeWhile (fun y => !stop y), cellBefore stop cur ys = some y := by
  induction ys generalizing cur with
  | nil => exact Or.inl rfl
  | cons y ys ih =>
    by_cases here : stop y
    · exact Or.inl (by simp [cellBefore, here])
    · simp only [cellBefore, here]
      rcases ih (some y) with same | ⟨z, member, eq⟩
      · exact Or.inr ⟨y, by simp [here], by simpa using same⟩
      · exact Or.inr ⟨z, by simp [here, member], by simpa using eq⟩

theorem chain_splice {next next' : Nat → Nat} {stop : Nat → Bool} {q : Nat} {zs : List Nat} :
    ∀ (ys : List Nat) (cur : Option Nat) (p : Nat), Chain next p ys → ys.Nodup →
      (∀ c ∈ ys, cur ≠ some c) →
      (∀ y ∈ ys.takeWhile (fun y => !stop y),
        next' y = if cellBefore stop cur ys = some y then q else next y) →
      Chain next' q zs →
      Chain next' (if cellBefore stop cur ys = cur then q else p)
        (ys.takeWhile (fun y => !stop y) ++ zs) := by
  intro ys
  induction ys with
  | nil =>
    intro cur p _ _ _ _ tail
    simpa [cellBefore] using tail
  | cons y ys ih =>
    intro cur p chain nodup fresh agree tail
    by_cases here : stop y
    · simpa [cellBefore, here] using tail
    · obtain ⟨notin, nodup'⟩ := List.nodup_cons.mp nodup
      have cell : cellBefore stop cur (y :: ys) = cellBefore stop (some y) ys := by
        simp [cellBefore, here]
      have moved : cellBefore stop (some y) ys ≠ cur := by
        rcases cellBefore_mem stop (some y) ys with same | ⟨z, member, same⟩
        · rw [same]; exact (fresh y (by simp)).symm
        · rw [same]
          exact (fresh z (by simp [(List.takeWhile_sublist _).subset member])).symm
      cases chain with
      | cons real rest =>
        rw [cell] at agree ⊢
        simp only [here, Bool.not_false, List.takeWhile_cons_of_pos, List.mem_cons,
          if_neg moved, List.cons_append] at agree ⊢
        refine Chain.cons real ?_
        rw [agree y (Or.inl rfl)]
        refine ih (some y) (next y) rest nodup' ?_ (fun z member => agree z (Or.inr member)) tail
        intro c member same
        exact notin (Option.some.inj same ▸ member)

theorem erase_eq_takeWhile (t : Nat) (ys : List Nat) :
    ys.erase t = ys.takeWhile (fun y => !decide (y = t)) ++
      (ys.dropWhile (fun y => !decide (y = t))).tail := by
  induction ys with
  | nil => rfl
  | cons y ys ih =>
    by_cases same : y = t
    · simp [same]
    · simp [same, ih]

theorem dropWhile_at_target {t : Nat} {ys : List Nat} (member : t ∈ ys) :
    ∃ after, ys.dropWhile (fun y => !decide (y = t)) = t :: after := by
  induction ys with
  | nil => simp at member
  | cons y ys ih =>
    by_cases same : y = t
    · exact ⟨ys, by simp [same]⟩
    · rcases List.mem_cons.mp member with first | later
      · exact absurd first.symm same
      · simpa [same] using ih later

end LinkedChain
