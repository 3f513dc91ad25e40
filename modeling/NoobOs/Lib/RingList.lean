import Mathlib.Logic.Function.Basic
import Mathlib.Data.List.Nodup

/- Circular doubly linked cells. A ring is a head cell and the distinct cells met
   from it before it comes round again, linked both ways. A null link is `none`. -/
namespace RingList
variable {α : Type}

structure Links (α : Type) where
  next : α → Option α
  prev : α → Option α

def Links.setNext [DecidableEq α] (l : Links α) (a : α) (v : Option α) : Links α :=
  { l with next := Function.update l.next a v }

def Links.setPrev [DecidableEq α] (l : Links α) (a : α) (v : Option α) : Links α :=
  { l with prev := Function.update l.prev a v }

/-- From `a` through `xs` to `b`, each link has its return link. -/
def Linked (l : Links α) : α → List α → α → Prop
  | a, [], b => l.next a = some b ∧ l.prev b = some a
  | a, x :: xs, b => l.next a = some x ∧ l.prev x = some a ∧ Linked l x xs b

structure Ring (l : Links α) (head : α) (xs : List α) : Prop where
  distinct : (head :: xs).Nodup
  linked : Linked l head xs head

theorem linked_append {l : Links α} {a b y : α} {xs ys : List α} :
    Linked l a (xs ++ y :: ys) b ↔ Linked l a xs y ∧ Linked l y ys b := by
  induction xs generalizing a with
  | nil => simp [Linked, and_assoc]
  | cons x xs ih => simp [Linked, ih, and_assoc]

theorem linked_congr {l l' : Links α} {a b : α} {xs : List α} (linked : Linked l a xs b)
    (onNext : ∀ c, c = a ∨ c ∈ xs → l'.next c = l.next c)
    (onPrev : ∀ c, c = b ∨ c ∈ xs → l'.prev c = l.prev c) : Linked l' a xs b := by
  induction xs generalizing a with
  | nil =>
    obtain ⟨forward, back⟩ := linked
    exact ⟨(onNext a (Or.inl rfl)).trans forward, (onPrev b (Or.inl rfl)).trans back⟩
  | cons x xs ih =>
    obtain ⟨forward, back, tail⟩ := linked
    refine ⟨(onNext a (Or.inl rfl)).trans forward, ?_, ih tail ?_ ?_⟩
    · exact (onPrev x (Or.inr List.mem_cons_self)).trans back
    · intro c member
      apply onNext c
      cases member with
      | inl here => exact Or.inr (here ▸ List.mem_cons_self)
      | inr later => exact Or.inr (List.mem_cons_of_mem _ later)
    · intro c member
      apply onPrev c
      cases member with
      | inl here => exact Or.inl here
      | inr later => exact Or.inr (List.mem_cons_of_mem _ later)

theorem linked_first {l : Links α} {a b : α} {xs : List α} (linked : Linked l a xs b) :
    ∃ n, (n = b ∨ n ∈ xs) ∧ l.next a = some n := by
  cases xs with
  | nil => exact ⟨b, Or.inl rfl, linked.1⟩
  | cons x xs => exact ⟨x, Or.inr List.mem_cons_self, linked.1⟩

theorem linked_last {l : Links α} {a b : α} {xs : List α} (linked : Linked l a xs b) :
    ∃ p ∈ a :: xs, l.prev b = some p := by
  induction xs generalizing a with
  | nil => exact ⟨a, List.mem_cons_self, linked.2⟩
  | cons x xs ih =>
    obtain ⟨p, member, link⟩ := ih linked.2.2
    exact ⟨p, List.mem_cons_of_mem _ member, link⟩

theorem linked_insert {l l' : Links α} {a b x n : α} {xs : List α} (linked : Linked l a xs b)
    (first : l.next a = some n) (distinct : (a :: xs).Nodup) (outside : b ∉ xs)
    (fresh : x ∉ a :: xs) (fresh' : x ≠ b)
    (here : l'.next x = some n ∧ l'.prev x = some a)
    (hooked : l'.next a = some x ∧ l'.prev n = some x)
    (sameNext : ∀ c, c ≠ x → c ≠ a → l'.next c = l.next c)
    (samePrev : ∀ c, c ≠ x → c ≠ n → l'.prev c = l.prev c) : Linked l' a (x :: xs) b := by
  refine ⟨hooked.1, here.2, ?_⟩
  cases xs with
  | nil =>
    obtain rfl : b = n := Option.some.inj (linked.1.symm.trans first)
    exact ⟨here.1, hooked.2⟩
  | cons y ys =>
    obtain rfl : y = n := Option.some.inj (linked.1.symm.trans first)
    refine ⟨here.1, hooked.2, linked_congr linked.2.2 ?_ ?_⟩
    · intro c member
      apply sameNext c
      · rintro rfl
        simp_all
      · rintro rfl
        simp_all
    · intro c member
      apply samePrev c
      · rintro rfl
        simp_all
      · rintro rfl
        simp_all

/-- Unhook `x`: its neighbours `p` and `n` are joined. Induction on the cells
    before it; the join happens at the last of them. -/
theorem linked_remove {l l' : Links α} {a b x p n : α} {xs ys : List α}
    (front : Linked l a xs x) (back : Linked l x ys b)
    (before : l.prev x = some p) (after : l.next x = some n)
    (distinct : (a :: (xs ++ x :: ys)).Nodup) (outside : b ∉ xs ++ x :: ys)
    (joined : l'.next p = some n ∧ l'.prev n = some p)
    (sameNext : ∀ c, c ≠ x → c ≠ p → l'.next c = l.next c)
    (samePrev : ∀ c, c ≠ x → c ≠ n → l'.prev c = l.prev c) : Linked l' a (xs ++ ys) b := by
  induction xs generalizing a with
  | nil =>
    obtain rfl : a = p := Option.some.inj (front.2.symm.trans before)
    cases ys with
    | nil =>
      obtain rfl : b = n := Option.some.inj (back.1.symm.trans after)
      exact joined
    | cons y ys =>
      obtain rfl : y = n := Option.some.inj (back.1.symm.trans after)
      refine ⟨joined.1, joined.2, linked_congr back.2.2 ?_ ?_⟩
      · intro c member
        apply sameNext c
        · rintro rfl
          simp_all
        · rintro rfl
          simp_all
      · intro c member
        apply samePrev c
        · rintro rfl
          simp_all
        · rintro rfl
          simp_all
  | cons z zs ih =>
    obtain ⟨forward, link, tail⟩ := front
    have later : (z :: (zs ++ x :: ys)).Nodup := (List.nodup_cons.mp distinct).2
    have rest := ih tail later (fun member => outside (List.mem_cons_of_mem _ member))
    refine ⟨?_, ?_, rest⟩
    · rw [← forward]
      apply sameNext a
      · rintro rfl
        simp at distinct
      · -- the cell before `x` is `z` or later, never `a`
        obtain ⟨q, member, link'⟩ := linked_last tail
        obtain rfl : q = p := Option.some.inj (link'.symm.trans before)
        rintro rfl
        apply (List.nodup_cons.mp distinct).1
        exact List.mem_append_left _ member
    · rw [← link]
      apply samePrev z
      · rintro rfl
        simp at later
      · obtain ⟨m, member, link'⟩ := linked_first back
        obtain rfl : m = n := Option.some.inj (link'.symm.trans after)
        rintro rfl
        cases member with
        | inl last => exact outside (last ▸ List.mem_cons_self)
        | inr member => exact (List.nodup_cons.mp later).1 (by simp [member])

theorem Ring.congr {l l' : Links α} {head : α} {xs : List α} (ring : Ring l head xs)
    (same : ∀ c ∈ head :: xs, l'.next c = l.next c ∧ l'.prev c = l.prev c) : Ring l' head xs := by
  refine ⟨ring.distinct, linked_congr ring.linked ?_ ?_⟩
  · intro c place
    apply (same c _).1
    cases place with
    | inl here => exact here ▸ List.mem_cons_self
    | inr member => exact List.mem_cons_of_mem _ member
  · intro c place
    apply (same c _).2
    cases place with
    | inl here => exact here ▸ List.mem_cons_self
    | inr member => exact List.mem_cons_of_mem _ member

/-- The same cells met the other way round. -/
def Links.mirror (l : Links α) : Links α := ⟨l.prev, l.next⟩

theorem linked_mirror {l : Links α} {a b : α} {xs : List α} (linked : Linked l a xs b) :
    Linked l.mirror b xs.reverse a := by
  induction xs generalizing a with
  | nil => exact ⟨linked.2, linked.1⟩
  | cons x xs ih =>
    obtain ⟨forward, back, tail⟩ := linked
    rw [List.reverse_cons]
    exact linked_append.mpr ⟨ih tail, back, forward⟩

theorem Ring.mirror {l : Links α} {head : α} {xs : List α} (ring : Ring l head xs) :
    Ring l.mirror head xs.reverse := by
  refine ⟨?_, linked_mirror ring.linked⟩
  obtain ⟨outside, nodup⟩ := List.nodup_cons.mp ring.distinct
  exact List.nodup_cons.mpr ⟨fun member => outside (List.mem_reverse.mp member),
    List.nodup_reverse.mpr nodup⟩

end RingList
