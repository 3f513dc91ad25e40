import Mathlib.Logic.Function.Basic
import Mathlib.Data.List.Nodup

/- Singly linked chains in which every node also records which slot points at it:
   the head of its chain or the `next` word of the node before. -/
namespace HookedChain

inductive Slot (η α : Type) where
  | first (h : η)
  | next (n : α)
  deriving DecidableEq

structure Chains (η α : Type) where
  first : η → Option α
  next : α → Option α
  pprev : α → Option (Slot η α)

section Hooked
variable {η α : Type} {c c' : Chains η α}

def Chains.get (c : Chains η α) : Slot η α → Option α
  | .first h => c.first h
  | .next n => c.next n

/-- The nodes `xs` hang off the slot `s`, each recording the slot that points at it. -/
def Hooked (c : Chains η α) : Slot η α → List α → Prop
  | s, [] => c.get s = none
  | s, x :: xs => c.get s = some x ∧ c.pprev x = some s ∧ Hooked c (.next x) xs

/-- Every chain of a table, with no node on two of them. -/
structure Table (c : Chains η α) (chains : η → List α) : Prop where
  hooked : ∀ h, Hooked c (.first h) (chains h)
  nodup : ∀ h, (chains h).Nodup
  apart : ∀ h k x, x ∈ chains h → x ∈ chains k → h = k

theorem hooked_congr {s : Slot η α} {xs : List α} (hooked : Hooked c s xs)
    (start : c'.get s = c.get s) (onNext : ∀ x ∈ xs, c'.get (.next x) = c.get (.next x))
    (onPprev : ∀ x ∈ xs, c'.pprev x = c.pprev x) : Hooked c' s xs := by
  induction xs generalizing s with
  | nil => exact start.trans hooked
  | cons x xs ih =>
    obtain ⟨head, back, tail⟩ := hooked
    refine ⟨start.trans head, (onPprev x List.mem_cons_self).trans back, ih tail ?_ ?_ ?_⟩
    · exact onNext x List.mem_cons_self
    · exact fun y member => onNext y (List.mem_cons_of_mem _ member)
    · exact fun y member => onPprev y (List.mem_cons_of_mem _ member)

theorem hooked_slot {s : Slot η α} {x : α} {xs ys : List α} (hooked : Hooked c s (xs ++ x :: ys)) :
    ∃ q, c.pprev x = some q ∧ (q = s ∧ xs = [] ∨ ∃ w ∈ xs, q = .next w) := by
  induction xs generalizing s with
  | nil => exact ⟨s, hooked.2.1, Or.inl ⟨rfl, rfl⟩⟩
  | cons z zs ih =>
    obtain ⟨q, back, place⟩ := ih hooked.2.2
    refine ⟨q, back, Or.inr ?_⟩
    rcases place with ⟨here, _⟩ | ⟨w, member, here⟩
    · exact ⟨z, List.mem_cons_self, here⟩
    · exact ⟨w, List.mem_cons_of_mem _ member, here⟩

theorem hooked_tail {s : Slot η α} {x : α} {xs ys : List α} (hooked : Hooked c s (xs ++ x :: ys)) :
    Hooked c (.next x) ys := by
  induction xs generalizing s with
  | nil => exact hooked.2.2
  | cons z zs ih => exact ih hooked.2.2

theorem hooked_head {s : Slot η α} {x : α} {xs : List α} (hooked : Hooked c s xs)
    (head : c.get s = some x) : ∃ ys, xs = x :: ys := by
  cases xs with
  | nil => simp [Hooked, head] at hooked
  | cons y ys =>
    obtain rfl : y = x := Option.some.inj (hooked.1.symm.trans head)
    exact ⟨ys, rfl⟩

theorem hooked_add {s : Slot η α} {x : α} {xs : List α} (hooked : Hooked c s xs) (nodup : xs.Nodup)
    (fresh : x ∉ xs)
    (head : c'.get s = some x) (next : c'.get (.next x) = c.get s) (slot : c'.pprev x = some s)
    (rehook : ∀ y, c.get s = some y → c'.pprev y = some (.next x))
    (sameNext : ∀ y ∈ xs, c'.get (.next y) = c.get (.next y))
    (samePprev : ∀ y, y ≠ x → c.get s ≠ some y → c'.pprev y = c.pprev y) :
    Hooked c' s (x :: xs) := by
  refine ⟨head, slot, ?_⟩
  cases xs with
  | nil => exact next.trans hooked
  | cons y ys =>
    obtain ⟨first, _, tail⟩ := hooked
    refine ⟨next.trans first, rehook y first, hooked_congr tail ?_ ?_ ?_⟩
    · exact sameNext y List.mem_cons_self
    · exact fun z member => sameNext z (List.mem_cons_of_mem _ member)
    · intro z member
      apply samePprev z
      · rintro rfl
        exact fresh (List.mem_cons_of_mem _ member)
      · intro also
        obtain rfl : y = z := Option.some.inj (first.symm.trans also)
        exact (List.nodup_cons.mp nodup).1 member

theorem hooked_append {s : Slot η α} {w x : α} {xs : List α} (hooked : Hooked c s (xs ++ [w]))
    (nodup : (xs ++ [w]).Nodup) (outside : s ≠ .next w) (hook : c'.get (.next w) = some x)
    (slot : c'.pprev x = some (.next w)) (last : c'.get (.next x) = none)
    (start : c'.get s = c.get s) (sameNext : ∀ y ∈ xs, c'.get (.next y) = c.get (.next y))
    (samePprev : ∀ y ∈ xs ++ [w], c'.pprev y = c.pprev y) : Hooked c' s (xs ++ [w] ++ [x]) := by
  induction xs generalizing s with
  | nil => exact ⟨start.trans hooked.1, (samePprev w (by simp)).trans hooked.2.1, hook, slot, last⟩
  | cons z zs ih =>
    obtain ⟨head, back, tail⟩ := hooked
    obtain ⟨first, later⟩ := List.nodup_cons.mp nodup
    have other : (Slot.next z : Slot η α) ≠ .next w := by
      intro same
      cases same
      exact first (by simp)
    refine ⟨start.trans head, (samePprev z (by simp)).trans back, ih tail later other ?_ ?_ ?_⟩
    · exact sameNext z List.mem_cons_self
    · exact fun y member => sameNext y (List.mem_cons_of_mem _ member)
    · exact fun y member => samePprev y (List.mem_cons_of_mem _ member)

/-- Unhook `x`: the slot that pointed at it takes its `next`, and the node after it
    records that slot. Induction on the nodes before it. -/
theorem hooked_remove {s q : Slot η α} {x : α} {xs ys : List α}
    (hooked : Hooked c s (xs ++ x :: ys)) (nodup : (xs ++ x :: ys).Nodup)
    (outside : ∀ n ∈ xs ++ x :: ys, s ≠ .next n) (slot : c.pprev x = some q)
    (cut : c'.get q = c.get (.next x))
    (rehook : ∀ y, c.get (.next x) = some y → c'.pprev y = some q)
    (sameGet : ∀ t, t ≠ q → c'.get t = c.get t)
    (samePprev : ∀ y, c.get (.next x) ≠ some y → c'.pprev y = c.pprev y) :
    Hooked c' s (xs ++ ys) := by
  induction xs generalizing s with
  | nil =>
    obtain ⟨_, back, tail⟩ := hooked
    obtain rfl : s = q := Option.some.inj (back.symm.trans slot)
    cases ys with
    | nil => exact cut.trans tail
    | cons y ys =>
      obtain ⟨after, _, rest⟩ := tail
      refine ⟨cut.trans after, rehook y after, hooked_congr rest ?_ ?_ ?_⟩
      · exact sameGet _ (fun same => outside y (by simp) same.symm)
      · intro z member
        exact sameGet _ (fun same => outside z (by simp [member]) same.symm)
      · intro z member
        apply samePprev z
        intro same
        obtain rfl : y = z := Option.some.inj (after.symm.trans same)
        simp [member] at nodup
  | cons z zs ih =>
    obtain ⟨head, back, tail⟩ := hooked
    have later : (zs ++ x :: ys).Nodup := (List.nodup_cons.mp nodup).2
    have first : z ∉ zs ++ x :: ys := (List.nodup_cons.mp nodup).1
    have rest := ih tail later (by
      intro n member same
      cases same
      exact first member)
    obtain ⟨q', slot', place⟩ := hooked_slot tail
    obtain rfl : q' = q := Option.some.inj (slot'.symm.trans slot)
    refine ⟨?_, ?_, rest⟩
    · rw [← head]
      apply sameGet s
      rcases place with ⟨here, _⟩ | ⟨w, member, here⟩
      · exact here ▸ outside z (by simp)
      · exact here ▸ outside w (by simp [member])
    · rw [← back]
      apply samePprev z
      intro after
      -- the node after `x` comes later in the chain than `z`
      obtain ⟨ws, rfl⟩ := hooked_head (hooked_tail tail) after
      simp at first

end Hooked

section Update
variable {η α : Type} [DecidableEq η] [DecidableEq α]

def Chains.set (c : Chains η α) : Slot η α → Option α → Chains η α
  | .first h, v => { c with first := Function.update c.first h v }
  | .next n, v => { c with next := Function.update c.next n v }

def Chains.setPprev (c : Chains η α) (n : α) (v : Option (Slot η α)) : Chains η α :=
  { c with pprev := Function.update c.pprev n v }

@[simp]
theorem get_set_same (c : Chains η α) (s : Slot η α) (v : Option α) : (c.set s v).get s = v := by
  cases s <;> simp [Chains.set, Chains.get]

theorem get_set_other (c : Chains η α) {s t : Slot η α} (v : Option α) (different : t ≠ s) :
    (c.set s v).get t = c.get t := by
  cases s with
  | first h =>
    cases t with
    | first k => exact Function.update_of_ne (fun same => different (by rw [same])) _ _
    | next n => rfl
  | next n =>
    cases t with
    | first k => rfl
    | next m => exact Function.update_of_ne (fun same => different (by rw [same])) _ _

@[simp]
theorem set_pprev (c : Chains η α) (s : Slot η α) (v : Option α) : (c.set s v).pprev = c.pprev := by
  cases s <;> rfl

omit [DecidableEq η] in
@[simp]
theorem setPprev_get (c : Chains η α) (n : α) (v : Option (Slot η α)) (s : Slot η α) :
    (c.setPprev n v).get s = c.get s := by
  cases s <;> rfl

end Update

section Tables
variable {η α : Type} [DecidableEq η] {c c' : Chains η α} {chains : η → List α}

theorem table_update {h : η} {x : α} {xs : List α} (table : Table c chains)
    (fresh : ∀ k, k ≠ h → x ∉ chains k)
    (hooked : Hooked c' (.first h) xs) (nodup : xs.Nodup) (cells : ∀ y ∈ xs, y = x ∨ y ∈ chains h)
    (sameFirst : ∀ k, k ≠ h → c'.get (.first k) = c.get (.first k))
    (sameNext : ∀ k, k ≠ h → ∀ y ∈ chains k, c'.get (.next y) = c.get (.next y))
    (samePprev : ∀ k, k ≠ h → ∀ y ∈ chains k, c'.pprev y = c.pprev y) :
    Table c' (Function.update chains h xs) := by
  have apart : ∀ k, k ≠ h → ∀ y ∈ chains k, y ∉ xs := by
    intro k other y member inside
    rcases cells y inside with rfl | old
    · exact fresh k other member
    · exact other (table.apart k h y member old)
  constructor
  · intro k
    by_cases same : k = h
    · subst same
      rw [Function.update_self]
      exact hooked
    · rw [Function.update_of_ne same]
      exact hooked_congr (table.hooked k) (sameFirst k same) (sameNext k same) (samePprev k same)
  · intro k
    by_cases same : k = h
    · subst same
      rw [Function.update_self]
      exact nodup
    · rw [Function.update_of_ne same]
      exact table.nodup k
  · intro j k y mj mk
    by_cases hj : j = h <;> by_cases hk : k = h
    · exact hj.trans hk.symm
    · subst hj
      rw [Function.update_self] at mj
      rw [Function.update_of_ne hk] at mk
      exact absurd mj (apart k hk y mk)
    · subst hk
      rw [Function.update_self] at mk
      rw [Function.update_of_ne hj] at mj
      exact absurd mk (apart j hj y mj)
    · rw [Function.update_of_ne hj] at mj
      rw [Function.update_of_ne hk] at mk
      exact table.apart j k y mj mk

theorem table_add {h : η} {x : α} (table : Table c chains) (fresh : ∀ k, x ∉ chains k)
    (head : c'.get (.first h) = some x) (next : c'.get (.next x) = c.get (.first h))
    (slot : c'.pprev x = some (.first h))
    (rehook : ∀ y, c.get (.first h) = some y → c'.pprev y = some (.next x))
    (sameGet : ∀ t, t ≠ .first h → t ≠ .next x → c'.get t = c.get t)
    (samePprev : ∀ y, y ≠ x → c.get (.first h) ≠ some y → c'.pprev y = c.pprev y) :
    Table c' (Function.update chains h (x :: chains h)) := by
  have others : ∀ k, ∀ y ∈ chains k, c'.get (.next y) = c.get (.next y) := by
    intro k y member
    apply sameGet
    · simp
    · intro same
      cases same
      exact fresh k member
  apply table_update table fun k _ => fresh k
  · exact hooked_add (table.hooked h) (table.nodup h) (fresh h) head next slot rehook
      (others h) samePprev
  · exact List.nodup_cons.mpr ⟨fresh h, table.nodup h⟩
  · exact fun y member => List.mem_cons.mp member
  · exact fun k other => sameGet _ (fun eq => other (Slot.first.inj eq)) (by simp)
  · exact fun k _ => others k
  · intro k other y member
    apply samePprev y
    · rintro rfl
      exact fresh k member
    · intro first
      obtain ⟨ys, here⟩ := hooked_head (table.hooked h) first
      exact other (table.apart k h y member (here ▸ List.mem_cons_self))

theorem table_append {h : η} {w x : α} {xs : List α} (table : Table c chains)
    (fresh : ∀ k, x ∉ chains k)
    (split : chains h = xs ++ [w]) (hook : c'.get (.next w) = some x)
    (slot : c'.pprev x = some (.next w))
    (last : c'.get (.next x) = none) (sameGet : ∀ t, t ≠ .next w → t ≠ .next x → c'.get t = c.get t)
    (samePprev : ∀ y, y ≠ x → c'.pprev y = c.pprev y) :
    Table c' (Function.update chains h (chains h ++ [x])) := by
  have member : w ∈ chains h := by simp [split]
  have notX : ∀ k, ∀ y ∈ chains k, y ≠ x := by
    rintro k y inside rfl
    exact fresh k inside
  have notW : ∀ k, k ≠ h → ∀ y ∈ chains k, y ≠ w := by
    rintro k other y inside rfl
    exact other (table.apart k h y inside member)
  have others : ∀ k, ∀ y ∈ chains k, y ≠ w → c'.get (.next y) = c.get (.next y) := by
    intro k y inside different
    apply sameGet
    · simpa using different
    · simpa using notX k y inside
  have hooked := table.hooked h
  have nodup := table.nodup h
  rw [split] at hooked nodup
  apply table_update table fun k _ => fresh k
  · rw [split]
    apply hooked_append hooked nodup (by simp) hook slot last (sameGet _ (by simp) (by simp))
    · intro y inside
      apply others h y (by simp [split, inside])
      rintro rfl
      exact (List.nodup_append.mp nodup).2.2 y inside y List.mem_cons_self rfl
    · exact fun y inside => samePprev y (notX h y (split ▸ inside))
  · rw [List.nodup_append]
    refine ⟨table.nodup h, List.nodup_singleton x, ?_⟩
    intro y inside z inside'
    rw [List.mem_singleton.mp inside']
    exact notX h y inside
  · intro y inside
    rcases List.mem_append.mp inside with old | new
    · exact Or.inr old
    · exact Or.inl (List.mem_singleton.mp new)
  · exact fun k _ => sameGet _ (by simp) (by simp)
  · exact fun k other y inside => others k y inside (notW k other y inside)
  · exact fun k _ y inside => samePprev y (notX k y inside)

theorem table_remove [DecidableEq α] {h : η} {x : α} {q : Slot η α} (table : Table c chains)
    (member : x ∈ chains h) (slot : c.pprev x = some q) (cut : c'.get q = c.get (.next x))
    (rehook : ∀ y, c.get (.next x) = some y → c'.pprev y = some q)
    (sameGet : ∀ t, t ≠ q → c'.get t = c.get t)
    (samePprev : ∀ y, c.get (.next x) ≠ some y → c'.pprev y = c.pprev y) :
    Table c' (Function.update chains h ((chains h).erase x)) := by
  obtain ⟨xs, ys, before, split, erased⟩ := List.exists_erase_eq member
  have hooked := table.hooked h
  have nodup := table.nodup h
  rw [split] at hooked nodup
  obtain ⟨q', slot', place⟩ := hooked_slot hooked
  obtain rfl : q' = q := Option.some.inj (slot'.symm.trans slot)
  apply table_update table
  · exact fun k other inside => other (table.apart k h x inside member)
  · rw [erased]
    exact hooked_remove hooked nodup (by simp) slot cut rehook sameGet samePprev
  · exact (table.nodup h).erase x
  · exact fun y inside => Or.inr (List.mem_of_mem_erase inside)
  · intro k other
    apply sameGet
    rcases place with ⟨here, _⟩ | ⟨w, _, here⟩
    · rw [here]
      exact fun eq => other (Slot.first.inj eq)
    · simp [here]
  · intro k other y inside
    apply sameGet
    rcases place with ⟨here, _⟩ | ⟨w, mw, here⟩
    · simp [here]
    · rintro rfl
      cases here
      exact other (table.apart k h y inside (by simp [split, mw]))
  · intro k other y inside
    apply samePprev y
    intro after
    obtain ⟨zs, tail⟩ := hooked_head (hooked_tail hooked) after
    exact other (table.apart k h y inside (by simp [split, tail]))

end Tables

end HookedChain
