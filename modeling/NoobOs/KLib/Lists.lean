import NoobOs.Lib.RingList
import NoobOs.Lib.HookedChain

/-!
The intrusive lists of `list.c`, one store at a time. A node is named by the
object it sits in. `none` is a store through a null pointer.
-/
namespace Lists
open RingList HookedChain

section Ring
variable {α : Type} [DecidableEq α]

def initList (l : Links α) (head : α) : Links α :=
  (l.setNext head (some head)).setPrev head (some head)

def listAdd (l : Links α) (new head : α) : Option (Links α) := do
  let l := l.setNext new (l.next head)
  let l := l.setPrev new (some head)
  let n ← l.next head
  let l := l.setPrev n (some new)
  return l.setNext head (some new)

def listAddTail (l : Links α) (new head : α) : Option (Links α) := do
  let l := l.setNext new (some head)
  let l := l.setPrev new (l.prev head)
  let p ← l.prev head
  let l := l.setNext p (some new)
  return l.setPrev head (some new)

def listDel (l : Links α) (ent : α) : Option (Links α) := do
  let p ← l.prev ent
  let l := l.setNext p (l.next ent)
  let n ← l.next ent
  let l := l.setPrev n (l.prev ent)
  return (l.setNext ent (some ent)).setPrev ent (some ent)

variable {l : Links α} {head x : α} {xs : List α}

theorem listAdd_ring (ring : Ring l head xs) (fresh : x ∉ head :: xs) :
    ∃ l', listAdd l x head = some l' ∧ Ring l' head (x :: xs) := by
  obtain ⟨n, place, first⟩ := linked_first ring.linked
  have away : head ≠ x := fun same => fresh (same ▸ List.mem_cons_self)
  have away' : n ≠ x := by
    rintro rfl
    cases place with
    | inl same => exact away same.symm
    | inr member => exact fresh (List.mem_cons_of_mem _ member)
  refine ⟨(((l.setNext x (some n)).setPrev x (some head)).setPrev n (some x)).setNext head (some x),
    ?_, ?_, ?_⟩
  · simp only [listAdd, Links.setNext, Links.setPrev, Function.update_of_ne away, first,
      Option.bind_eq_bind, Option.bind_some, Option.pure_def]
  · have nodup := ring.distinct
    simp only [List.nodup_cons, List.mem_cons] at nodup fresh ⊢
    refine ⟨?_, ?_, nodup.2⟩
    · rintro (same | member)
      · exact away same
      · exact nodup.1 member
    · exact fun member => fresh (Or.inr member)
  · apply linked_insert ring.linked first ring.distinct (List.nodup_cons.mp ring.distinct).1 fresh
      away.symm
    · simp [Links.setNext, Links.setPrev, away.symm, away'.symm]
    · simp [Links.setNext, Links.setPrev]
    · intro c notX notHead
      simp [Links.setNext, Links.setPrev, notX, notHead]
    · intro c notX notN
      simp [Links.setNext, Links.setPrev, notX, notN]

theorem listDel_ring (ring : Ring l head xs) (member : x ∈ xs) :
    ∃ l', listDel l x = some l' ∧ Ring l' head (xs.erase x) := by
  obtain ⟨as, bs, before, split, erased⟩ := List.exists_erase_eq member
  have linked := ring.linked
  have distinct := ring.distinct
  rw [split] at linked distinct
  obtain ⟨front, back⟩ := linked_append.mp linked
  obtain ⟨p, placeP, prev⟩ := linked_last front
  obtain ⟨n, placeN, next⟩ := linked_first back
  have apartP : p ≠ x := by
    rintro rfl
    rcases List.mem_cons.mp placeP with rfl | inside
    · simp at distinct
    · exact before inside
  have apartN : n ≠ x := by
    rintro rfl
    cases placeN with
    | inl same => simp [same] at distinct
    | inr inside => simp [List.nodup_append, inside] at distinct
  refine ⟨(((l.setNext p (some n)).setPrev n (some p)).setNext x (some x)).setPrev x (some x),
    ?_, ?_, ?_⟩
  · simp only [listDel, Links.setNext, Links.setPrev, prev, next, Function.update_of_ne apartP.symm,
      Option.bind_eq_bind, Option.bind_some, Option.pure_def]
  · exact ring.distinct.sublist (List.Sublist.cons_cons head List.erase_sublist)
  · rw [erased]
    apply linked_remove front back prev next distinct (List.nodup_cons.mp distinct).1
    · simp [Links.setNext, Links.setPrev, apartP, apartN]
    · intro c notX notP
      simp [Links.setNext, Links.setPrev, notX, notP]
    · intro c notX notN
      simp [Links.setNext, Links.setPrev, notX, notN]

theorem listAddTail_mirror (l : Links α) (new head : α) :
    listAddTail l new head = (listAdd l.mirror new head).map Links.mirror := by
  unfold listAddTail listAdd
  simp only [Links.mirror, Links.setNext, Links.setPrev]
  cases Function.update l.prev new (l.prev head) head <;> rfl

theorem listAddTail_ring (ring : Ring l head xs) (fresh : x ∉ head :: xs) :
    ∃ l', listAddTail l x head = some l' ∧ Ring l' head (xs ++ [x]) := by
  have fresh' : x ∉ head :: xs.reverse := by
    simpa using fresh
  obtain ⟨l', added, ring'⟩ := listAdd_ring ring.mirror fresh'
  refine ⟨l'.mirror, ?_, ?_⟩
  · rw [listAddTail_mirror, added]
    rfl
  · have mirrored := ring'.mirror
    rw [List.reverse_cons, List.reverse_reverse] at mirrored
    exact mirrored

theorem listAddTail_frame {l' : Links α} (ring : Ring l head xs) (fresh : x ∉ head :: xs)
    (added : listAddTail l x head = some l') {c : α} (notNew : c ≠ x) (outside : c ∉ head :: xs) :
    l'.next c = l.next c ∧ l'.prev c = l.prev c := by
  obtain ⟨p, place, last⟩ := linked_last ring.linked
  have away : head ≠ x := fun same => fresh (same ▸ List.mem_cons_self)
  have notHead : c ≠ head := fun same => outside (same ▸ List.mem_cons_self)
  have notLast : c ≠ p := fun same => outside (same ▸ place)
  simp only [listAddTail, Links.setNext, Links.setPrev, Function.update_of_ne away, last,
    Option.bind_eq_bind, Option.bind_some, Option.pure_def, Option.some.injEq] at added
  subst added
  simp [notNew, notHead, notLast]

theorem listDel_frame {l' : Links α} (ring : Ring l head xs) (member : x ∈ xs)
    (removed : listDel l x = some l') :
    Ring l' x [] ∧ ∀ c ∉ head :: xs, l'.next c = l.next c ∧ l'.prev c = l.prev c := by
  obtain ⟨as, bs, split⟩ := List.append_of_mem member
  have linked := ring.linked
  rw [split] at linked
  obtain ⟨front, back⟩ := linked_append.mp linked
  obtain ⟨p, placeP, prev⟩ := linked_last front
  obtain ⟨n, placeN, next⟩ := linked_first back
  have distinct := ring.distinct
  rw [split] at distinct
  have apartP : p ≠ x := by
    rintro rfl
    rcases List.mem_cons.mp placeP with rfl | inside
    · simp at distinct
    · have nodup := (List.nodup_append.mp (List.nodup_cons.mp distinct).2).2.2
      exact nodup p inside p List.mem_cons_self rfl
  simp only [listDel, Links.setNext, Links.setPrev, prev, next, Function.update_of_ne apartP.symm,
    Option.bind_eq_bind, Option.bind_some, Option.pure_def, Option.some.injEq] at removed
  subst removed
  refine ⟨⟨by simp, by simp [Linked]⟩, ?_⟩
  intro c outside
  rw [split] at outside
  have notX : c ≠ x := by
    rintro rfl
    simp at outside
  have notP : c ≠ p := by
    rintro rfl
    rcases List.mem_cons.mp placeP with rfl | inside
    · simp at outside
    · simp [inside] at outside
  have notN : c ≠ n := by
    rintro rfl
    rcases placeN with rfl | inside
    · simp at outside
    · simp [inside] at outside
  simp [notX, notP, notN]

theorem listDel_alone (alone : Ring l x []) : listDel l x = some l := by
  obtain ⟨next, prev⟩ := alone.linked
  have same : Function.update l.next x (some x) = l.next := by
    rw [← next, Function.update_eq_self]
  have same' : Function.update l.prev x (some x) = l.prev := by
    rw [← prev, Function.update_eq_self]
  simp only [listDel, Links.setNext, Links.setPrev, prev, next, same, same', Option.bind_eq_bind,
    Option.bind_some, Option.pure_def]

theorem initList_alone (l : Links α) (x : α) : Ring (initList l x) x [] :=
  ⟨by simp, by simp [Linked, initList, Links.setNext, Links.setPrev]⟩

theorem initList_frame (l : Links α) {c : α} (other : c ≠ x) :
    (initList l x).next c = l.next c ∧ (initList l x).prev c = l.prev c := by
  simp [initList, Links.setNext, Links.setPrev, other]

end Ring

section Hash
variable {η α : Type} [DecidableEq η] [DecidableEq α]

def hlistAddHead (c : Chains η α) (new : α) (head : η) : Chains η α :=
  let c := c.set (.next new) (c.first head)
  let c := c.setPprev new (some (.first head))
  let c := match c.next new with
    | some n => c.setPprev n (some (.next new))
    | none => c
  c.set (.first head) (some new)

def hlistDel (c : Chains η α) (node : α) : Option (Chains η α) := do
  let c := match c.next node with
    | some n => c.setPprev n (c.pprev node)
    | none => c
  let slot ← c.pprev node
  return c.set slot (c.next node)

variable {c : Chains η α} {chains : η → List α} {h : η} {x : α}

theorem hlistAddHead_table (table : Table c chains) (fresh : ∀ k, x ∉ chains k) :
    Table (hlistAddHead c x h) (Function.update chains h (x :: chains h)) := by
  have start : ∀ y, c.first h = some y → y ≠ x := by
    rintro y first rfl
    obtain ⟨ys, here⟩ := hooked_head (table.hooked h) first
    exact fresh h (here ▸ List.mem_cons_self)
  cases first : c.first h with
  | none =>
    have result : hlistAddHead c x h =
        ((c.set (.next x) none).setPprev x (some (.first h))).set (.first h) (some x) := by
      simp [hlistAddHead, first, Chains.set, Chains.setPprev]
    rw [result]
    apply table_add table fresh
    · simp
    · simp [Chains.get, Chains.set, Chains.setPprev, first]
    · simp [Chains.setPprev]
    · simp [Chains.get, first]
    · intro t notFirst notNext
      rw [get_set_other _ _ notFirst, setPprev_get, get_set_other _ _ notNext]
    · intro y notX _
      simp [Chains.setPprev, notX]
  | some n =>
    have other := start n first
    have result : hlistAddHead c x h =
        (((c.set (.next x) (some n)).setPprev x (some (.first h))).setPprev n
          (some (.next x))).set (.first h) (some x) := by
      simp [hlistAddHead, first, Chains.set, Chains.setPprev]
    rw [result]
    apply table_add table fresh
    · simp
    · simp [Chains.get, Chains.set, Chains.setPprev, first]
    · simp [Chains.setPprev, other.symm]
    · simp [Chains.get, Chains.setPprev, first]
    · intro t notFirst notNext
      rw [get_set_other _ _ notFirst, setPprev_get, setPprev_get, get_set_other _ _ notNext]
    · intro y notX notN
      have notN' : y ≠ n := fun same => notN (same ▸ first)
      simp [Chains.setPprev, notX, notN']

theorem hlistDel_table (table : Table c chains) (member : x ∈ chains h) :
    ∃ c', hlistDel c x = some c' ∧ Table c' (Function.update chains h ((chains h).erase x)) := by
  obtain ⟨xs, ys, split⟩ := List.append_of_mem member
  have hooked := table.hooked h
  rw [split] at hooked
  obtain ⟨q, slot, _⟩ := hooked_slot hooked
  cases next : c.next x with
  | none =>
    refine ⟨c.set q none, by simp [hlistDel, next, slot], ?_⟩
    have after : c.get (.next x) = none := next
    apply table_remove table member slot
    · rw [get_set_same, after]
    · simp [after]
    · exact fun t other => get_set_other c _ other
    · simp
  | some n =>
    have other : n ≠ x := by
      rintro rfl
      obtain ⟨zs, here⟩ := hooked_head (hooked_tail hooked) next
      have nodup := table.nodup h
      simp [split, here, List.nodup_append] at nodup
    refine ⟨(c.setPprev n (some q)).set q (some n), ?_, ?_⟩
    · simp [hlistDel, next, slot, Chains.setPprev, other.symm]
    · have after : c.get (.next x) = some n := next
      apply table_remove table member slot
      · rw [get_set_same, after]
      · simp [after, Chains.setPprev]
      · intro t different
        simp [get_set_other, different]
      · intro y notN
        have notN' : y ≠ n := fun same => notN (same ▸ next)
        simp [Chains.setPprev, notN']

end Hash

end Lists
