import NoobOs.KLib.Lists

/-!
The lists of `list.c` as lists: what each operation does to one of several in the same memory,
and that the others, and all nodes on none of them, stay as they are.
-/
namespace Lists
open RingList HookedChain

/-! ## Rings -/

section Rings
variable {η α : Type}

/-- Several rings, no two of which share a cell. -/
structure Rings (l : Links α) (heads : η → α) (lists : η → List α) : Prop where
  ring : ∀ h, Ring l (heads h) (lists h)
  apart : ∀ h k, h ≠ k → ∀ c ∈ heads h :: lists h, c ∉ heads k :: lists k

def SelfLinked (l : Links α) (x : α) : Prop := l.next x = some x ∧ l.prev x = some x

/-- Ring `h` has the nodes `ys` now, which are its own and `x`; the other lists are untouched, and
    so are all other nodes. -/
structure Becomes (l l' : Links α) (heads : η → α) (lists : η → List α) (h : η) (x : α)
    (ys : List α) : Prop where
  here : Ring l' (heads h) ys
  there : ∀ k, k ≠ h → heads k ≠ x → Ring l' (heads k) (lists k) ∧
    ∀ c ∈ heads k :: lists k, c ∉ heads h :: ys
  others : ∀ c, c ≠ x → c ∉ heads h :: lists h → l'.next c = l.next c ∧ l'.prev c = l.prev c

variable {l l' : Links α} {heads : η → α} {lists : η → List α} {h : η} {head x : α} {xs ys : List α}

theorem selfLinked_ring (self : SelfLinked l x) : Ring l x [] := ⟨List.nodup_singleton x, self⟩

theorem member_not_selfLinked (ring : Ring l head xs) (member : x ∈ xs) : ¬ SelfLinked l x := by
  obtain ⟨as, bs, split⟩ := List.append_of_mem member
  have linked := ring.linked
  have distinct := ring.distinct
  rw [split] at linked distinct
  obtain ⟨n, place, next⟩ := linked_first (linked_append.mp linked).2
  rintro ⟨self, -⟩
  obtain rfl : n = x := Option.some.inj (next.symm.trans self)
  rcases place with rfl | inside
  · simp at distinct
  · simp [List.nodup_append, inside] at distinct

theorem Rings.becomes (rings : Rings l heads lists) (here : Ring l' (heads h) ys)
    (cells : ∀ c ∈ ys, c = x ∨ c ∈ lists h) (free : ∀ k, k ≠ h → x ∉ lists k)
    (others : ∀ c, c ≠ x → c ∉ heads h :: lists h → l'.next c = l.next c ∧ l'.prev c = l.prev c) :
    Becomes l l' heads lists h x ys := by
  refine ⟨here, ?_, others⟩
  intro k other notHead
  have away : ∀ c ∈ heads k :: lists k, c ≠ x ∧ c ∉ heads h :: lists h := by
    intro c member
    refine ⟨?_, rings.apart k h other c member⟩
    rintro rfl
    rcases List.mem_cons.mp member with same | inside
    · exact notHead same.symm
    · exact free k other inside
  constructor
  · exact (rings.ring k).congr fun c member => others c (away c member).1 (away c member).2
  · intro c member inside
    obtain ⟨notX, outside⟩ := away c member
    rcases List.mem_cons.mp inside with rfl | inside'
    · exact outside List.mem_cons_self
    · rcases cells c inside' with same | old
      · exact notX same
      · exact outside (List.mem_cons_of_mem _ old)

theorem Rings.fresh (rings : Rings l heads lists) (self : SelfLinked l x) (notHead : x ≠ heads h) :
    (∀ k, x ∉ lists k) ∧ x ∉ heads h :: lists h := by
  have free : ∀ k, x ∉ lists k := fun k member => member_not_selfLinked (rings.ring k) member self
  exact ⟨free, List.not_mem_cons_of_ne_of_not_mem notHead (free h)⟩

variable [DecidableEq α]

theorem listAdd_frame (ring : Ring l head xs) (fresh : x ∉ head :: xs)
    (added : listAdd l x head = some l') {c : α}
    (notNew : c ≠ x) (outside : c ∉ head :: xs) : l'.next c = l.next c ∧ l'.prev c = l.prev c := by
  have mirrored : listAddTail l.mirror x head = some l'.mirror := by
    rw [listAddTail_mirror]
    exact congrArg (Option.map Links.mirror) added
  exact (listAddTail_frame ring.mirror (by simpa using fresh) mirrored notNew
    (by simpa using outside)).symm

theorem Rings.listAdd_becomes (rings : Rings l heads lists) (self : SelfLinked l x)
    (notHead : x ≠ heads h) :
    ∃ l', listAdd l x (heads h) = some l' ∧ Becomes l l' heads lists h x (x :: lists h) := by
  obtain ⟨free, fresh⟩ := rings.fresh self notHead
  obtain ⟨l', added, ring⟩ := listAdd_ring (rings.ring h) fresh
  refine ⟨l', added, rings.becomes ring (fun c member => List.mem_cons.mp member)
    (fun k _ => free k) ?_⟩
  exact fun c notNew outside => listAdd_frame (rings.ring h) fresh added notNew outside

theorem Rings.listAddTail_becomes (rings : Rings l heads lists) (self : SelfLinked l x)
    (notHead : x ≠ heads h) :
    ∃ l', listAddTail l x (heads h) = some l' ∧ Becomes l l' heads lists h x (lists h ++ [x]) := by
  obtain ⟨free, fresh⟩ := rings.fresh self notHead
  obtain ⟨l', added, ring⟩ := listAddTail_ring (rings.ring h) fresh
  refine ⟨l', added, rings.becomes ring ?_ (fun k _ => free k) ?_⟩
  · intro c member
    rcases List.mem_append.mp member with old | new
    · exact Or.inr old
    · exact Or.inl (List.mem_singleton.mp new)
  · exact fun c notNew outside => listAddTail_frame (rings.ring h) fresh added notNew outside

theorem Rings.listDel_becomes (rings : Rings l heads lists) (member : x ∈ lists h) :
    ∃ l', listDel l x = some l' ∧ Becomes l l' heads lists h x ((lists h).erase x) ∧
    SelfLinked l' x := by
  obtain ⟨l', removed, ring⟩ := listDel_ring (rings.ring h) member
  obtain ⟨alone, frame⟩ := listDel_frame (rings.ring h) member removed
  have free : ∀ k, k ≠ h → x ∉ lists k := by
    intro k other inside
    exact rings.apart k h other x (List.mem_cons_of_mem _ inside) (List.mem_cons_of_mem _ member)
  refine ⟨l', removed, rings.becomes ring ?_ free ?_, alone.linked⟩
  · exact fun c inside => Or.inr (List.mem_of_mem_erase inside)
  · exact fun c _ outside => frame c outside

/-- On any of several rings in one memory the operations do what their names say, and nothing else.
    A node that is added is not the head it is added to. -/
theorem rings_refined (rings : Rings l heads lists) (h : η) (x : α) :
    (SelfLinked l x → x ≠ heads h →
      (∃ l', listAdd l x (heads h) = some l' ∧ Becomes l l' heads lists h x (x :: lists h)) ∧
      ∃ l', listAddTail l x (heads h) = some l' ∧ Becomes l l' heads lists h x (lists h ++ [x])) ∧
    (x ∈ lists h →
      ∃ l', listDel l x = some l' ∧ Becomes l l' heads lists h x ((lists h).erase x) ∧
      SelfLinked l' x) ∧
    (SelfLinked l x → listDel l x = some l) :=
  ⟨fun self notHead => ⟨rings.listAdd_becomes self notHead, rings.listAddTail_becomes self notHead⟩,
    rings.listDel_becomes, fun self => listDel_alone (selfLinked_ring self)⟩

def scattered : Links Nat := ⟨some, some⟩

theorem scattered_pair : ∃ l', listAddTail scattered 2 0 = some l' ∧
    Becomes scattered l' (fun h : Bool => if h then 0 else 1) (fun _ => []) true 2 [2] := by
  have rings : Rings scattered (fun h : Bool => if h then 0 else 1) fun _ => [] := by
    refine ⟨fun h => selfLinked_ring ⟨rfl, rfl⟩, ?_⟩
    rintro (_ | _) (_ | _) differ c member <;> simp_all
  exact ((rings_refined rings true 2).1 ⟨rfl, rfl⟩ (by decide)).2

end Rings

/-! ## Hash chains -/

section Hash
variable {η α : Type} [DecidableEq η] [DecidableEq α]

/-- `while (cur->next) cur = cur->next`. -/
def hlistLast (c : Chains η α) : Nat → α → Option α
  | 0, _ => none
  | fuel + 1, cur =>
    match c.next cur with
    | some n => hlistLast c fuel n
    | none => some cur

/-- `none` is also a load through a null pointer. -/
def hlistAddTail (fuel : Nat) (c : Chains η α) (new : α) (head : η) : Option (Chains η α) := do
  let c := c.set (.next new) none
  let c := c.setPprev new none
  let cur ← c.first head
  let cur ← hlistLast c fuel cur
  let c := c.set (.next cur) (some new)
  return c.setPprev new (some (.next cur))

variable {c c' : Chains η α} {chains : η → List α} {h : η} {w x : α} {xs : List α}

omit [DecidableEq η] [DecidableEq α] in
theorem hlistLast_spec {s : Slot η α} {y : α} (hooked : Hooked c s (xs ++ [w]))
    (first : c.get s = some y) (fuel : Nat)
    (enough : xs.length < fuel) : hlistLast c fuel y = some w := by
  induction xs generalizing s y fuel with
  | nil =>
    obtain ⟨fuel, rfl⟩ := Nat.exists_eq_succ_of_ne_zero (Nat.ne_of_gt enough)
    obtain ⟨head, -, last⟩ := hooked
    obtain rfl : w = y := Option.some.inj (head.symm.trans first)
    have stop : c.next w = none := last
    rw [hlistLast, stop]
  | cons z zs ih =>
    obtain ⟨fuel, rfl⟩ := Nat.exists_eq_succ_of_ne_zero (Nat.ne_of_gt (Nat.zero_lt_of_lt enough))
    obtain ⟨head, -, tail⟩ := hooked
    obtain rfl : z = y := Option.some.inj (head.symm.trans first)
    have next : ∃ n, c.next z = some n := by
      cases zs with
      | nil => exact ⟨w, tail.1⟩
      | cons n ns => exact ⟨n, tail.1⟩
    obtain ⟨n, next⟩ := next
    rw [hlistLast, next]
    exact ih tail next fuel (by simpa using enough)

theorem hlistAddTail_table (table : Table c chains) (fresh : ∀ k, x ∉ chains k)
    (split : chains h = xs ++ [w]) :
    ∃ c', (∀ fuel, xs.length < fuel → hlistAddTail fuel c x h = some c') ∧
      Table c' (Function.update chains h (chains h ++ [x])) := by
  have hooked := table.hooked h
  rw [split] at hooked
  have notX : ∀ y ∈ xs ++ [w], y ≠ x := by
    rintro y inside rfl
    exact fresh h (split ▸ inside)
  -- the walk is on the chain as it was: the new node is not on it
  have walked : Hooked ((c.set (.next x) none).setPprev x none) (.first h) (xs ++ [w]) := by
    apply hooked_congr hooked
    · rw [setPprev_get, get_set_other _ _ (by simp)]
    · intro y inside
      rw [setPprev_get, get_set_other _ _ (by simpa using notX y inside)]
    · intro y inside
      simp [Chains.setPprev, notX y inside]
  obtain ⟨y, first⟩ : ∃ y, c.first h = some y := by
    cases xs with
    | nil => exact ⟨w, hooked.1⟩
    | cons y ys => exact ⟨y, hooked.1⟩
  refine ⟨(((c.set (.next x) none).setPprev x none).set (.next w) (some x)).setPprev x
    (some (.next w)), ?_, ?_⟩
  · intro fuel enough
    have head : ((c.set (.next x) none).setPprev x none).first h = some y := first
    have last := hlistLast_spec walked head fuel enough
    simp only [hlistAddTail, head, Option.bind_eq_bind, Option.bind_some, last, Option.pure_def]
  · have other : (Slot.next x : Slot η α) ≠ .next w := by simpa using (notX w (by simp)).symm
    apply table_append table fresh split
    · rw [setPprev_get, get_set_same]
    · simp [Chains.setPprev]
    · rw [setPprev_get, get_set_other _ _ other, setPprev_get, get_set_same]
    · intro t notLast notNew
      rw [setPprev_get, get_set_other _ _ notLast, setPprev_get, get_set_other _ _ notNew]
    · intro z notNew
      simp [Chains.setPprev, notNew]

theorem hlistAddTail_empty (table : Table c chains) (empty : chains h = []) (fuel : Nat) :
    hlistAddTail fuel c x h = none := by
  have hooked := table.hooked h
  rw [empty] at hooked
  have null : ((c.set (.next x) none).setPprev x none).first h = none := hooked
  simp only [hlistAddTail, null, Option.bind_eq_bind, Option.bind_none]

/-- All three operations refine lists just where the chain has a node: `hlist_add_tail` reads the
    `next` of the first node without looking whether there is one. -/
theorem hlist_refined_iff (table : Table c chains) (fresh : ∀ k, x ∉ chains k) (h : η) :
    (Table (hlistAddHead c x h) (Function.update chains h (x :: chains h)) ∧
      (∃ c', (∀ fuel, (chains h).length < fuel → hlistAddTail fuel c x h = some c') ∧
        Table c' (Function.update chains h (chains h ++ [x]))) ∧
      ∀ y ∈ chains h, ∃ c', hlistDel c y = some c' ∧
      Table c' (Function.update chains h ((chains h).erase y))) ↔
    chains h ≠ [] := by
  constructor
  · rintro ⟨-, ⟨c', returns, -⟩, -⟩ empty
    have result := returns ((chains h).length + 1) (Nat.lt_succ_self _)
    rw [hlistAddTail_empty table empty] at result
    cases result
  · intro some'
    obtain ⟨xs, w, split⟩ := (List.eq_nil_or_concat' (chains h)).resolve_left some'
    obtain ⟨c', returns, after⟩ := hlistAddTail_table table fresh split
    refine ⟨hlistAddHead_table table fresh, ⟨c', ?_, after⟩,
      fun y member => hlistDel_table table member⟩
    intro fuel enough
    rw [split, List.length_append] at enough
    exact returns fuel (by omega)

def single : Chains Unit Nat := ⟨fun _ => some 5, fun _ => none, fun _ => some (.first ())⟩

theorem single_table : Table single fun _ => [5] :=
  ⟨fun _ => ⟨rfl, rfl, rfl⟩, fun _ => List.nodup_singleton 5, fun _ _ _ _ _ => rfl⟩

theorem single_refined :
    (Table (hlistAddHead single 6 ()) (Function.update (fun _ => [5]) () [6, 5]) ∧
    (∃ c', (∀ fuel, 1 < fuel → hlistAddTail fuel single 6 () = some c') ∧
      Table c' (Function.update (fun _ => [5]) () [5, 6])) ∧
    ∀ y ∈ [5], ∃ c', hlistDel single y = some c' ∧
    Table c' (Function.update (fun _ => [5]) () ([5].erase y))) ↔
      [5] ≠ [] :=
  hlist_refined_iff single_table (fun _ => by decide) ()

def noNode : Chains Unit Nat := ⟨fun _ => none, fun _ => none, fun _ => none⟩

/-- The empty chain is well formed, and adding at its tail never returns. -/
theorem empty_chain_faults :
    Table noNode (fun _ => []) ∧ ∀ fuel, hlistAddTail fuel noNode 6 () = none := by
  have table : Table noNode fun _ => [] :=
    ⟨fun _ => rfl, fun _ => List.nodup_nil, fun _ _ _ _ _ => rfl⟩
  exact ⟨table, hlistAddTail_empty table rfl⟩

end Hash

end Lists
