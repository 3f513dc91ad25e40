import NoobOs.Mem.FreeLists
import NoobOs.Lib.DyadicTiling

/-!
The layout of the managed megabyte: the blocks on the free lists and the blocks
in use tile it. A block that an operation holds between two lists counts as used.
-/
namespace Buddy
open ByteMemory LinkedChain DyadicTiling

inductive Role where
  | free
  | used
  deriving DecidableEq

def tilesOf (fl : Nat → List Nat) (used : Set Block) : Set (Role × Block) :=
  {t | t.1 = .free ∧ t.2.off ∈ fl t.2.ord ∨ t.1 = .used ∧ t.2 ∈ used}

@[simp]
theorem free_mem_tilesOf {fl : Nat → List Nat} {used : Set Block} {b : Block} :
    (Role.free, b) ∈ tilesOf fl used ↔ b.off ∈ fl b.ord := by
  simp [tilesOf]

@[simp]
theorem used_mem_tilesOf {fl : Nat → List Nat} {used : Set Block} {b : Block} :
    (Role.used, b) ∈ tilesOf fl used ↔ b ∈ used := by
  simp [tilesOf]

def addr (off : Nat) : Nat := extMemBase + off

/-- `fl k` lists the offsets on free list `k`; `used` are all other blocks. -/
structure Layout (h : Heap) (fl : Nat → List Nat) (used : Set Block) : Prop where
  base : h.base = extMemBase
  siz : h.siz = extMemSiz
  links : ∀ k, Chain (load32 h.mem) (h.free k) ((fl k).map addr)
  sorted : ∀ k, (fl k).Pairwise (· < ·)
  tiled : Tiles maxOrd (tilesOf fl used)
  large : ∀ t ∈ tilesOf fl used, minOrd ≤ t.2.ord

section Facts
variable {h h' : Heap} {fl : Nat → List Nat} {used : Set Block}

theorem order_bound {b : Block} {top : Nat} (inside : b.Inside top) : b.ord ≤ top := by
  have le : 2 ^ b.ord ≤ 2 ^ top := by
    simp only [Block.Inside] at inside
    omega
  exact (Nat.pow_le_pow_iff_right (by omega)).mp le

theorem Layout.size_ge (lay : Layout h fl used) {t : Role × Block} (member : t ∈ tilesOf fl used) :
    32 ≤ 2 ^ t.2.ord :=
  Nat.pow_le_pow_right (show 0 < 2 by omega) (lay.large t member)

theorem Layout.offset_bound (lay : Layout h fl used) {t : Role × Block}
    (member : t ∈ tilesOf fl used) : t.2.off < 2 ^ 20 := by
  have inside := lay.tiled.inside t member
  have pos := size_pos t.2.ord
  simp only [Block.Inside, maxOrd] at inside
  omega

theorem Layout.nodup (lay : Layout h fl used) (k : Nat) : (fl k).Nodup :=
  (lay.sorted k).imp fun less => Nat.ne_of_lt less

theorem Layout.short (lay : Layout h fl used) (k : Nat) :
    ((fl k).map addr).length < walkFuel := by
  have sub : fl k ⊆ List.range (2 ^ 20) := by
    intro o member
    have tile : (Role.free, Block.mk k o) ∈ tilesOf fl used := by simpa using member
    exact List.mem_range.mpr (lay.offset_bound tile)
  have le := (lay.nodup k).length_le_of_subset sub
  simp only [List.length_range] at le
  simp only [List.length_map, walkFuel]
  omega

theorem Layout.addr_word (lay : Layout h fl used) {t : Role × Block}
    (member : t ∈ tilesOf fl used) : addr t.2.off < 2 ^ 32 := by
  have bound := lay.offset_bound member
  simp only [addr, extMemBase]
  omega

theorem addr_ne_zero (off : Nat) : addr off ≠ 0 := by
  simp only [addr, extMemBase]
  omega

theorem addr_injective : Function.Injective addr := by
  intro a b same
  simpa [addr] using same

theorem Layout.apart (lay : Layout h fl used) {t u : Role × Block} (mt : t ∈ tilesOf fl used)
    (mu : u ∈ tilesOf fl used) (different : t ≠ u) : Apart (addr t.2.off) (addr u.2.off) := by
  have st := lay.size_ge mt
  have su := lay.size_ge mu
  have away := lay.tiled.apart mt mu different
  simp only [Apart, addr]
  omega

theorem Layout.spread (lay : Layout h fl used) (k : Nat) :
    ∀ y ∈ (fl k).map addr, ∀ z ∈ (fl k).map addr, y ≠ z → Apart y z := by
  intro y my z mz different
  obtain ⟨o, mo, rfl⟩ := List.mem_map.mp my
  obtain ⟨p, mp, rfl⟩ := List.mem_map.mp mz
  have first : (Role.free, Block.mk k o) ∈ tilesOf fl used := by simpa using mo
  have second : (Role.free, Block.mk k p) ∈ tilesOf fl used := by simpa using mp
  refine lay.apart first second ?_
  intro same
  exact different (congrArg (fun t => addr t.2.off) same)

/-- Blocks outside the touched tiles keep all their bytes. -/
theorem Layout.untouched (lay : Layout h fl used) {k : Nat} {cells : List Nat}
    (keeps : Keeps h h' k cells) {touched : Set (Role × Block)}
    (within : ∀ c ∈ cells, ∃ t ∈ tilesOf fl used, t ∈ touched ∧ c = addr t.2.off)
    {u : Role × Block} (mu : u ∈ tilesOf fl used) (other : u ∉ touched) :
    AgreeOn h.mem h'.mem (addr u.2.off) (addr u.2.off + 2 ^ u.2.ord) := by
  intro x low high
  refine keeps.mem x ?_
  intro c member
  obtain ⟨t, mt, touches, rfl⟩ := within c member
  have away := lay.tiled.apart mt mu (fun same => other (same ▸ touches))
  have size := lay.size_ge mt
  simp only [addr] at *
  omega

theorem Layout.other_list (lay : Layout h fl used) {k j : Nat} {cells : List Nat}
    (keeps : Keeps h h' k cells) {touched : Set (Role × Block)}
    (within : ∀ c ∈ cells, ∃ t ∈ tilesOf fl used, t ∈ touched ∧ c = addr t.2.off)
    (different : j ≠ k) (other : ∀ o ∈ fl j, (Role.free, Block.mk j o) ∉ touched) :
    Chain (load32 h'.mem) (h'.free j) ((fl j).map addr) := by
  rw [keeps.heads j different]
  refine chain_congr (lay.links j) ?_
  intro y member
  obtain ⟨o, mo, rfl⟩ := List.mem_map.mp member
  have tile : (Role.free, Block.mk j o) ∈ tilesOf fl used := by simpa using mo
  have agree := lay.untouched keeps within tile (other o mo)
  have size : 4 ≤ 2 ^ j := Nat.le_trans (by omega) (lay.size_ge tile)
  exact load32_congr (agree.mono (Nat.le_refl _) (Nat.add_le_add_left size _))

end Facts

section Moves
variable {h h' : Heap} {fl : Nat → List Nat} {used : Set Block}

theorem orderedInsert_sorted {o : Nat} {xs : List Nat} (sorted : xs.Pairwise (· < ·))
    (fresh : o ∉ xs) : (xs.orderedInsert (· ≤ ·) o).Pairwise (· < ·) := by
  induction xs with
  | nil => simp
  | cons x xs ih =>
    obtain ⟨first, rest⟩ := List.pairwise_cons.mp sorted
    simp only [List.mem_cons, not_or] at fresh
    by_cases before : o ≤ x
    · rw [List.orderedInsert_cons_of_le _ xs before]
      refine List.pairwise_cons.mpr ⟨?_, sorted⟩
      intro y member
      rcases List.mem_cons.mp member with same | later
      · omega
      · have := first y later
        omega
    · rw [List.orderedInsert_of_not_le _ xs before]
      refine List.pairwise_cons.mpr ⟨?_, ih rest fresh.2⟩
      intro y member
      rcases (List.mem_orderedInsert _).mp member with same | later
      · omega
      · exact first y later

theorem tilesOf_freed {b : Block} (fresh : b ∉ used) (t : Role × Block) :
    t ∈ tilesOf (Function.update fl b.ord ((fl b.ord).orderedInsert (· ≤ ·) b.off)) used ↔
      t ∈ tilesOf fl (insert b used) ∧ t ≠ (.used, b) ∨ t = (.free, b) := by
  obtain ⟨role, c⟩ := t
  cases role with
  | used =>
    simp only [used_mem_tilesOf, Set.mem_insert_iff, ne_eq, Prod.mk.injEq, true_and, reduceCtorEq,
      false_and, or_false]
    constructor
    · intro member
      exact ⟨Or.inr member, fun same => fresh (same ▸ member)⟩
    · rintro ⟨same | member, different⟩
      · exact absurd same different
      · exact member
  | free =>
    by_cases order : c.ord = b.ord
    · cases b
      cases c
      simp only at order
      subst order
      simp [or_comm]
    · have different : c ≠ b := fun same => order (congrArg Block.ord same)
      simp [Function.update_of_ne order, different]

theorem tilesOf_taken {b : Block} (nodup : (fl b.ord).Nodup) (t : Role × Block) :
    t ∈ tilesOf (Function.update fl b.ord ((fl b.ord).erase b.off)) (insert b used) ↔
      t ∈ tilesOf fl used ∧ t ≠ (.free, b) ∨ t = (.used, b) := by
  obtain ⟨role, c⟩ := t
  cases role with
  | used => simp [or_comm]
  | free =>
    by_cases order : c.ord = b.ord
    · cases b
      cases c
      simp only at order nodup
      subst order
      simp [nodup.mem_erase_iff, and_comm]
    · have different : c ≠ b := fun same => order (congrArg Block.ord same)
      simp [Function.update_of_ne order, different]

theorem Layout.retagged {b : Block} {role role' : Role} {xs : List Nat} {used' : Set Block}
    (lay : Layout h fl used)
    (tile : (role, b) ∈ tilesOf fl used) (base : h'.base = h.base) (siz : h'.siz = h.siz)
    (moved : ∀ t, t ∈ tilesOf (Function.update fl b.ord xs) used' ↔
      t ∈ tilesOf fl used ∧ t ≠ (role, b) ∨ t = (role', b))
    (chain : Chain (load32 h'.mem) (h'.free b.ord) (xs.map addr)) (sorted : xs.Pairwise (· < ·))
    (others : ∀ j, j ≠ b.ord → Chain (load32 h'.mem) (h'.free j) ((fl j).map addr)) :
    Layout h' (Function.update fl b.ord xs) used' := by
  refine ⟨base.trans lay.base, siz.trans lay.siz, ?_, ?_, lay.tiled.retag tile moved, ?_⟩
  · intro j
    by_cases same : j = b.ord
    · subst same
      rwa [Function.update_self]
    · rw [Function.update_of_ne same]
      exact others j same
  · intro j
    by_cases same : j = b.ord
    · subst same
      rwa [Function.update_self]
    · rw [Function.update_of_ne same]
      exact lay.sorted j
  · intro t member
    rcases (moved t).mp member with ⟨old, _⟩ | new
    · exact lay.large t old
    · have order : t.2.ord = b.ord := congrArg (fun t => t.2.ord) new
      rw [order]
      exact lay.large _ tile

theorem insertBlock_layout {b : Block} (lay : Layout h fl (insert b used)) (fresh : b ∉ used) :
    ∃ h', insertBlock h b.ord (addr b.off) = some h' ∧
      Layout h' (Function.update fl b.ord ((fl b.ord).orderedInsert (· ≤ ·) b.off)) used ∧
      h'.counters = h.counters ∧
      ∀ c ∈ used, AgreeOn h.mem h'.mem (addr c.off) (addr c.off + 2 ^ c.ord) := by
  have tile : (Role.used, b) ∈ tilesOf fl (insert b used) := by simp
  have listed : ∀ o ∈ fl b.ord, (Role.free, Block.mk b.ord o) ∈ tilesOf fl (insert b used) := by
    intro o member
    simpa using member
  have absent : b.off ∉ fl b.ord := by
    intro member
    have same := lay.tiled.unique _ tile _ (listed b.off member) b.off (has_start b)
      (has_start ⟨b.ord, b.off⟩)
    simp at same
  have away : ∀ y ∈ (fl b.ord).map addr, Apart y (addr b.off) := by
    intro y member
    obtain ⟨o, mo, rfl⟩ := List.mem_map.mp member
    exact lay.apart (listed o mo) tile (by simp)
  have words : ∀ y ∈ (fl b.ord).map addr, y < 2 ^ 32 := by
    intro y member
    obtain ⟨o, mo, rfl⟩ := List.mem_map.mp member
    exact lay.addr_word (listed o mo)
  obtain ⟨h', ran, keeps, chain⟩ := insertBlock_list (lay.links b.ord) (lay.short b.ord) words
    (lay.spread b.ord) (lay.addr_word tile) (addr_ne_zero b.off) away
  let touched : Set (Role × Block) := {t | t = (.used, b) ∨ t.1 = .free ∧ t.2.ord = b.ord}
  have within : ∀ c ∈ addr b.off :: (fl b.ord).map addr,
      ∃ t ∈ tilesOf fl (insert b used), t ∈ touched ∧ c = addr t.2.off := by
    intro c member
    rcases List.mem_cons.mp member with same | listed'
    · exact ⟨_, tile, Or.inl rfl, same⟩
    · obtain ⟨o, mo, rfl⟩ := List.mem_map.mp listed'
      exact ⟨_, listed o mo, Or.inr ⟨rfl, rfl⟩, rfl⟩
  refine ⟨h', ran, lay.retagged tile keeps.base keeps.siz (tilesOf_freed fresh) ?_
    (orderedInsert_sorted (lay.sorted b.ord) absent) ?_, keeps.counters, ?_⟩
  · rw [List.map_orderedInsert _ (· ≤ ·)]
    · exact chain
    · intro a _; simp [addr]
    · intro a _; simp [addr]
  · intro j other
    refine lay.other_list keeps within other ?_
    rintro o _ (eq | ⟨_, order⟩)
    · simp at eq
    · exact other order
  · intro c member
    have old : (Role.used, c) ∈ tilesOf fl (insert b used) := by simp [member]
    refine lay.untouched keeps within old ?_
    rintro (same | ⟨role, _⟩)
    · simp only [Prod.mk.injEq, true_and] at same
      exact fresh (same ▸ member)
    · simp at role

theorem Layout.taken {b : Block} (lay : Layout h fl used) (member : b.off ∈ fl b.ord)
    (keeps : Keeps h h' b.ord ((fl b.ord).map addr))
    (chain : Chain (load32 h'.mem) (h'.free b.ord) (((fl b.ord).erase b.off).map addr)) :
    Layout h' (Function.update fl b.ord ((fl b.ord).erase b.off)) (insert b used) ∧
      ∀ c ∈ used, AgreeOn h.mem h'.mem (addr c.off) (addr c.off + 2 ^ c.ord) := by
  have tile : (Role.free, b) ∈ tilesOf fl used := by simpa using member
  have fresh : b ∉ used := by
    intro inside
    have other : (Role.used, b) ∈ tilesOf fl used := by simpa using inside
    have same := lay.tiled.unique _ tile _ other b.off (has_start b) (has_start b)
    simp at same
  let touched : Set (Role × Block) := {t | t.1 = .free ∧ t.2.ord = b.ord}
  have within : ∀ c ∈ (fl b.ord).map addr,
      ∃ t ∈ tilesOf fl used, t ∈ touched ∧ c = addr t.2.off := by
    intro c listed
    obtain ⟨o, mo, rfl⟩ := List.mem_map.mp listed
    exact ⟨(.free, ⟨b.ord, o⟩), by simpa using mo, ⟨rfl, rfl⟩, rfl⟩
  refine ⟨lay.retagged tile keeps.base keeps.siz (tilesOf_taken (lay.nodup b.ord)) chain
    ((lay.sorted b.ord).sublist List.erase_sublist) ?_, ?_⟩
  · intro j other
    exact lay.other_list keeps within other fun o _ touches => other touches.2
  · intro c inside
    have old : (Role.used, c) ∈ tilesOf fl used := by simpa using inside
    exact lay.untouched keeps within old fun touches => absurd touches.1 (by simp)

theorem removeBlock_layout {b : Block} (lay : Layout h fl used) (member : b.off ∈ fl b.ord) :
    ∃ h', removeBlock h b.ord (addr b.off) = some (h', true) ∧
      Layout h' (Function.update fl b.ord ((fl b.ord).erase b.off)) (insert b used) ∧
      h'.counters = h.counters ∧
      ∀ c ∈ used, AgreeOn h.mem h'.mem (addr c.off) (addr c.off + 2 ^ c.ord) := by
  obtain ⟨h', ran, keeps, chain⟩ := removeBlock_list (lay.links b.ord) (lay.short b.ord)
    (lay.spread b.ord) (List.mem_map_of_mem member)
  rw [← List.map_erase addr_injective] at chain
  obtain ⟨lay', frame⟩ := lay.taken member keeps chain
  exact ⟨h', ran, lay', keeps.counters, frame⟩

theorem removeBlock_layout_absent {b : Block} (lay : Layout h fl used)
    (absent : b.off ∉ fl b.ord) : removeBlock h b.ord (addr b.off) = some (h, false) := by
  refine removeBlock_absent (lay.links b.ord) (lay.short b.ord) ?_
  intro member
  obtain ⟨o, mo, same⟩ := List.mem_map.mp member
  exact absent (addr_injective same ▸ mo)

theorem pop_layout (lay : Layout h fl used) {k o : Nat} {rest : List Nat}
    (first : fl k = o :: rest) :
    h.free k = addr o ∧
      Layout (h.set (.head k) (load32 h.mem (addr o))) (Function.update fl k rest)
        (insert ⟨k, o⟩ used) := by
  have chain := lay.links k
  rw [first, List.map_cons] at chain
  obtain ⟨head, _, remaining⟩ := chain_uncons chain
  refine ⟨head, ?_⟩
  have keeps : Keeps h (h.set (.head k) (load32 h.mem (addr o))) k ((fl k).map addr) :=
    (set_keeps h k none _).mono (by simp)
  have tail : Chain (load32 (h.set (.head k) (load32 h.mem (addr o))).mem)
      ((h.set (.head k) (load32 h.mem (addr o))).free k) (((fl k).erase o).map addr) := by
    rw [first, List.erase_cons_head]
    simpa [Heap.set] using remaining
  have taken := (Layout.taken (b := ⟨k, o⟩) lay (by simp [first]) keeps tail).1
  simpa [first] using taken

theorem Layout.scribble {b : Block} (lay : Layout h fl used) (member : b ∈ used)
    {m : Mem} (same : ∀ x, x < addr b.off ∨ addr b.off + 2 ^ b.ord ≤ x → m x = h.mem x) :
    Layout { h with mem := m } fl used := by
  refine { lay with links := ?_ }
  intro k
  refine chain_congr (lay.links k) ?_
  intro y listed
  obtain ⟨o, mo, rfl⟩ := List.mem_map.mp listed
  have tile : (Role.free, Block.mk k o) ∈ tilesOf fl used := by simpa using mo
  have other : (Role.used, b) ∈ tilesOf fl used := by simpa using member
  have away := lay.tiled.apart tile other (by simp)
  have size : 32 ≤ 2 ^ k := lay.size_ge tile
  refine load32_congr ?_
  intro x low high
  refine same x ?_
  simp only [addr] at *
  omega

theorem Layout.halved {k o : Nat} (lay : Layout h fl (insert ⟨k + 1, o⟩ used))
    (fresh : ⟨k + 1, o⟩ ∉ used) (large : minOrd ≤ k) :
    Layout h fl (insert ⟨k, o + 2 ^ k⟩ (insert ⟨k, o⟩ used)) := by
  have tile : (Role.used, Block.mk (k + 1) o) ∈ tilesOf fl (insert ⟨k + 1, o⟩ used) := by simp
  have moved : ∀ t, t ∈ tilesOf fl (insert ⟨k, o + 2 ^ k⟩ (insert ⟨k, o⟩ used)) ↔
      t ∈ tilesOf fl (insert ⟨k + 1, o⟩ used) ∧ t ≠ (.used, ⟨k + 1, o⟩) ∨
        t = (.used, (Block.mk (k + 1) o).lower) ∨ t = (.used, (Block.mk (k + 1) o).upper) := by
    rintro ⟨role, c⟩
    cases role with
    | free => simp
    | used =>
      simp only [used_mem_tilesOf, Set.mem_insert_iff, ne_eq, Prod.mk.injEq, true_and,
        Block.lower, Block.upper, Nat.add_sub_cancel]
      constructor
      · rintro (upper | lower | old)
        · exact Or.inr (Or.inr upper)
        · exact Or.inr (Or.inl lower)
        · exact Or.inl ⟨Or.inr old, fun same => fresh (same ▸ old)⟩
      · rintro (⟨same | old, different⟩ | lower | upper)
        · exact absurd same different
        · exact Or.inr (Or.inr old)
        · exact Or.inr (Or.inl lower)
        · exact Or.inl upper
  refine { lay with tiled := lay.tiled.split tile (Nat.succ_pos k) moved, large := ?_ }
  intro t member
  rcases (moved t).mp member with ⟨old, _⟩ | new | new
  · exact lay.large t old
  · simpa [new, Block.lower] using large
  · simpa [new, Block.upper] using large

theorem Layout.joined {b : Block} (lay : Layout h fl (insert b.buddy (insert b used)))
    (fresh : b ∉ used) (fresh' : b.buddy ∉ used) (below : b.ord < maxOrd) :
    Layout h fl (insert b.parent used) := by
  have tile : (Role.used, b) ∈ tilesOf fl (insert b.buddy (insert b used)) := by simp
  have tile' : (Role.used, b.buddy) ∈ tilesOf fl (insert b.buddy (insert b used)) := by simp
  have moved : ∀ t, t ∈ tilesOf fl (insert b.parent used) ↔
      t ∈ tilesOf fl (insert b.buddy (insert b used)) ∧ t ≠ (.used, b) ∧ t ≠ (.used, b.buddy) ∨
        t = (.used, b.parent) := by
    rintro ⟨role, c⟩
    cases role with
    | free => simp
    | used =>
      simp only [used_mem_tilesOf, Set.mem_insert_iff, ne_eq, Prod.mk.injEq, true_and]
      constructor
      · rintro (parent | old)
        · exact Or.inr parent
        · exact Or.inl ⟨Or.inr (Or.inr old), fun same => fresh (same ▸ old),
            fun same => fresh' (same ▸ old)⟩
      · rintro (⟨buddy | self | old, notSelf, notBuddy⟩ | parent)
        · exact absurd buddy notBuddy
        · exact absurd self notSelf
        · exact Or.inr old
        · exact Or.inl parent
  refine { lay with tiled := lay.tiled.merge tile tile' below moved, large := ?_ }
  intro t member
  rcases (moved t).mp member with ⟨old, _⟩ | new
  · exact lay.large t old
  · have bound := lay.large _ tile
    simp only [new, Block.parent] at bound ⊢
    omega

end Moves

end Buddy
