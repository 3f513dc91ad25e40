import NoobOs.Mem.HeapRuns

/- What holds in every state the allocator reaches. -/
namespace Buddy
open ByteMemory LinkedChain DyadicTiling Runs

/-- The blocks of the 21 free lists followed by the live blocks. -/
def blocks (fl : Nat → List Nat) (live : List Live) : List Block :=
  (List.range (maxOrd + 1)).flatMap (fun k => (fl k).map (Block.mk k)) ++ live.map Live.block

/-- `fl k` lists the offsets of the blocks found on free list `k` in memory. -/
structure HeapInvariant (s : State) (fl : Nat → List Nat) : Prop where
  lists : ∀ k, k ≤ maxOrd → freeList s.heap k = some ((fl k).map addr)
  increasing : ∀ k, k ≤ maxOrd → ((fl k).map addr).Pairwise (· < ·)
  disjoint : (blocks fl s.live).Pairwise fun b c => ∀ x, b.Has x → ¬ c.Has x
  exact : ∀ x, x < extMemSiz ↔ ∃ b ∈ blocks fl s.live, b.Has x
  aligned : ∀ b ∈ blocks fl s.live, 2 ^ b.ord ∣ b.off
  headers : ∀ l ∈ s.live, load32 s.heap.mem (l.ptr - hdrSiz + 4) = hdrMagic ∧
    (s.heap.mem (l.ptr - hdrSiz + 8)).toNat = l.block.ord
  buddies : ∀ k, k < maxOrd → ∀ o ∈ fl k, o ^^^ 2 ^ k ∉ fl k

section Blocks
variable {s : State} {fl : Nat → List Nat}

theorem Inv.mem_blocks (inv : Inv s fl) {b : Block} :
    b ∈ blocks fl s.live ↔ ∃ role, (role, b) ∈ tilesOf fl (usedBy s.live) := by
  constructor
  · intro member
    rcases List.mem_append.mp member with free | live
    · obtain ⟨k, _, inside⟩ := List.mem_flatMap.mp free
      obtain ⟨o, mo, rfl⟩ := List.mem_map.mp inside
      exact ⟨.free, by simpa using mo⟩
    · obtain ⟨l, ml, rfl⟩ := List.mem_map.mp live
      exact ⟨.used, by simpa using ⟨l, ml, rfl⟩⟩
  · rintro ⟨role, tile⟩
    cases role with
    | free =>
      refine List.mem_append_left _ (List.mem_flatMap.mpr ⟨b.ord, ?_, ?_⟩)
      · exact List.mem_range.mpr (Nat.lt_succ_of_le (order_bound (inv.layout.tiled.inside _ tile)))
      · exact List.mem_map.mpr ⟨b.off, by simpa using tile, rfl⟩
    | used =>
      obtain ⟨l, ml, same⟩ := used_mem_tilesOf.mp tile
      exact List.mem_append_right _ (List.mem_map.mpr ⟨l, ml, same⟩)

theorem Inv.disjoint_of_ne (inv : Inv s fl) {t u : Role × Block}
    (mt : t ∈ tilesOf fl (usedBy s.live)) (mu : u ∈ tilesOf fl (usedBy s.live))
    (different : t ≠ u) :
    ∀ x, t.2.Has x → ¬ u.2.Has x :=
  fun x ht hu => different (inv.layout.tiled.unique t mt u mu x ht hu)

theorem Inv.blocks_disjoint (inv : Inv s fl) :
    (blocks fl s.live).Pairwise fun b c => ∀ x, b.Has x → ¬ c.Has x := by
  have free : ∀ k o, o ∈ fl k → (Role.free, Block.mk k o) ∈ tilesOf fl (usedBy s.live) := by
    intro k o member
    simpa using member
  have used : ∀ l ∈ s.live, (Role.used, l.block) ∈ tilesOf fl (usedBy s.live) :=
    fun l member => live_tile member
  refine List.pairwise_append.mpr ⟨List.pairwise_flatMap.mpr ⟨?_, ?_⟩, ?_, ?_⟩
  · intro k _
    refine List.pairwise_map.mpr ((inv.layout.sorted k).imp_of_mem ?_)
    intro o p mo mp less
    exact inv.disjoint_of_ne (free k o mo) (free k p mp) (by simp; omega)
  · refine List.pairwise_lt_range.imp ?_
    intro j k less b mb c mc
    obtain ⟨o, mo, rfl⟩ := List.mem_map.mp mb
    obtain ⟨p, mp, rfl⟩ := List.mem_map.mp mc
    exact inv.disjoint_of_ne (free j o mo) (free k p mp) (by simp; omega)
  · refine List.pairwise_map.mpr ((List.pairwise_map.mp inv.distinct).imp_of_mem ?_)
    intro l l' ml ml' different
    exact inv.disjoint_of_ne (used l ml) (used l' ml') (by simpa using different)
  · intro b mb c mc
    obtain ⟨k, _, inside⟩ := List.mem_flatMap.mp mb
    obtain ⟨o, mo, rfl⟩ := List.mem_map.mp inside
    obtain ⟨l, ml, rfl⟩ := List.mem_map.mp mc
    exact inv.disjoint_of_ne (free k o mo) (used l ml) (by simp)

theorem Inv.heapInvariant (inv : Inv s fl) : HeapInvariant s fl where
  lists k _ := inv.freeList_eq k
  increasing k _ := by
    refine List.pairwise_map.mpr ((inv.layout.sorted k).imp ?_)
    intro o p less
    exact Nat.add_lt_add_left less extMemBase
  disjoint := inv.blocks_disjoint
  exact x := by
    constructor
    · intro bound
      obtain ⟨⟨role, b⟩, tile, here⟩ := inv.layout.tiled.cover x bound
      exact ⟨b, inv.mem_blocks.mpr ⟨role, tile⟩, here⟩
    · rintro ⟨b, member, here⟩
      obtain ⟨role, tile⟩ := inv.mem_blocks.mp member
      have inside := inv.layout.tiled.inside _ tile
      simp only [Block.Inside, Block.Has, maxOrd] at inside here
      simp only [extMemSiz]
      omega
  aligned b member := by
    obtain ⟨role, tile⟩ := inv.mem_blocks.mp member
    exact inv.layout.tiled.aligned _ tile
  headers l member := by
    have header := inv.headers l member
    simp only [Live.ptr, Nat.add_sub_cancel]
    exact ⟨header.magic, header.ord⟩
  buddies := inv.apart

end Blocks

/-- From `kmalloc_init` over any memory, whatever requests, frees and client
    writes came before, the free and live blocks partition the heap, and the
    next legal request returns. -/
theorem heap_invariant_reachable (m : Mem) (s : State) (reach : Reach machine (start m) s) :
    (∃ fl, HeapInvariant s fl) ∧ ∀ r, Legal s r → ∃ t, step s r = some t := by
  obtain ⟨fl, inv⟩ := reach_inv reach
  refine ⟨⟨fl, inv.heapInvariant⟩, ?_⟩
  intro r ok
  obtain ⟨t, _, ran, _⟩ := request_step inv ok
  exact ⟨t, ran⟩

theorem first_request : ∃ s, Reach machine (start fun _ => 0) s ∧ s.live = [⟨⟨5, 0⟩, 20⟩] := by
  have shape : (step (start fun _ => 0) (.alloc 20)).map State.live = some [⟨⟨5, 0⟩, 20⟩] := by
    decide +kernel
  obtain ⟨s, stepped, live⟩ := Option.map_eq_some_iff.mp shape
  have ok : machine.legal (start fun _ => 0) (.alloc 20) := show InRange 20 by decide
  exact ⟨s, ⟨_, Run.cons ok stepped (Run.nil s)⟩, live⟩

theorem heap_invariant_after_first_request : ∃ s, s.live = [⟨⟨5, 0⟩, 20⟩] ∧
    (∃ fl, HeapInvariant s fl) ∧ ∀ r, Legal s r → ∃ t, step s r = some t := by
  obtain ⟨s, reach, live⟩ := first_request
  exact ⟨s, live, heap_invariant_reachable (fun _ => 0) s reach⟩

/-! ## The lists as a function of the live blocks -/

theorem clear_iff {fl : Nat → List Nat} {used : Set Block} {b : Block} :
    Clear Role.free (tilesOf fl used) b ↔ ∀ c ∈ used, ∀ x, b.Has x → ¬ c.Has x := by
  constructor
  · intro clear c member
    exact clear (Role.used, c) (by simpa using member) (by simp)
  · rintro apart ⟨role, c⟩ tile other
    cases role with
    | free => exact absurd rfl other
    | used => exact apart c (by simpa using tile)

section Canonical
variable {m m' : Mem} {s s' t : State} {fl fl' : Nat → List Nat}

/-- The free tiles are the maximal clear ranges, which only the live blocks decide. -/
theorem Inv.lists_unique (inv : Inv s fl) (inv' : Inv s' fl')
    (same : usedBy s.live = usedBy s'.live) : fl = fl' := by
  have members : ∀ k o, o ∈ fl k ↔ o ∈ fl' k := by
    intro k o
    have left := free_iff_maximal inv.layout.tiled (coalesced_iff.mpr inv.apart) ⟨k, o⟩
    have right := free_iff_maximal inv'.layout.tiled (coalesced_iff.mpr inv'.apart) ⟨k, o⟩
    simp only [free_mem_tilesOf, clear_iff] at left right
    rw [left, right, same]
  funext k
  have perm : (fl k).Perm (fl' k) :=
    (List.perm_ext_iff_of_nodup (inv.layout.nodup k) (inv'.layout.nodup k)).mpr (members k)
  refine perm.eq_of_pairwise ?_ (inv.layout.sorted k) (inv'.layout.sorted k)
  intro a b _ _ less more
  omega

theorem lists_determined (reach : Reach machine (start m) s) (reach' : Reach machine (start m') s')
    (same : usedBy s.live = usedBy s'.live) (k : Nat) :
    freeList s.heap k = freeList s'.heap k := by
  obtain ⟨fl, inv⟩ := reach_inv reach
  obtain ⟨fl', inv'⟩ := reach_inv reach'
  rw [inv.freeList_eq, inv'.freeList_eq, inv.lists_unique inv' same]

theorem frees_run (inv : Inv s fl) : ∀ ps : List Nat, ps.Nodup →
    (∀ p ∈ ps, ∃ l ∈ s.live, l.ptr = p) →
    ∃ t, Run machine s (ps.map .free) t ∧ t.live = s.live.filter fun l => l.ptr ∉ ps := by
  intro ps
  induction ps generalizing s fl with
  | nil =>
    intro _ _
    exact ⟨s, Run.nil s, by simp⟩
  | cons p ps ih =>
    intro distinct live
    obtain ⟨new, distinct'⟩ := List.nodup_cons.mp distinct
    obtain ⟨l, member, rfl⟩ := live p List.mem_cons_self
    obtain ⟨h', fl', ran, inv'⟩ := free_step inv member
    obtain ⟨t, run, left⟩ := ih inv' distinct' (by
      intro q mq
      obtain ⟨l', ml', rfl⟩ := live q (List.mem_cons_of_mem _ mq)
      refine ⟨l', List.mem_filter.mpr ⟨ml', ?_⟩, rfl⟩
      have other : l'.ptr ≠ l.ptr := fun same => new (same ▸ mq)
      simpa using other)
    have stepped : machine.step s (.free l.ptr) =
        some ⟨h', s.live.filter fun l' => l'.ptr ≠ l.ptr⟩ := by
      simp only [machine, step, ran, Option.bind_eq_bind, Option.bind_some]
      rfl
    refine ⟨t, Run.cons (show Legal s (.free l.ptr) from ⟨l, member, rfl⟩) stepped run, ?_⟩
    rw [left, List.filter_filter]
    refine List.filter_congr ?_
    intro l' _
    simp [Bool.and_comm]

theorem Inv.freed_lists (inv : Inv s fl) (inv' : Inv t fl') {l : Live}
    (live : t.live = l :: s.live) :
    ∃ h', kmFree t.heap l.ptr = some h' ∧ ∀ k, freeList h' k = freeList s.heap k := by
  have member : l ∈ t.live := by
    rw [live]
    exact List.mem_cons_self
  obtain ⟨h', fl'', freed, inv''⟩ := free_step inv' member
  refine ⟨h', freed, fun k => ?_⟩
  have fresh : l.block ∉ usedBy s.live := by
    rintro ⟨l', ml', same⟩
    have distinct := inv'.distinct
    rw [live, List.map_cons, List.nodup_cons] at distinct
    exact distinct.1 (List.mem_map.mpr ⟨l', ml', same⟩)
  obtain ⟨split, gone⟩ := free_live inv' member
  have both := split
  rw [live, usedBy_cons, ← live] at both
  have back : usedBy (t.live.filter fun l' => l'.ptr ≠ l.ptr) = usedBy s.live := by
    rw [← Set.insert_sdiff_self_of_notMem gone, ← both, Set.insert_sdiff_self_of_notMem fresh]
  have lists := inv''.lists_unique inv back
  have left := inv''.freeList_eq k
  rw [inv.freeList_eq, ← lists]
  exact left

theorem free_alloc (reach : Reach machine (start m) s) {siz : Nat} (range : InRange siz) :
    ∃ h p h', kmAlloc s.heap siz = some (h, p) ∧ kmFree h p = some h' ∧
      ∀ k, freeList h' k = freeList s.heap k := by
  obtain ⟨fl, inv⟩ := reach_inv reach
  obtain ⟨ord, order, _, _⟩ := size2ord_spec range
  obtain ⟨t, p, fl', ran, stepped, inv', shape⟩ := alloc_step inv range order
  have reach' : Reach machine (start m) t :=
    reach_step (r := .alloc siz) reach range stepped
  rcases shape with ⟨null, live, _⟩ | ⟨cur, o, _, _, rfl, live⟩
  · subst null
    refine ⟨t.heap, 0, t.heap, ran, by simp [kmFree], fun k => ?_⟩
    exact lists_determined reach' reach (by rw [live]) k
  · obtain ⟨h', freed, lists⟩ := inv.freed_lists inv' live
    exact ⟨t.heap, addr o + hdrSiz, h', ran, freed, lists⟩

/-- Two runs that end with the same live blocks end with the same lists. Freeing
    live blocks in two orders, allocating and freeing, and freeing everything are
    such pairs of runs. -/
theorem free_lists_determined_by_live (m m' : Mem) (s s' : State)
    (reach : Reach machine (start m) s) (reach' : Reach machine (start m') s') :
    (usedBy s.live = usedBy s'.live →
      ∀ k, k ≤ maxOrd → freeList s.heap k = freeList s'.heap k) ∧
    (∀ ps qs : List Nat, ps.Nodup → (∀ p ∈ ps, ∃ l ∈ s.live, l.ptr = p) → ps.Perm qs →
      ∃ t u, Run machine s (ps.map .free) t ∧ Run machine s (qs.map .free) u ∧
        ∀ k, k ≤ maxOrd → freeList t.heap k = freeList u.heap k) ∧
    (∀ siz, InRange siz → ∃ h p h', kmAlloc s.heap siz = some (h, p) ∧ kmFree h p = some h' ∧
      ∀ k, k ≤ maxOrd → freeList h' k = freeList s.heap k) ∧
    (∀ ps : List Nat, ps.Perm (s.live.map Live.ptr) → ∃ t, Run machine s (ps.map .free) t ∧
      ∀ k, k ≤ maxOrd → freeList t.heap k = some (if k = maxOrd then [extMemBase] else [])) := by
  obtain ⟨fl, inv⟩ := reach_inv reach
  refine ⟨fun same k _ => lists_determined reach reach' same k, ?_, ?_, ?_⟩
  · intro ps qs distinct live perm
    obtain ⟨t, run, leftT⟩ := frees_run inv ps distinct live
    obtain ⟨u, run', leftU⟩ := frees_run inv qs (perm.nodup_iff.mp distinct)
      (fun q mq => live q (perm.mem_iff.mpr mq))
    refine ⟨t, u, run, run', fun k _ => ?_⟩
    refine lists_determined (reach_run reach run) (reach_run reach run') ?_ k
    rw [leftT, leftU]
    simp only [perm.mem_iff]
  · intro siz range
    obtain ⟨h, p, h', ran, freed, lists⟩ := free_alloc reach range
    exact ⟨h, p, h', ran, freed, fun k _ => lists k⟩
  · intro ps perm
    have distinct : ps.Nodup := by
      refine perm.nodup_iff.mpr (List.Nodup.map_on ?_ (inv.distinct.of_map _))
      exact fun l ml l' ml' same => inv.ptr_injective ml ml' same
    obtain ⟨t, run, left⟩ := frees_run inv ps distinct fun p mp => by
      simpa using perm.mem_iff.mp mp
    refine ⟨t, run, fun k _ => ?_⟩
    have none : t.live = [] := by
      rw [left, List.filter_eq_nil_iff]
      intro l ml
      simpa using perm.mem_iff.mpr (List.mem_map_of_mem ml)
    rw [lists_determined (reach_run reach run) ⟨[], Run.nil (start m)⟩ (by rw [none]; rfl) k,
      (start_inv m).freeList_eq k]
    by_cases top : k = maxOrd
    · simp [startLists, top, addr]
    · simp [startLists, top]

theorem free_lists_determined_after_first_request : ∃ s t, s.live = [⟨⟨5, 0⟩, 20⟩] ∧
    Run machine s [.free (extMemBase + hdrSiz)] t ∧
    ∀ k, k ≤ maxOrd → freeList t.heap k = some (if k = maxOrd then [extMemBase] else []) := by
  obtain ⟨s, reach, live⟩ := first_request
  obtain ⟨_, _, _, everything⟩ :=
    free_lists_determined_by_live (fun _ => 0) (fun _ => 0) s s reach reach
  obtain ⟨t, run, lists⟩ := everything [extMemBase + hdrSiz] (by rw [live]; rfl)
  exact ⟨s, t, live, run, lists⟩

end Canonical

/-! ## Requests that fail -/

/-- A range of the request's order with no byte of a live block. -/
def Room (live : List Live) (ord : Nat) : Prop :=
  ∃ o, 2 ^ ord ∣ o ∧ o + 2 ^ ord ≤ extMemSiz ∧
    ∀ x, o ≤ x → x < o + 2 ^ ord → ∀ l ∈ live, ¬ l.block.Has x

/-- The byte at offset `x` lies in a block that some free list links. -/
def FreeByte (h : Heap) (x : Nat) : Prop :=
  ∃ k xs, k ≤ maxOrd ∧ freeList h k = some xs ∧
    ∃ a ∈ xs, a ≤ extMemBase + x ∧ extMemBase + x < a + 2 ^ k

section Room
variable {s : State} {fl : Nat → List Nat} {ord : Nat}

/-- Some list from `ord` up is non-empty exactly when there is room. -/
theorem Inv.room_iff (inv : Inv s fl) : Room s.live ord ↔ ∃ j, ord ≤ j ∧ fl j ≠ [] := by
  constructor
  · rintro ⟨o, aligned, inside, free⟩
    have clear : Clear Role.free (tilesOf fl (usedBy s.live)) ⟨ord, o⟩ := by
      rw [clear_iff]
      rintro c ⟨l, ml, rfl⟩ x here
      exact free x here.1 here.2 l ml
    obtain ⟨c, tile, larger, _⟩ := clear_covered inv.layout.tiled (coalesced_iff.mpr inv.apart)
      ord ⟨ord, o⟩ rfl aligned inside clear
    have member := free_mem_tilesOf.mp tile
    exact ⟨c.ord, larger, List.ne_nil_of_mem member⟩
  · rintro ⟨j, larger, full⟩
    obtain ⟨o, rest, first⟩ := List.exists_cons_of_ne_nil full
    have tile : (Role.free, Block.mk j o) ∈ tilesOf fl (usedBy s.live) := by simp [first]
    have aligned := inv.layout.tiled.aligned _ tile
    have inside := inv.layout.tiled.inside _ tile
    have clear := clear_iff.mp (clear_of_free inv.layout.tiled tile)
    have smaller : 2 ^ ord ≤ 2 ^ j := Nat.pow_le_pow_right (by omega) larger
    refine ⟨o, Nat.dvd_trans (Nat.pow_dvd_pow 2 larger) aligned, ?_, ?_⟩
    · simp only [Block.Inside, maxOrd] at inside
      simp only [extMemSiz]
      omega
    · intro x low high l ml
      exact clear l.block ⟨l, ml, rfl⟩ x ⟨low, by simp only; omega⟩

theorem Inv.freeByte (inv : Inv s fl) {cur o x : Nat} (member : o ∈ fl cur) (low : o ≤ x)
    (high : x < o + 2 ^ cur) : FreeByte s.heap x ∧ ∀ l ∈ s.live, ¬ l.block.Has x := by
  have tile : (Role.free, Block.mk cur o) ∈ tilesOf fl (usedBy s.live) := by simpa using member
  constructor
  · refine ⟨cur, _, order_bound (inv.layout.tiled.inside _ tile), inv.freeList_eq cur, addr o,
      List.mem_map_of_mem member, ?_, ?_⟩
    · simp only [addr]
      omega
    · simp only [addr]
      omega
  · intro l ml
    exact clear_iff.mp (clear_of_free inv.layout.tiled tile) l.block ⟨l, ml, rfl⟩ x ⟨low, high⟩

end Room

/-- A request fails only when no aligned range of its order is free of live
    bytes, and what it returns was free. -/
theorem request_succeeds_iff_room (m : Mem) (s : State) (reach : Reach machine (start m) s)
    (siz ord : Nat) (range : InRange siz) (order : size2ord (alignUp siz 4 + hdrSiz) = some ord) :
    ∃ h p, kmAlloc s.heap siz = some (h, p) ∧ (p ≠ 0 ↔ Room s.live ord) ∧
      (p ≠ 0 → extMemBase + hdrSiz ≤ p ∧
        (∀ x, p - hdrSiz ≤ extMemBase + x → extMemBase + x < p - hdrSiz + 2 ^ ord →
          FreeByte s.heap x ∧ ∀ l ∈ s.live, ¬ l.block.Has x) ∧
        p + alignUp siz 4 ≤ p - hdrSiz + 2 ^ ord) := by
  obtain ⟨fl, inv⟩ := reach_inv reach
  obtain ⟨ord', order', large, fits⟩ := size2ord_spec range
  rw [inRange_words range] at order ⊢
  obtain rfl : ord' = ord := Option.some.inj (order'.symm.trans order)
  obtain ⟨t, p, fl', ran, _, _, shape⟩ := alloc_step inv range order
  refine ⟨t.heap, p, ran, ?_⟩
  rw [inv.room_iff]
  rcases shape with ⟨null, _, empty⟩ | ⟨cur, o, up, member, found, _⟩
  · subst null
    refine ⟨⟨fun real => absurd rfl real, ?_⟩, fun real => absurd rfl real⟩
    rintro ⟨j, ge, full⟩
    exact absurd (empty j ge) full
  · have smaller : 2 ^ ord' ≤ 2 ^ cur := Nat.pow_le_pow_right (by omega) up
    have start : p - hdrSiz = extMemBase + o := by
      simp only [found, addr]
      omega
    have real : p ≠ 0 := by
      have := addr_ne_zero o
      omega
    refine ⟨⟨fun _ => ⟨cur, up, List.ne_nil_of_mem member⟩, fun _ => real⟩, fun _ => ⟨?_, ?_, ?_⟩⟩
    · simp only [found, addr]
      omega
    · intro x low high
      rw [start] at low high
      exact inv.freeByte member (by omega) (by omega)
    · simp only [found, Nat.add_sub_cancel]
      omega

theorem second_request_succeeds : ∃ (s : State) (h : Heap) (p : Nat), s.live = [⟨⟨5, 0⟩, 20⟩] ∧
    kmAlloc s.heap 500000 = some (h, p) ∧ p ≠ 0 := by
  obtain ⟨s, reach, live⟩ := first_request
  obtain ⟨h, p, ran, found, _⟩ := request_succeeds_iff_room (fun _ => 0) s reach 500000 19
    (by decide) (by decide)
  refine ⟨s, h, p, live, ran, found.mpr ⟨2 ^ 19, Nat.dvd_refl _, by decide, ?_⟩⟩
  intro x low high l ml
  rw [live] at ml
  obtain rfl := List.mem_singleton.mp ml
  simp only [Block.Has]
  omega

end Buddy
