import NoobOs.Mem.HeapResults

/-!
The sizes and the counters of `km_alloc`. Rounding, the header and the doubling loop all work
modulo 2^32, and the counters are charged before it is known whether a block exists.
-/
namespace Buddy
open ByteMemory LinkedChain DyadicTiling Runs

/-! ## Sizes -/

/-- The request returns, a pointer heads a block with `siz` bytes behind its header, and more
    than a megabyte holds is refused. -/
def Served (h : Heap) (siz : Nat) : Prop :=
  ∃ h' p, kmAlloc h siz = some (h', p) ∧
    (p ≠ 0 → hdrSiz + siz ≤ 2 ^ (h'.mem (p - hdrSiz + 8)).toNat) ∧ (2 ^ 20 - 10 < siz → p = 0)

section Sizes
variable {h : Heap} {fl : Nat → List Nat} {used : Set Block} {siz : Nat}

theorem wrapped_total (word : siz < 2 ^ 32) (high : 2 ^ 32 - 11 ≤ siz) :
    alignUp siz 4 < 2 ^ 32 ∧ (alignUp siz 4 + hdrSiz) % 2 ^ 32 ≤ 10 := by
  by_cases top : siz + 3 < 2 ^ 32
  · rw [alignUp_word top]
    simp only [rounded, hdrSiz]
    omega
  · have low : (siz + 4 - 1) % 2 ^ 32 < 2 ^ 2 := by omega
    have cleared := and_clear_low (k := 2) (w := 32) (Nat.lt_trans low (by decide)) (by decide)
    have zero : alignUp siz 4 = 0 := by
      refine Eq.trans cleared ?_
      rw [Nat.div_eq_of_lt low, Nat.zero_mul]
    rw [zero]
    decide

theorem small_order {total : Nat} (small : total ≤ 10) : size2ord total = some 5 := by
  have fits : ¬ 2 ^ minOrd < total := by
    simp only [minOrd]
    omega
  rw [size2ord, size2ordFrom, if_neg fits]
  rfl

theorem kmAlloc_cases {r ord : Nat} (lay : Layout h fl used) (words : alignUp siz 4 = r)
    (word : r < 2 ^ 32)
    (order : size2ord ((r + hdrSiz) % 2 ^ 32) = some ord) (large : minOrd ≤ ord) :
    (kmAlloc h siz = some (charge h ord r, 0) ∧ ∀ j, ord ≤ j → fl j = []) ∨
      ∃ h' o cur, kmAlloc h siz = some (h', addr o + hdrSiz) ∧ Header h'.mem (addr o) ord r ∧
        h'.counters = (charge h ord r).counters ∧ ord ≤ cur ∧ cur ≤ maxOrd ∧ fl cur ≠ [] := by
  by_cases empty : ∀ j, ord ≤ j → fl j = []
  · exact Or.inl ⟨kmAlloc_fails lay words order empty, empty⟩
  · right
    obtain ⟨cur, o, rest, up, below, first⟩ := first_full empty
    obtain ⟨h', _, ran, _, _, _, counters, header, _⟩ :=
      kmAlloc_takes lay words word order large up below first
    have full : fl cur ≠ [] := by
      rw [first]
      exact List.cons_ne_nil _ _
    refine ⟨h', o, cur, ran, header, counters, up, ?_, full⟩
    by_contra high
    exact full (lay.high_empty (by omega))

theorem served_in_range (lay : Layout h fl used) (low : siz ≤ 2 ^ 31 - 12) : Served h siz := by
  have range : InRange siz := by
    simp only [InRange, rounded, hdrSiz]
    omega
  obtain ⟨ord, order, large, fits⟩ := size2ord_spec range
  have ge := rounded_ge siz
  rcases kmAlloc_cases lay (inRange_words range) (inRange_word range)
    (by rwa [inRange_total range]) large with
    ⟨ran, _⟩ | ⟨h', o, cur, ran, header, _, up, top, _⟩
  · exact ⟨_, 0, ran, fun real => absurd rfl real, fun _ => rfl⟩
  · refine ⟨h', addr o + hdrSiz, ran, fun _ => ?_, fun beyond => ?_⟩
    · rw [Nat.add_sub_cancel, header.ord]
      omega
    · have most : 2 ^ ord ≤ 2 ^ maxOrd := Nat.pow_le_pow_right (by omega) (by omega)
      simp only [maxOrd, hdrSiz] at most fits
      omega

/-- No 32-bit power of two bounds the sum, so the doubling loop never ends. -/
theorem kmAlloc_endless (high : 2 ^ 31 - 12 < siz) (low : siz < 2 ^ 32 - 11) :
    kmAlloc h siz = none := by
  have words : alignUp siz 4 = rounded siz := alignUp_word (by omega)
  have total : (rounded siz + hdrSiz) % 2 ^ 32 = rounded siz + hdrSiz := by
    simp only [rounded, hdrSiz]
    omega
  have beyond : 2 ^ 31 < rounded siz + hdrSiz := by
    simp only [rounded, hdrSiz]
    omega
  have endless : size2ord (rounded siz + hdrSiz) = none := by
    cases found : size2ord (rounded siz + hdrSiz) with
    | none => rfl
    | some ord =>
      obtain ⟨small, fits⟩ := size2ord_order (by omega) found
      have most : 2 ^ ord ≤ 2 ^ 31 := Nat.pow_le_pow_right (by omega) small
      omega
  simp only [kmAlloc, words, total, endless, Option.bind_eq_bind, Option.bind_none]

theorem served_wrapped_iff (lay : Layout h fl used) (word : siz < 2 ^ 32)
    (high : 2 ^ 32 - 11 ≤ siz) :
    Served h siz ↔ ∀ k, k ≤ maxOrd → h.free k = 0 := by
  obtain ⟨fits, small⟩ := wrapped_total word high
  have order := small_order small
  rcases kmAlloc_cases lay rfl fits order (by decide) with
    ⟨ran, empty⟩ | ⟨h', o, cur, ran, header, _, _, top, full⟩
  · refine ⟨fun _ k _ => ?_, fun _ => ⟨_, 0, ran, fun real => absurd rfl real, fun _ => rfl⟩⟩
    by_cases listed : 5 ≤ k
    · exact (lay.list_empty k).mpr (empty k listed)
    · refine (lay.list_empty k).mpr (List.eq_nil_iff_forall_not_mem.mpr fun off member => ?_)
      have tile : (Role.free, Block.mk k off) ∈ tilesOf fl used := by simpa using member
      exact listed (lay.large _ tile)
  · constructor
    · rintro ⟨h'', p, ran', bytes, _⟩
      obtain ⟨rfl, rfl⟩ := Prod.mk.inj (Option.some.inj (ran.symm.trans ran'))
      have real : addr o + hdrSiz ≠ 0 := by
        have := addr_ne_zero o
        omega
      have room := bytes real
      rw [Nat.add_sub_cancel, header.ord] at room
      omega
    · intro none'
      exact absurd ((lay.list_empty cur).mp (none' cur top)) full

/-- In a heap with a layout, as every reachable one, a request of `siz` bytes is served right if
    and only if nothing wraps, or the sum wraps while no block is free. -/
theorem served_iff (lay : Layout h fl used) (word : siz < 2 ^ 32) :
    Served h siz ↔ siz ≤ 2 ^ 31 - 12 ∨ 2 ^ 32 - 11 ≤ siz ∧ ∀ k, k ≤ maxOrd → h.free k = 0 := by
  by_cases low : siz ≤ 2 ^ 31 - 12
  · exact ⟨fun _ => Or.inl low, fun _ => served_in_range lay low⟩
  · by_cases high : 2 ^ 32 - 11 ≤ siz
    · rw [served_wrapped_iff lay word high]
      exact ⟨fun empty => Or.inr ⟨high, empty⟩, fun either => (either.resolve_left low).2⟩
    · constructor
      · rintro ⟨h', p, ran, _⟩
        rw [kmAlloc_endless (by omega) (by omega)] at ran
        exact absurd ran (by simp)
      · rintro (small | ⟨large, _⟩)
        · exact absurd small low
        · exact absurd large high

end Sizes

theorem page_served : Served (start fun _ => 0).heap 4096 :=
  (served_iff (start_inv _).layout (by decide)).mpr (Or.inl (by decide))

/-- On the fresh heap 2^32 - 1 bytes are given a block of 32, and 2^31 never return. -/
theorem all_memory_given :
    ¬ Served (start fun _ => 0).heap (2 ^ 32 - 1) ∧
    kmAlloc (start fun _ => 0).heap (2 ^ 31) = none := by
  refine ⟨fun served => ?_, kmAlloc_endless (by decide) (by decide)⟩
  have empty :=
    (served_wrapped_iff (start_inv _).layout (by decide) (by decide)).mp served maxOrd (by decide)
  have full : (start fun _ => 0).heap.free maxOrd = extMemBase := by
    simp [start, kmallocInit_eq]
  rw [full] at empty
  exact absurd empty (by decide)

/-! ## Counters -/

def liveMem (live : List Live) : Nat := totalSize (live.map Live.block)

def liveTruly : List Live → Nat
  | [] => 0
  | l :: live => rounded l.siz + liveTruly live

section Live
variable {s t : State} {fl : Nat → List Nat}

theorem live_erase {live : List Live} {l : Live} (member : l ∈ live) :
    liveMem live = 2 ^ l.block.ord + liveMem (live.erase l) ∧
      liveTruly live = rounded l.siz + liveTruly (live.erase l) := by
  induction live with
  | nil => exact absurd member List.not_mem_nil
  | cons first live ih =>
    by_cases same : first = l
    · subst same
      rw [List.erase_cons_head]
      exact ⟨rfl, rfl⟩
    · obtain ⟨mem, truly⟩ := ih (List.mem_of_ne_of_mem (Ne.symm same) member)
      rw [List.erase_cons_tail (by simpa using same)]
      simp only [liveMem, liveTruly, List.map_cons, totalSize] at mem truly ⊢
      omega

theorem Inv.filter_erase (inv : Inv s fl) {l : Live} (member : l ∈ s.live) :
    (s.live.filter fun l' => l'.ptr ≠ l.ptr) = s.live.erase l := by
  rw [(inv.distinct.of_map _).erase_eq_filter]
  refine List.filter_congr fun l' member' => ?_
  by_cases same : l' = l
  · simp [same]
  · have other : l'.ptr ≠ l.ptr := fun eq => same (inv.ptr_injective member' member eq)
    simp [same, other]

/-- The live blocks are disjoint, so no sum over them wraps. -/
theorem Inv.live_bounded (inv : Inv s fl) : liveTruly s.live ≤ liveMem s.live ∧
    liveMem s.live ≤ 2 ^ 20 := by
  constructor
  · have fits := inv.fits
    generalize s.live = live at fits
    induction live with
    | nil => exact Nat.le_refl _
    | cons l live ih =>
      have first := fits l List.mem_cons_self
      have rest := ih fun l' member => fits l' (List.mem_cons_of_mem _ member)
      simp only [liveMem, liveTruly, List.map_cons, totalSize] at rest ⊢
      omega
  · have inside : ∀ b ∈ s.live.map Live.block, b.Inside maxOrd := by
      intro b member
      obtain ⟨l, ml, rfl⟩ := List.mem_map.mp member
      exact inv.layout.tiled.inside _ (live_tile ml)
    exact totalSize_le inside (List.pairwise_append.mp inv.blocks_disjoint).2.1

theorem alloc_counted (inv : Inv s fl) {siz ord : Nat} (range : InRange siz)
    (order : size2ord (rounded siz + hdrSiz) = some ord) (stepped : step s (.alloc siz) = some t) :
    t.heap.counters = (charge s.heap ord (rounded siz)).counters ∧
      ((¬ Room s.live ord ∧ kmAlloc s.heap siz = some (t.heap, 0)) ∨
        Room s.live ord ∧ ∃ o, kmAlloc s.heap siz = some (t.heap, addr o + hdrSiz) ∧
          t.live = ⟨⟨ord, o⟩, siz⟩ :: s.live) := by
  obtain ⟨ord', order', large, _⟩ := size2ord_spec range
  obtain rfl : ord' = ord := Option.some.inj (order'.symm.trans order)
  obtain ⟨t', p, _, ran, stepped', _, shape⟩ := alloc_step inv range order
  obtain rfl : t' = t := Option.some.inj (stepped'.symm.trans stepped)
  have counters : t'.heap.counters = (charge s.heap ord' (rounded siz)).counters := by
    rcases kmAlloc_cases inv.layout (inRange_words range) (inRange_word range)
      (by rwa [inRange_total range]) large with
      ⟨ran', _⟩ | ⟨h', o, cur, ran', _, counters, _⟩
    · obtain ⟨same, _⟩ := Prod.mk.inj (Option.some.inj (ran.symm.trans ran'))
      rw [same]
    · obtain ⟨same, _⟩ := Prod.mk.inj (Option.some.inj (ran.symm.trans ran'))
      rw [same, counters]
  refine ⟨counters, ?_⟩
  rw [inv.room_iff]
  rcases shape with ⟨rfl, _, empty⟩ | ⟨cur, o, up, member, rfl, live⟩
  · refine Or.inl ⟨?_, ran⟩
    rintro ⟨j, ge, full⟩
    exact full (empty j ge)
  · exact Or.inr ⟨⟨cur, up, List.ne_nil_of_mem member⟩, o, ran, live⟩

theorem free_counted (inv : Inv s fl) {l : Live} (member : l ∈ s.live)
    (stepped : step s (.free l.ptr) = some t) :
    t.heap.counters = (refund s.heap l.block.ord (rounded l.siz)).counters ∧
    t.live = s.live.erase l := by
  obtain ⟨used, fresh⟩ := free_live inv member
  have lay := inv.layout
  rw [used] at lay
  obtain ⟨h', _, ran, _, _, _, counters⟩ := kmFree_layout lay fresh inv.apart (inv.headers l member)
  have ran' : kmFree s.heap l.ptr = some h' := ran
  simp only [step, ran', Option.bind_eq_bind, Option.bind_some, Option.pure_def,
    Option.some.injEq] at stepped
  subst stepped
  exact ⟨counters, inv.filter_erase member⟩

end Live

/-- The counters after the requests `rs`, against the live blocks and every state on the way. -/
structure Accounted (m : Mem) (rs : List Request) (s : State) : Prop where
  mem : s.heap.usedMem = liveMem s.live
  truly : s.heap.usedTruly = liveTruly s.live
  most : ∀ qs t, qs <+: rs → Run machine (start m) qs t → t.heap.usedMem ≤ s.heap.usedMax
  reached : ∃ qs t, qs <+: rs ∧ Run machine (start m) qs t ∧ t.heap.usedMem = s.heap.usedMax

/-- A request that returns NULL leaves no trace. -/
def Traceless (s : State) (siz : Nat) : Prop :=
  ∀ h, kmAlloc s.heap siz = some (h, 0) →
    (∀ k, k ≤ maxOrd → freeList h k = freeList s.heap k) ∧ h.counters = s.heap.counters

/-- Every request of the run finds an aligned range of its order without a live byte. -/
def Roomy (m : Mem) (rs : List Request) : Prop :=
  ∀ qs t siz ord, qs ++ [.alloc siz] <+: rs → Run machine (start m) qs t →
    size2ord (alignUp siz 4 + hdrSiz) = some ord → Room t.live ord

section Counted
variable {m : Mem} {rs : List Request} {s t : State}

theorem start_accounted (m : Mem) : Accounted m [] (start m) := by
  have none' : ∀ qs t, qs <+: [] → Run machine (start m) qs t → t = start m := by
    intro qs t before run
    obtain rfl := List.prefix_nil.mp before
    exact run_unique run (Run.nil _)
  have zero : (start m).heap.counters = (0, 0, 0) := by rw [start, kmallocInit_eq]; rfl
  obtain ⟨mem, truly, most⟩ : (start m).heap.usedMem = 0 ∧ (start m).heap.usedTruly = 0 ∧
      (start m).heap.usedMax = 0 := by simpa [Heap.counters] using zero
  refine ⟨mem, truly, fun qs t before run => ?_, [], _, List.nil_prefix, Run.nil _, ?_⟩
  · rw [none' qs t before run, mem]
    exact Nat.zero_le _
  · rw [mem, most]

theorem Accounted.extend (before : Accounted m rs t) {r : Request}
    (run : Run machine (start m) (rs ++ [r]) s)
    (mem : s.heap.usedMem = liveMem s.live) (truly : s.heap.usedTruly = liveTruly s.live)
    (top : s.heap.usedMax = max t.heap.usedMax s.heap.usedMem) : Accounted m (rs ++ [r]) s := by
  refine ⟨mem, truly, fun qs u within run' => ?_, ?_⟩
  · rcases List.prefix_concat_iff.mp within with whole | inner
    · subst whole
      rw [run_unique run' run, top]
      exact Nat.le_max_right _ _
    · have earlier := before.most qs u inner run'
      omega
  · by_cases new : t.heap.usedMax ≤ s.heap.usedMem
    · exact ⟨rs ++ [r], s, List.prefix_rfl, run, by omega⟩
    · obtain ⟨qs, u, inner, run', same⟩ := before.reached
      exact ⟨qs, u, inner.trans (List.prefix_append _ _), run', by omega⟩

theorem refund_counters (h : Heap) (ord siz : Nat) : (refund h ord siz).counters =
    ((h.usedMem + 2 ^ 32 - ordSiz ord) % 2 ^ 32, (h.usedTruly + 2 ^ 32 - siz) % 2 ^ 32,
    h.usedMax) := by
  rw [Heap.counters, refund]

theorem subtracted {a b : Nat} (le : b ≤ a) (word : a < 2 ^ 32) :
    (a + 2 ^ 32 - b) % 2 ^ 32 = a - b := by
  rw [Nat.sub_add_comm le, Nat.add_mod_right]
  exact Nat.mod_eq_of_lt (by omega)

theorem step_accounted (before : Accounted m rs t) (run : Run machine (start m) rs t) {r : Request}
    (ok : Legal t r) (stepped : step t r = some s) (roomy : Roomy m (rs ++ [r])) :
    Accounted m (rs ++ [r]) s := by
  obtain ⟨fl, inv⟩ := reach_inv ⟨rs, run⟩
  have run' : Run machine (start m) (rs ++ [r]) s :=
    run_append run (Run.cons ok stepped (Run.nil s))
  obtain ⟨fl', inv'⟩ := reach_inv ⟨_, run'⟩
  have bounded := inv'.live_bounded
  have highest := before.most rs t List.prefix_rfl run
  have mem := before.mem
  have truly := before.truly
  cases r with
  | alloc siz =>
    obtain ⟨ord, order, _, _⟩ := size2ord_spec ok
    obtain ⟨counters, shape⟩ := alloc_counted inv ok order stepped
    have room := roomy rs t siz ord List.prefix_rfl run (by rwa [inRange_words ok])
    obtain ⟨_, o, _, live⟩ := shape.resolve_left fun none' => none'.1 room
    simp only [Heap.counters, charge, Prod.mk.injEq, ordSiz] at counters
    obtain ⟨usedMem, usedTruly, usedMax⟩ := counters
    have newMem : liveMem s.live = 2 ^ ord + liveMem t.live := by rw [live]; rfl
    have newTruly : liveTruly s.live = rounded siz + liveTruly t.live := by rw [live]; rfl
    have memFits : (t.heap.usedMem + 2 ^ ord) % 2 ^ 32 = liveMem s.live := by
      rw [Nat.mod_eq_of_lt (by omega)]
      omega
    simp only [memFits] at usedMem usedMax
    refine before.extend run' usedMem ?_ ?_
    · rw [usedTruly, Nat.mod_eq_of_lt (by omega)]
      omega
    · rw [usedMax, usedMem]
      split
      · omega
      · omega
  | free p =>
    obtain ⟨l, member, rfl⟩ := ok
    obtain ⟨counters, live⟩ := free_counted inv member stepped
    obtain ⟨lessMem, lessTruly⟩ := live_erase member
    rw [refund_counters] at counters
    obtain ⟨usedMem, others⟩ := Prod.mk.inj counters
    obtain ⟨usedTruly, usedMax⟩ := Prod.mk.inj others
    rw [← live] at lessMem lessTruly
    have old := inv.live_bounded
    have size := Nat.two_pow_pos l.block.ord
    rw [ordSiz, subtracted (by omega) (by omega)] at usedMem
    rw [subtracted (by omega) (by omega)] at usedTruly
    refine before.extend run' (by omega) (by omega) ?_
    rw [usedMax, Nat.max_eq_left (by omega)]
  | write a v =>
    obtain rfl := Option.some.inj stepped
    exact before.extend run' mem truly (Nat.max_eq_left highest).symm

theorem roomy_accounted (rs : List Request) :
    ∀ s, Run machine (start m) rs s → Roomy m rs → Accounted m rs s := by
  induction rs using List.reverseRecOn with
  | nil =>
    intro s run _
    rw [run_unique run (Run.nil _)]
    exact start_accounted m
  | append_singleton rs r ih =>
    intro s run roomy
    obtain ⟨t, first, ok, stepped⟩ := run_last run
    have earlier : Roomy m rs := fun qs u siz ord within run' order =>
      roomy qs u siz ord (within.trans (List.prefix_append _ _)) run' order
    exact step_accounted (ih t first earlier) first ok stepped roomy

theorem failure_leaves_trace (reach : Reach machine (start m) t) {siz ord : Nat}
    (range : InRange siz)
    (order : size2ord (rounded siz + hdrSiz) = some ord) (full : ¬ Room t.live ord) :
    ¬ Traceless t siz := by
  intro traceless
  obtain ⟨fl, inv⟩ := reach_inv reach
  obtain ⟨u, _, _, _, stepped, _⟩ := alloc_step inv range order
  obtain ⟨counters, shape⟩ := alloc_counted inv range order stepped
  obtain ⟨_, ran⟩ := shape.resolve_right fun some' => full some'.1
  have same := (traceless u.heap ran).2
  rw [counters] at same
  simp only [Heap.counters, charge, Prod.mk.injEq, ordSiz] at same
  have bounded := inv.live_bounded
  have positive : 0 < rounded siz + hdrSiz := by
    simp only [hdrSiz]
    omega
  have small := (size2ord_order positive order).1
  have most : 2 ^ ord ≤ 2 ^ 31 := Nat.pow_le_pow_right (by omega) small
  have some' := Nat.two_pow_pos ord
  omega

end Counted

/-- Along a run the counters are right and failed requests leave no trace if and only if no
    request fails. -/
theorem accounting_iff (m : Mem) (rs : List Request) (s : State)
    (run : Run machine (start m) rs s) :
    (∀ qs t, qs <+: rs → Run machine (start m) qs t →
        Accounted m qs t ∧ ∀ siz, qs ++ [.alloc siz] <+: rs → Traceless t siz) ↔
      Roomy m rs := by
  have parts : ∀ qs siz t, qs ++ [.alloc siz] <+: rs → Run machine (start m) qs t →
      InRange siz := by
    intro qs siz t within before
    obtain ⟨rest, rfl⟩ := within
    obtain ⟨_, first, _⟩ := run_split run
    obtain ⟨t', before', ok, _⟩ := run_last first
    exact ok
  constructor
  · intro right' qs t siz ord within before order
    have range := parts qs siz t within before
    obtain ⟨_, traceless⟩ := right' qs t ((List.prefix_append _ _).trans within) before
    rw [inRange_words range] at order
    by_contra full
    exact failure_leaves_trace ⟨qs, before⟩ range order full (traceless siz within)
  · intro roomy qs t within before
    have earlier : Roomy m qs := fun ps u siz ord inner run' order =>
      roomy ps u siz ord (inner.trans within) run' order
    refine ⟨roomy_accounted qs t before earlier, fun siz next h ran => ?_⟩
    have range := parts qs siz t next before
    obtain ⟨ord, order, _, _⟩ := size2ord_spec range
    obtain ⟨fl, inv⟩ := reach_inv ⟨qs, before⟩
    obtain ⟨u, _, _, _, stepped, _⟩ := alloc_step inv range order
    obtain ⟨_, shape⟩ := alloc_counted inv range order stepped
    obtain ⟨_, o, ran', _⟩ := shape.resolve_left fun none' =>
      none'.1 (roomy qs t siz ord next before (by rwa [inRange_words range]))
    -- a request with room does not return NULL
    obtain ⟨_, null⟩ := Prod.mk.inj (Option.some.inj (ran.symm.trans ran'))
    have real := addr_ne_zero o
    omega

theorem first_request_roomy : Roomy (fun _ => 0) [.alloc 20] := by
  intro qs t siz ord within run order
  obtain ⟨rest, whole⟩ := within
  have empty : qs = [] := by
    have lengths := congrArg List.length whole
    simp only [List.length_append, List.length_singleton] at lengths
    exact List.eq_nil_of_length_eq_zero (by omega)
  subst empty
  rw [run_unique run (Run.nil _)]
  simp only [List.nil_append, List.singleton_append, List.cons.injEq, Request.alloc.injEq] at whole
  obtain ⟨rfl, _⟩ := whole
  have five : size2ord (alignUp 20 4 + hdrSiz) = some 5 := by decide
  obtain rfl : 5 = ord := Option.some.inj (five.symm.trans order)
  exact ⟨0, Nat.dvd_zero _, by decide, fun _ _ _ l member => absurd member List.not_mem_nil⟩

theorem first_request_accounted : ∃ s, Run machine (start fun _ => 0) [.alloc 20] s ∧
    s.heap.usedMem = 32 := by
  have shape : (step (start fun _ => 0) (.alloc 20)).map State.live = some [⟨⟨5, 0⟩, 20⟩] := by
    decide +kernel
  obtain ⟨s, stepped, live⟩ := Option.map_eq_some_iff.mp shape
  have ok : machine.legal (start fun _ => 0) (.alloc 20) := show InRange 20 by decide
  have run : Run machine (start fun _ => 0) [.alloc 20] s := Run.cons ok stepped (Run.nil s)
  have accounted := ((accounting_iff _ _ s run).mpr first_request_roomy _ s List.prefix_rfl run).1
  refine ⟨s, run, ?_⟩
  rw [accounted.mem, live]
  rfl

/-- A megabyte and its header never fit, and stay counted. -/
theorem failed_request_charged :
    ∃ s, Run machine (start fun _ => 0) [.alloc (2 ^ 20)] s ∧ s.live = [] ∧
    s.heap.usedMem = 2 ^ 21 ∧
      ¬ Accounted (fun _ => 0) [.alloc (2 ^ 20)] s ∧ ¬ Traceless (start fun _ => 0) (2 ^ 20) := by
  have shape : (step (start fun _ => 0) (.alloc (2 ^ 20))).map (fun s => (s.live, s.heap.usedMem)) =
      some ([], 2 ^ 21) := by
    decide +kernel
  obtain ⟨s, stepped, values⟩ := Option.map_eq_some_iff.mp shape
  obtain ⟨live, used⟩ := Prod.mk.inj values
  have ok : machine.legal (start fun _ => 0) (.alloc (2 ^ 20)) := show InRange (2 ^ 20) by decide
  refine ⟨s, Run.cons ok stepped (Run.nil s), live, used, fun accounted => ?_, ?_⟩
  · have mem := accounted.mem
    rw [used, live] at mem
    exact absurd mem (by decide)
  · have order : size2ord (rounded (2 ^ 20) + hdrSiz) = some 21 := by decide
    refine failure_leaves_trace ⟨[], Run.nil _⟩ ok order ?_
    rintro ⟨o, _, inside, _⟩
    simp only [extMemSiz] at inside
    omega

end Buddy
