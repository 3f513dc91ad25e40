import NoobOs.Mem.Layout

/- What one request does to the layout. -/
namespace Buddy
open ByteMemory LinkedChain DyadicTiling

theorem and_clear_low {n w k : Nat} (word : n < 2 ^ w) (le : k ≤ w) :
    n &&& (2 ^ w - 2 ^ k) = n / 2 ^ k * 2 ^ k := by
  have bits : ∀ i, (2 ^ w - 2 ^ k).testBit i = (decide (i < w) && !decide (i < k)) := by
    intro i
    have pos := Nat.two_pow_pos k
    have small : 2 ^ k - 1 < 2 ^ w := by
      have := Nat.pow_le_pow_right (show 0 < 2 by omega) le
      omega
    have shape : 2 ^ w - 2 ^ k = 2 ^ w - ((2 ^ k - 1) + 1) := by rw [Nat.sub_add_cancel pos]
    rw [shape, Nat.testBit_two_pow_sub_succ small, Nat.testBit_two_pow_sub_one]
  apply Nat.eq_of_testBit_eq
  intro i
  rw [Nat.testBit_and, bits, Nat.testBit_mul_two_pow, Nat.testBit_div_two_pow]
  by_cases low : i < k
  · simp [low, Nat.not_le.mpr low]
  · by_cases high : i < w
    · simp [low, high, Nat.not_lt.mp low]
    · have zero : n.testBit i = false :=
        Nat.testBit_lt_two_pow (Nat.lt_of_lt_of_le word
          (Nat.pow_le_pow_right (by omega) (by omega)))
      simp [low, high, Nat.not_lt.mp low, zero]

def rounded (siz : Nat) : Nat := (siz + 3) / 4 * 4

theorem alignUp_word {siz : Nat} (bound : siz + 3 < 2 ^ 32) : alignUp siz 4 = rounded siz := by
  unfold alignUp rounded
  rw [show siz + 4 - 1 = siz + 3 by omega, Nat.mod_eq_of_lt bound]
  exact and_clear_low (k := 2) bound (by omega)

theorem alignUp_spec {x k : Nat} (fits : x + 2 ^ k - 1 < 2 ^ 32) (le : k ≤ 32) :
    x ≤ alignUp x (2 ^ k) ∧ alignUp x (2 ^ k) < x + 2 ^ k ∧ 2 ^ k ∣ alignUp x (2 ^ k) := by
  have pos := Nat.two_pow_pos k
  have cleared : alignUp x (2 ^ k) = (x + 2 ^ k - 1) / 2 ^ k * 2 ^ k := by
    unfold alignUp
    rw [Nat.mod_eq_of_lt fits]
    exact and_clear_low fits le
  have parts := Nat.div_add_mod' (x + 2 ^ k - 1) (2 ^ k)
  have small := Nat.mod_lt (x + 2 ^ k - 1) pos
  rw [cleared]
  exact ⟨by omega, by omega, Nat.dvd_mul_left _ _⟩

theorem size2ordFrom_spec {siz : Nat} (bound : siz ≤ 2 ^ 31) :
    ∀ (fuel ord : Nat), ord ≤ 31 → 31 - ord < fuel →
      ∃ r, size2ordFrom fuel (2 ^ ord) ord siz = some r ∧ ord ≤ r ∧ siz ≤ 2 ^ r := by
  intro fuel
  induction fuel with
  | zero => intro ord _ enough; omega
  | succ fuel ih =>
    intro ord small enough
    by_cases more : 2 ^ ord < siz
    · have strict : ord < 31 := by
        have : 2 ^ ord < 2 ^ 31 := by omega
        exact (Nat.pow_lt_pow_iff_right (by omega)).mp this
      have step : 2 ^ ord * 2 % 2 ^ 32 = 2 ^ (ord + 1) := by
        rw [← Nat.pow_succ]
        exact Nat.mod_eq_of_lt (Nat.pow_lt_pow_right (by omega) (by omega))
      obtain ⟨r, ran, ge, fits⟩ := ih (ord + 1) (by omega) (by omega)
      refine ⟨r, ?_, by omega, fits⟩
      rw [size2ordFrom, if_pos more, step]
      exact ran
    · exact ⟨ord, by rw [size2ordFrom, if_neg more], Nat.le_refl _, by omega⟩

theorem size2ord_spec {siz : Nat} (bound : siz ≤ 2 ^ 31) :
    ∃ ord, size2ord siz = some ord ∧ minOrd ≤ ord ∧ siz ≤ 2 ^ ord :=
  size2ordFrom_spec bound 64 minOrd (by decide) (by decide)

theorem size2ordFrom_stuck {siz : Nat} (some' : 0 < siz) :
    ∀ fuel ord, size2ordFrom fuel 0 ord siz = none := by
  intro fuel
  induction fuel with
  | zero => intro ord; rfl
  | succ fuel ih =>
    intro ord
    rw [size2ordFrom, if_pos some', Nat.zero_mul, Nat.zero_mod, ih]

theorem size2ordFrom_order {siz : Nat} (some' : 0 < siz) :
    ∀ (fuel ord r : Nat), ord ≤ 31 → size2ordFrom fuel (2 ^ ord) ord siz = some r → r ≤ 31 ∧
    siz ≤ 2 ^ r := by
  intro fuel
  induction fuel with
  | zero => intro ord r _ ran; simp [size2ordFrom] at ran
  | succ fuel ih =>
    intro ord r small ran
    rw [size2ordFrom] at ran
    by_cases more : 2 ^ ord < siz
    · rw [if_pos more] at ran
      by_cases last : ord = 31
      · subst last
        rw [show 2 ^ 31 * 2 % 2 ^ 32 = 0 by decide, size2ordFrom_stuck some'] at ran
        exact absurd ran (by simp)
      · have step : 2 ^ ord * 2 % 2 ^ 32 = 2 ^ (ord + 1) := by
          rw [← Nat.pow_succ]
          exact Nat.mod_eq_of_lt (Nat.pow_lt_pow_right (by omega) (by omega))
        rw [step] at ran
        exact ih (ord + 1) r (by omega) ran
    · rw [if_neg more] at ran
      obtain rfl := Option.some.inj ran
      exact ⟨small, by omega⟩

theorem size2ord_order {siz ord : Nat} (some' : 0 < siz) (found : size2ord siz = some ord) :
    ord ≤ 31 ∧ siz ≤ 2 ^ ord :=
  size2ordFrom_order some' 64 minOrd ord (by decide) found

theorem firstFree_spec (h : Heap) : ∀ n cur, maxOrd < cur + n →
    cur ≤ firstFree h n cur ∧ (∀ j, cur ≤ j → j < firstFree h n cur → h.free j = 0) ∧
      (firstFree h n cur ≤ maxOrd → h.free (firstFree h n cur) ≠ 0) := by
  intro n
  induction n with
  | zero =>
    intro cur enough
    simp only [firstFree]
    exact ⟨Nat.le_refl _, fun j low high => by omega, fun le => by omega⟩
  | succ n ih =>
    intro cur enough
    by_cases empty : cur ≤ maxOrd ∧ h.free cur = 0
    · obtain ⟨ge, skipped, stop⟩ := ih (cur + 1) (by omega)
      rw [firstFree, if_pos empty]
      refine ⟨by omega, ?_, stop⟩
      intro j low high
      by_cases same : j = cur
      · exact same ▸ empty.2
      · exact skipped j (by omega) high
    · rw [firstFree, if_neg empty]
      refine ⟨Nat.le_refl _, fun j low high => by omega, ?_⟩
      intro le zero
      exact empty ⟨le, zero⟩

section Counters
variable (h : Heap) (ord siz : Nat)

-- `rfl` on the folded records would compare the counters as unary numbers
@[simp] theorem charge_mem : (charge h ord siz).mem = h.mem := by rw [charge]
@[simp] theorem charge_base : (charge h ord siz).base = h.base := by rw [charge]
@[simp] theorem charge_siz : (charge h ord siz).siz = h.siz := by rw [charge]
@[simp] theorem charge_free : (charge h ord siz).free = h.free := by rw [charge]
@[simp] theorem refund_mem : (refund h ord siz).mem = h.mem := by rw [refund]
@[simp] theorem refund_base : (refund h ord siz).base = h.base := by rw [refund]
@[simp] theorem refund_siz : (refund h ord siz).siz = h.siz := by rw [refund]
@[simp] theorem refund_free : (refund h ord siz).free = h.free := by rw [refund]

end Counters

section Requests
variable {h : Heap} {fl : Nat → List Nat} {used : Set Block}

theorem charge_layout (lay : Layout h fl used) (ord siz : Nat) :
    Layout (charge h ord siz) fl used :=
  ⟨by simpa using lay.base, by simpa using lay.siz, by simpa using lay.links, lay.sorted,
    lay.tiled, lay.large⟩

theorem refund_layout (lay : Layout h fl used) (ord siz : Nat) :
    Layout (refund h ord siz) fl used :=
  ⟨by simpa using lay.base, by simpa using lay.siz, by simpa using lay.links, lay.sorted,
    lay.tiled, lay.large⟩

theorem Layout.list_empty (lay : Layout h fl used) (k : Nat) : h.free k = 0 ↔ fl k = [] := by
  have null := chain_null_iff (lay.links k)
  simpa using null

theorem Layout.high_empty (lay : Layout h fl used) {k : Nat} (high : maxOrd < k) : fl k = [] := by
  rw [List.eq_nil_iff_forall_not_mem]
  intro o member
  have tile : (Role.free, Block.mk k o) ∈ tilesOf fl used := by simpa using member
  have le := order_bound (lay.tiled.inside _ tile)
  simp only at le
  omega

theorem Layout.held_apart {b c : Block} (lay : Layout h fl (insert b used)) (fresh : b ∉ used)
    (member : c ∈ used) {x : Nat} (here : b.Has x) : ¬ c.Has x := by
  intro there
  have tb : (Role.used, b) ∈ tilesOf fl (insert b used) := by simp
  have tc : (Role.used, c) ∈ tilesOf fl (insert b used) := by simp [member]
  have same := lay.tiled.unique _ tb _ tc x here there
  simp only [Prod.mk.injEq, true_and] at same
  exact fresh (same ▸ member)

def Frame (h h' : Heap) (used : Set Block) : Prop :=
  ∀ c ∈ used, AgreeOn h.mem h'.mem (addr c.off) (addr c.off + 2 ^ c.ord)

theorem Frame.refl (h : Heap) (used : Set Block) : Frame h h used := fun _ _ _ _ _ => rfl

theorem Frame.trans {h h' h'' : Heap} {used : Set Block} (first : Frame h h' used)
    (second : Frame h' h'' used) : Frame h h'' used :=
  fun c member => (first c member).trans (second c member)

theorem Frame.mono {h h' : Heap} {used used' : Set Block} (frame : Frame h h' used')
    (sub : used ⊆ used') : Frame h h' used :=
  fun c member => frame c (sub member)

/-- Splitting the held block `⟨cur, o⟩` down to order `ord` leaves one free block,
    the upper half, on each list passed. -/
theorem splitDown_layout {o ord : Nat} (large : minOrd ≤ ord) :
    ∀ (cur : Nat) (h : Heap) (fl : Nat → List Nat), ord ≤ cur →
      Layout h fl (insert ⟨cur, o⟩ used) → ⟨cur, o⟩ ∉ used →
      (∀ j, ord ≤ j → j < cur → fl j = []) →
      ∃ h' fl', splitDown h (addr o) ord cur = some h' ∧
        Layout h' fl' (insert ⟨ord, o⟩ used) ∧ ⟨ord, o⟩ ∉ used ∧ Frame h h' used ∧
        h'.counters = h.counters ∧ (∀ j, j < ord ∨ cur ≤ j → fl' j = fl j) ∧
        ∀ j, ord ≤ j → j < cur → fl' j = [o + 2 ^ j] := by
  intro cur
  induction cur with
  | zero =>
    intro h fl le lay fresh _
    obtain rfl : ord = 0 := by omega
    exact ⟨h, fl, rfl, lay, fresh, Frame.refl h used, rfl, fun _ _ => rfl, fun j _ _ => by omega⟩
  | succ k ih =>
    intro h fl le lay fresh empty
    by_cases more : ord < k + 1
    · have large' : minOrd ≤ k := by omega
      have halves := lay.halved fresh large'
      have outside : ∀ c ∈ used, ∀ x, (Block.mk (k + 1) o).Has x → ¬ c.Has x :=
        fun c member x here => lay.held_apart fresh member here
      have double := size_succ k
      have pos := size_pos k
      have freshLow : ⟨k, o⟩ ∉ used := by
        intro member
        exact outside _ member o ⟨by simp, by simp only; omega⟩ (has_start ⟨k, o⟩)
      have freshHigh : ⟨k, o + 2 ^ k⟩ ∉ insert (Block.mk k o) used := by
        rintro (same | member)
        · simp only [Block.mk.injEq, true_and] at same
          omega
        · exact outside _ member (o + 2 ^ k) ⟨by simp only; omega, by simp only; omega⟩
            (has_start ⟨k, o + 2 ^ k⟩)
      obtain ⟨h1, ran, lay1, counters1, frame1⟩ := insertBlock_layout halves freshHigh
      simp only at ran lay1
      rw [empty k (by omega) (by omega), List.orderedInsert_nil] at lay1
      obtain ⟨h', fl', ran', lay', fresh', frame', counters', kept, split⟩ :=
        ih h1 (Function.update fl k [o + 2 ^ k]) (by omega) lay1 freshLow (by
          intro j low high
          rw [Function.update_of_ne (by omega)]
          exact empty j low (by omega))
      refine ⟨h', fl', ?_, lay', fresh', ?_, counters'.trans counters1, ?_, ?_⟩
      · have next : addr o + ordSiz k = addr (o + 2 ^ k) := by
          simp only [addr, ordSiz]; omega
        rw [splitDown, if_pos more, next, ran]
        exact ran'
      · exact Frame.trans (Frame.mono frame1 (Set.subset_insert _ _)) frame'
      · intro j range
        rw [kept j (by omega), Function.update_of_ne (by omega)]
      · intro j low high
        by_cases same : j = k
        · subst same
          rw [kept j (by omega), Function.update_self]
        · exact split j low (by omega)
    · obtain rfl : ord = k + 1 := by omega
      refine ⟨h, fl, ?_, lay, fresh, Frame.refl h used, rfl, fun _ _ => rfl,
        fun j _ _ => by omega⟩
      rw [splitDown, if_neg more]

/-- The requests in the allocator's range: the rounded size and the header fit 2^31 bytes. -/
def InRange (siz : Nat) : Prop := rounded siz + hdrSiz ≤ 2 ^ 31

instance (siz : Nat) : Decidable (InRange siz) := inferInstanceAs (Decidable (_ ≤ _))

structure Header (m : Mem) (a ord siz : Nat) : Prop where
  size : load32 m a = siz
  magic : load32 m (a + 4) = hdrMagic
  ord : (m (a + 8)).toNat = ord

theorem Header.frame {m m' : Mem} {a ord siz : Nat} (header : Header m a ord siz)
    (same : AgreeOn m m' a (a + hdrSiz)) : Header m' a ord siz where
  size := (load32_congr (same.mono (Nat.le_refl _) (by simp [hdrSiz]))).trans header.size
  magic := (load32_congr (same.mono (by omega) (by simp [hdrSiz]))).trans header.magic
  ord := by
    rw [same (a + 8) (by omega) (by simp [hdrSiz])]
    exact header.ord

theorem writeHdr_header (h : Heap) {bl ord siz : Nat} (small : ord < 256) (word : siz < 2 ^ 32) :
    Header (writeHdr h bl ord siz).mem bl ord siz where
  size := load32_store32_same _ bl word
  magic := by
    simp only [writeHdr]
    rw [load32_store32_apart _ _ (by omega)]
    exact load32_store32_same _ _ (by decide)
  ord := by
    simp only [writeHdr]
    rw [store32_other _ _ (by omega), store32_other _ _ (by omega), store8_same]
    simpa using small

theorem writeHdr_outside (h : Heap) {bl ord siz x : Nat} (outside : x < bl ∨ bl + hdrSiz ≤ x) :
    (writeHdr h bl ord siz).mem x = h.mem x := by
  simp only [hdrSiz] at outside
  simp only [writeHdr]
  rw [store32_other _ _ (by omega), store32_other _ _ (by omega), store8_other _ _ (by omega)]

theorem kmAlloc_ordered {siz r ord : Nat} (words : alignUp siz 4 = r)
    (order : size2ord ((r + hdrSiz) % 2 ^ 32) = some ord) :
    kmAlloc h siz =
      if maxOrd < ord then some (charge h ord r, 0)
      else if maxOrd < firstFree h (maxOrd + 1) ord then some (charge h ord r, 0)
      else
        (splitDown ((charge h ord r).set (.head (firstFree h (maxOrd + 1) ord))
          (load32 h.mem (h.free (firstFree h (maxOrd + 1) ord))))
          (h.free (firstFree h (maxOrd + 1) ord)) ord (firstFree h (maxOrd + 1) ord)).map
          fun h' => (writeHdr h' (h.free (firstFree h (maxOrd + 1) ord)) ord r,
            h.free (firstFree h (maxOrd + 1) ord) + hdrSiz) := by
  have search : ∀ n cur, firstFree (charge h ord r) n cur = firstFree h n cur := by
    intro n
    induction n with
    | zero => intro cur; rfl
    | succ n ih => intro cur; simp only [firstFree, ih, charge_free]
  simp only [kmAlloc, words, order, Option.bind_eq_bind, Option.bind_some,
    search, charge_free, charge_mem, Option.pure_def]
  split
  · rfl
  · split
    · rfl
    · cases splitDown _ _ _ _ <;> rfl

theorem inRange_total {siz : Nat} (range : InRange siz) :
    (rounded siz + hdrSiz) % 2 ^ 32 = rounded siz + hdrSiz := by
  simp only [InRange] at range
  exact Nat.mod_eq_of_lt (by omega)

theorem inRange_word {siz : Nat} (range : InRange siz) : rounded siz < 2 ^ 32 := by
  simp only [InRange] at range
  omega

theorem inRange_words {siz : Nat} (range : InRange siz) : alignUp siz 4 = rounded siz := by
  refine alignUp_word ?_
  simp only [InRange, rounded, hdrSiz] at range
  omega

theorem kmAlloc_fails {siz r ord : Nat} (lay : Layout h fl used) (words : alignUp siz 4 = r)
    (order : size2ord ((r + hdrSiz) % 2 ^ 32) = some ord) (empty : ∀ j, ord ≤ j → fl j = []) :
    kmAlloc h siz = some (charge h ord r, 0) := by
  rw [kmAlloc_ordered words order]
  split
  · rfl
  · obtain ⟨ge, _, stop⟩ := firstFree_spec h (maxOrd + 1) ord (by omega)
    rw [if_pos]
    by_contra low
    exact stop (by omega) ((lay.list_empty _).mpr (empty _ ge))

theorem kmAlloc_none {siz ord : Nat} (lay : Layout h fl used) (range : InRange siz)
    (order : size2ord (rounded siz + hdrSiz) = some ord) (empty : ∀ j, ord ≤ j → fl j = []) :
    kmAlloc h siz = some (charge h ord (rounded siz), 0) :=
  kmAlloc_fails lay (inRange_words range) (by rwa [inRange_total range]) empty

theorem first_full {ord : Nat} (full : ¬ ∀ j, ord ≤ j → fl j = []) :
    ∃ cur o rest, ord ≤ cur ∧ (∀ j, ord ≤ j → j < cur → fl j = []) ∧ fl cur = o :: rest := by
  have some' : ∃ j, ord ≤ j ∧ fl j ≠ [] := by
    by_contra none
    refine full fun j ge => ?_
    by_contra full'
    exact none ⟨j, ge, full'⟩
  obtain ⟨up, full'⟩ := Nat.find_spec some'
  obtain ⟨o, rest, first⟩ := List.exists_cons_of_ne_nil full'
  refine ⟨Nat.find some', o, rest, up, ?_, first⟩
  intro j ge lt
  by_contra other
  exact Nat.find_min some' lt ⟨ge, other⟩

theorem kmAlloc_takes {siz r ord cur o : Nat} {rest : List Nat} (lay : Layout h fl used)
    (words : alignUp siz 4 = r) (word : r < 2 ^ 32)
    (order : size2ord ((r + hdrSiz) % 2 ^ 32) = some ord)
    (large : minOrd ≤ ord) (up : ord ≤ cur)
    (empty : ∀ j, ord ≤ j → j < cur → fl j = []) (first : fl cur = o :: rest) :
    ∃ h' fl', kmAlloc h siz = some (h', addr o + hdrSiz) ∧
      Layout h' fl' (insert ⟨ord, o⟩ used) ∧ ⟨ord, o⟩ ∉ used ∧ Frame h h' used ∧
      h'.counters = (charge h ord r).counters ∧
      Header h'.mem (addr o) ord r ∧ fl' cur = rest ∧
      (∀ j, j < ord ∨ cur < j → fl' j = fl j) ∧ ∀ j, ord ≤ j → j < cur → fl' j = [o + 2 ^ j] := by
  have low : cur ≤ maxOrd := by
    by_contra high
    have nothing := lay.high_empty (Nat.not_le.mp high)
    simp [first] at nothing
  obtain ⟨ge, skipped, stop⟩ := firstFree_spec h (maxOrd + 1) ord (by omega)
  have found : firstFree h (maxOrd + 1) ord = cur := by
    apply Nat.le_antisymm
    · by_contra beyond
      have null := (lay.list_empty cur).mp (skipped cur up (by omega))
      simp [first] at null
    · by_contra before
      have before' := Nat.not_le.mp before
      exact stop (by omega) ((lay.list_empty _).mpr (empty _ ge before'))
  have held := charge_layout lay ord r
  obtain ⟨head, popped⟩ := pop_layout held first
  rw [charge_free] at head
  rw [charge_mem] at popped
  have tile : (Role.free, Block.mk cur o) ∈ tilesOf fl used := by simp [first]
  have freshCur : ⟨cur, o⟩ ∉ used := by
    intro member
    have other : (Role.used, Block.mk cur o) ∈ tilesOf fl used := by simpa using member
    have same := lay.tiled.unique _ tile _ other o (has_start ⟨cur, o⟩) (has_start ⟨cur, o⟩)
    simp at same
  obtain ⟨h1, fl1, ran, lay1, fresh1, frame1, counters1, kept, split⟩ :=
    splitDown_layout large cur _ _ up popped freshCur (by
      intro j lo hi
      rw [Function.update_of_ne (by omega)]
      exact empty j lo hi)
  have ordSmall : ord < 256 := by
    simp only [maxOrd] at low
    omega
  have room : 32 ≤ 2 ^ ord := Nat.pow_le_pow_right (show 0 < 2 by omega) large
  have outside : ∀ x, x < addr o ∨ addr o + 2 ^ ord ≤ x →
      (writeHdr h1 (addr o) ord r).mem x = h1.mem x := by
    intro x away
    refine writeHdr_outside h1 ?_
    simp only [hdrSiz]
    omega
  refine ⟨writeHdr h1 (addr o) ord r, fl1, ?_, ?_, fresh1, ?_, counters1, ?_, ?_, ?_,
    split⟩
  · rw [kmAlloc_ordered words order, found, head, if_neg (by omega), if_neg (by omega), ran,
      Option.map_some]
  · exact lay1.scribble (b := ⟨ord, o⟩) (by simp) outside
  · intro c member x lo hi
    have before := frame1 c member x lo hi
    refine (outside x ?_).trans before
    by_contra inside
    have hereC : c.Has (x - extMemBase) := by
      simp only [Block.Has, addr] at *
      omega
    have hereO : (Block.mk ord o).Has (x - extMemBase) := by
      simp only [Block.Has, addr] at *
      omega
    exact lay1.held_apart fresh1 member hereO hereC
  · exact writeHdr_header h1 ordSmall word
  · rw [kept cur (Or.inr (Nat.le_refl _)), Function.update_self]
  · intro j range'
    rw [kept j (by omega), Function.update_of_ne (by omega)]

theorem kmAlloc_some {siz ord cur o : Nat} {rest : List Nat} (lay : Layout h fl used)
    (range : InRange siz) (order : size2ord (rounded siz + hdrSiz) = some ord)
    (large : minOrd ≤ ord) (up : ord ≤ cur)
    (empty : ∀ j, ord ≤ j → j < cur → fl j = []) (first : fl cur = o :: rest) :
    ∃ h' fl', kmAlloc h siz = some (h', addr o + hdrSiz) ∧
      Layout h' fl' (insert ⟨ord, o⟩ used) ∧ ⟨ord, o⟩ ∉ used ∧ Frame h h' used ∧
      h'.counters = (charge h ord (rounded siz)).counters ∧
      Header h'.mem (addr o) ord (rounded siz) ∧ fl' cur = rest ∧
      (∀ j, j < ord ∨ cur < j → fl' j = fl j) ∧ ∀ j, ord ≤ j → j < cur → fl' j = [o + 2 ^ j] := by
  exact kmAlloc_takes lay (inRange_words range) (inRange_word range)
    (by rwa [inRange_total range]) large up
    empty first

/-- No two buddies on one list below the top. -/
def NoBuddies (fl : Nat → List Nat) : Prop :=
  ∀ k, k < maxOrd → ∀ o ∈ fl k, o ^^^ 2 ^ k ∉ fl k

theorem coalesced_iff : Coalesced maxOrd Role.free (tilesOf fl used) ↔ NoBuddies fl := by
  constructor
  · intro coalesced k below o member
    have none := coalesced ⟨k, o⟩ below (by simpa using member)
    simpa [Block.buddy] using none
  · intro apart b below member
    have none := apart b.ord below b.off (by simpa using member)
    simpa [Block.buddy] using none

theorem NoBuddies.erase (apart : NoBuddies fl) (k o : Nat) :
    NoBuddies (Function.update fl k ((fl k).erase o)) := by
  intro j below p member other
  by_cases same : j = k
  · subst same
    rw [Function.update_self] at member other
    exact apart j below p (List.mem_of_mem_erase member) (List.mem_of_mem_erase other)
  · rw [Function.update_of_ne same] at member other
    exact apart j below p member other

theorem xor_xor_size (o k : Nat) : (o ^^^ 2 ^ k) ^^^ 2 ^ k = o := by
  rw [Nat.xor_assoc, Nat.xor_self, Nat.xor_zero]

theorem NoBuddies.insert (apart : NoBuddies fl) {b : Block} (aligned : b.Aligned)
    (alone : b.ord < maxOrd → b.buddy.off ∉ fl b.ord) :
    NoBuddies (Function.update fl b.ord ((fl b.ord).orderedInsert (· ≤ ·) b.off)) := by
  intro j below p member other
  by_cases same : j = b.ord
  · subst same
    rw [Function.update_self, List.mem_orderedInsert] at member other
    have alone' := alone below
    simp only [Block.buddy] at alone'
    rcases member with rfl | old
    · rcases other with eq | old'
      · exact buddy_ne aligned eq
      · exact alone' old'
    · rcases other with eq | old'
      · rw [← eq, xor_xor_size] at alone'
        exact alone' old
      · exact apart b.ord below p old old'
  · rw [Function.update_of_ne same] at member other
    exact apart j below p member other

/-- The coalescing loop climbs with the held block until its buddy is not free. -/
theorem coalesce_layout : ∀ (n : Nat) (b : Block) (h : Heap) (fl : Nat → List Nat),
    maxOrd ≤ b.ord + n → Layout h fl (insert b used) → b ∉ used → NoBuddies fl →
    ∃ h' fl' b', coalesce n h b.off b.ord = some (h', b'.off, b'.ord) ∧
      Layout h' fl' (insert b' used) ∧ b' ∉ used ∧ NoBuddies fl' ∧
      (b'.ord < maxOrd → b'.buddy.off ∉ fl' b'.ord) ∧ h'.counters = h.counters ∧
      Frame h h' used ∧ ∀ x, b.Has x → b'.Has x := by
  intro n
  induction n with
  | zero =>
    intro b h fl enough lay fresh apart
    exact ⟨h, fl, b, rfl, lay, fresh, apart, fun below => by omega, rfl, Frame.refl h used,
      fun _ here => here⟩
  | succ n ih =>
    intro b h fl enough lay fresh apart
    by_cases below : b.ord < maxOrd
    · have tile : (Role.used, b) ∈ tilesOf fl (insert b used) := by simp
      have aligned := lay.tiled.aligned _ tile
      have inside := buddy_inside aligned (lay.tiled.inside _ tile) below
      have bound : ¬ h.siz ≤ b.off ^^^ ordSiz b.ord := by
        have pos := size_pos b.ord
        simp only [Block.Inside, Block.buddy, maxOrd] at inside
        rw [lay.siz]
        simp only [extMemSiz, ordSiz]
        omega
      have target : h.base + (b.off ^^^ ordSiz b.ord) = addr b.buddy.off := by
        rw [lay.base]
        rfl
      by_cases listed : b.buddy.off ∈ fl b.ord
      · obtain ⟨h1, ran, lay1, counters1, frame1⟩ :=
          removeBlock_layout (b := b.buddy) lay listed
        have freshBuddy : b.buddy ∉ used := by
          intro member
          have free : (Role.free, b.buddy) ∈ tilesOf fl (insert b used) := by
            simpa [Block.buddy] using listed
          have other : (Role.used, b.buddy) ∈ tilesOf fl (insert b used) := by simp [member]
          have same := lay.tiled.unique _ free _ other _ (has_start b.buddy) (has_start b.buddy)
          simp at same
        have joined := lay1.joined fresh freshBuddy below
        have freshParent : b.parent ∉ used := by
          intro member
          have here := (parent_has_iff aligned b.off).mpr (Or.inl (has_start b))
          exact lay.held_apart fresh member (has_start b) here
        obtain ⟨h', fl', b', ran', lay', fresh', apart', alone, counters', frame', grows⟩ :=
          ih b.parent h1 _ (by simp only [Block.parent]; omega) joined freshParent
            (apart.erase b.ord b.buddy.off)
        refine ⟨h', fl', b', ?_, lay', fresh', apart', alone, counters'.trans counters1,
          Frame.trans (Frame.mono frame1 (Set.subset_insert _ _)) frame', ?_⟩
        · have smaller : (if b.off ^^^ ordSiz b.ord < b.off then b.off ^^^ ordSiz b.ord else b.off)
              = b.parent.off := by
            have same : b.parent.off = min b.off (b.off ^^^ ordSiz b.ord) := rfl
            rw [same]
            split <;> omega
          have ran1 : removeBlock h b.ord (addr b.buddy.off) = some (h1, true) := ran
          rw [coalesce, if_pos below]
          simp only [if_neg bound, target, ran1, Option.bind_eq_bind, Option.bind_some, if_true,
            smaller]
          exact ran'
        · intro x here
          exact grows x ((parent_has_iff aligned x).mpr (Or.inl here))
      · have ran : removeBlock h b.ord (addr b.buddy.off) = some (h, false) :=
          removeBlock_layout_absent (b := b.buddy) lay listed
        refine ⟨h, fl, b, ?_, lay, fresh, apart, fun _ => listed, rfl, Frame.refl h used,
          fun _ here => here⟩
        rw [coalesce, if_pos below]
        simp only [if_neg bound, target, ran, Option.bind_eq_bind, Option.bind_some]
        rfl
    · refine ⟨h, fl, b, ?_, lay, fresh, apart, fun lt => absurd lt below, rfl,
        Frame.refl h used, fun _ here => here⟩
      rw [coalesce, if_neg below]

theorem kmFree_eq {o ord siz : Nat} (base : h.base = extMemBase)
    (header : Header h.mem (addr o) ord siz) :
    kmFree h (addr o + hdrSiz) = (coalesce maxOrd (refund h ord siz) o ord).bind fun r =>
      insertBlock { r.1 with mem := store32 r.1.mem (addr o + 4) 0 } r.2.2 (r.1.base + r.2.1) := by
  have start : addr o + hdrSiz - hdrSiz = addr o := Nat.add_sub_cancel _ _
  have offset : addr o - (refund h ord siz).base = o := by
    simp only [refund_base, base, addr]
    omega
  have nonnull : addr o + hdrSiz ≠ 0 := by
    have real := addr_ne_zero o
    omega
  unfold kmFree
  rw [if_neg nonnull]
  simp only [start, header.magic, header.ord, header.size, ne_eq, not_true_eq_false, if_false,
    offset, Option.bind_eq_bind]

/-- Freeing a block with an intact header returns and leaves the lists coalesced. -/
theorem kmFree_layout {b : Block} {siz : Nat} (lay : Layout h fl (insert b used)) (fresh : b ∉ used)
    (apart : NoBuddies fl) (header : Header h.mem (addr b.off) b.ord siz) :
    ∃ h' fl', kmFree h (addr b.off + hdrSiz) = some h' ∧ Layout h' fl' used ∧ NoBuddies fl' ∧
      Frame h h' used ∧ h'.counters = (refund h b.ord siz).counters := by
  have lay0 := refund_layout lay b.ord siz
  obtain ⟨h1, fl1, b1, ran1, lay1, fresh1, apart1, alone, counters1, frame1, grows⟩ :=
    coalesce_layout maxOrd b (refund h b.ord siz) fl (by omega) lay0 fresh apart
  -- the stale header lies in the coalesced block
  have tile1 : (Role.used, b1) ∈ tilesOf fl1 (insert b1 used) := by simp
  have tile : (Role.used, b) ∈ tilesOf fl (insert b used) := by simp
  have size := lay.size_ge tile
  have magicInside : addr b1.off ≤ addr b.off + 4 ∧
      addr b.off + 8 ≤ addr b1.off + 2 ^ b1.ord := by
    have first := grows b.off (has_start b)
    have last := grows (b.off + 8) ⟨by omega, by simp only at size; omega⟩
    simp only [Block.Has, addr] at *
    omega
  have lay2 : Layout { h1 with mem := store32 h1.mem (addr b.off + 4) 0 } fl1 (insert b1 used) := by
    refine lay1.scribble (b := b1) (by simp) ?_
    intro x outside
    exact store32_other _ _ (by omega)
  obtain ⟨h', ran', lay', counters', frame'⟩ := insertBlock_layout lay2 fresh1
  refine ⟨h', _, ?_, lay', apart1.insert (lay1.tiled.aligned _ tile1) alone, ?_,
    counters'.trans counters1⟩
  · have place : h1.base + b1.off = addr b1.off := by
      rw [lay1.base]
      rfl
    rw [kmFree_eq lay.base header, ran1, Option.bind_some]
    simp only [place]
    exact ran'
  · intro c member x lo hi
    refine (frame' c member x lo hi).trans (Eq.trans ?_ (frame1 c member x lo hi))
    refine store32_other _ _ ?_
    by_contra inside
    have hereC : c.Has (x - extMemBase) := by
      simp only [Block.Has, addr] at *
      omega
    have hereB : b1.Has (x - extMemBase) := by
      simp only [Block.Has, addr] at *
      omega
    exact lay1.held_apart fresh1 member hereB hereC

end Requests

end Buddy
