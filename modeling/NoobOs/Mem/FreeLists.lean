import NoobOs.Mem.Buddy

/- The list operations of the allocator as operations on the sequence of
   addresses a chain of `next` words visits. -/
namespace Buddy
open ByteMemory LinkedChain

/-- The cell a walk of list `k` stands at: the head, or the `next` word of a node. -/
def linkAt (k : Nat) : Option Nat → Link
  | none => .head k
  | some y => .next y

def Heap.counters (h : Heap) : Nat × Nat × Nat := (h.usedMem, h.usedTruly, h.usedMax)

/-- Everything kept when only list `k` and the words at `cells` may be written. -/
structure Keeps (h h' : Heap) (k : Nat) (cells : List Nat) : Prop where
  heads : ∀ j, j ≠ k → h'.free j = h.free j
  mem : ∀ x, (∀ a ∈ cells, x < a ∨ a + 4 ≤ x) → h'.mem x = h.mem x
  base : h'.base = h.base
  siz : h'.siz = h.siz
  counters : h'.counters = h.counters

def Apart (a b : Nat) : Prop := a + 4 ≤ b ∨ b + 4 ≤ a

theorem Apart.symm {a b : Nat} (apart : Apart a b) : Apart b a := Or.symm apart

theorem Keeps.load {h h' : Heap} {k : Nat} {cells : List Nat} (keeps : Keeps h h' k cells)
    {a : Nat} (apart : ∀ c ∈ cells, Apart a c) : load32 h'.mem a = load32 h.mem a := by
  refine load32_congr ?_
  intro x low high
  refine keeps.mem x ?_
  intro c member
  rcases apart c member with le | le <;> omega

theorem Keeps.mono {h h' : Heap} {k : Nat} {cells cells' : List Nat} (keeps : Keeps h h' k cells)
    (sub : cells ⊆ cells') : Keeps h h' k cells' :=
  { keeps with mem := fun x outside => keeps.mem x fun a member => outside a (sub member) }

theorem Keeps.trans {h h' h'' : Heap} {k : Nat} {cells cells' : List Nat}
    (first : Keeps h h' k cells) (second : Keeps h' h'' k cells') :
    Keeps h h'' k (cells ++ cells') where
  heads j other := (second.heads j other).trans (first.heads j other)
  mem x outside := (second.mem x fun a member => outside a (by simp [member])).trans
    (first.mem x fun a member => outside a (by simp [member]))
  base := second.base.trans first.base
  siz := second.siz.trans first.siz
  counters := second.counters.trans first.counters

theorem set_keeps (h : Heap) (k : Nat) (cell : Option Nat) (v : Nat) :
    Keeps h (h.set (linkAt k cell) v) k cell.toList := by
  cases cell with
  | none =>
    refine ⟨?_, fun _ _ => rfl, rfl, rfl, rfl⟩
    intro j other
    simp [linkAt, Heap.set, other]
  | some y =>
    refine ⟨fun _ _ => rfl, ?_, rfl, rfl, rfl⟩
    intro x outside
    exact store32_other _ _ (outside y (by simp))

theorem set_head (h : Heap) (k : Nat) (cell : Option Nat) (v : Nat) :
    (h.set (linkAt k cell) v).free k = if cell = none then v else h.free k := by
  cases cell <;> simp [linkAt, Heap.set]

theorem set_word (h : Heap) (k y : Nat) {v : Nat} (word : v < 2 ^ 32) :
    load32 (h.set (linkAt k (some y)) v).mem y = v :=
  load32_store32_same h.mem y word

theorem insertBlockFrom_eq {h : Heap} {k b : Nat} :
    ∀ (ys : List Nat) (cell : Option Nat) (fuel : Nat),
      Chain (load32 h.mem) (h.get (linkAt k cell)) ys → ys.length < fuel →
      insertBlockFrom fuel h (linkAt k cell) b =
        some
        ((h.set (.next b) (h.get (linkAt k (cellBefore (fun y => decide (b ≤ y)) cell ys)))).set
          (linkAt k (cellBefore (fun y => decide (b ≤ y)) cell ys)) b) := by
  intro ys
  induction ys with
  | nil =>
    intro cell fuel chain enough
    obtain ⟨n, rfl⟩ : ∃ n, fuel = n + 1 := ⟨fuel - 1, by omega⟩
    have null := (chain_null_iff chain).mpr rfl
    simp [insertBlockFrom, null, cellBefore]
  | cons y ys ih =>
    intro cell fuel chain enough
    simp only [List.length_cons] at enough
    obtain ⟨n, rfl⟩ : ∃ n, fuel = n + 1 := ⟨fuel - 1, by omega⟩
    obtain ⟨here, real, rest⟩ := chain_uncons chain
    by_cases before : y < b
    · have goes : insertBlockFrom (n + 1) h (linkAt k cell) b =
          insertBlockFrom n h (.next y) b := by
        simp [insertBlockFrom, here, real, before]
      have walked := ih (some y) n rest (by omega)
      simp only [cellBefore, Nat.not_le.mpr before, decide_false, Bool.false_eq_true, if_false]
      exact goes.trans walked
    · simp [insertBlockFrom, here, before, cellBefore, Nat.not_lt.mp before]

theorem removeBlockFrom_eq {h : Heap} {k : Nat} (target : Nat) :
    ∀ (ys : List Nat) (cell : Option Nat) (fuel : Nat),
      Chain (load32 h.mem) (h.get (linkAt k cell)) ys → ys.length < fuel →
      removeBlockFrom fuel h (linkAt k cell) target =
        if target ∈ ys then
          some (h.set (linkAt k (cellBefore (fun y => decide (y = target)) cell ys))
            (load32 h.mem target), true)
        else some (h, false) := by
  intro ys
  induction ys with
  | nil =>
    intro cell fuel chain enough
    obtain ⟨n, rfl⟩ : ∃ n, fuel = n + 1 := ⟨fuel - 1, by omega⟩
    have null := (chain_null_iff chain).mpr rfl
    simp [removeBlockFrom, null]
  | cons y ys ih =>
    intro cell fuel chain enough
    simp only [List.length_cons] at enough
    obtain ⟨n, rfl⟩ : ∃ n, fuel = n + 1 := ⟨fuel - 1, by omega⟩
    obtain ⟨here, real, rest⟩ := chain_uncons chain
    by_cases found : y = target
    · subst found
      simp [removeBlockFrom, here, real, cellBefore]
    · have goes : removeBlockFrom (n + 1) h (linkAt k cell) target =
          removeBlockFrom n h (.next y) target := by
        simp [removeBlockFrom, here, real, found]
      have walked := ih (some y) n rest (by omega)
      simp only [cellBefore, found, decide_false, Bool.false_eq_true, if_false, List.mem_cons,
        Ne.symm found, false_or]
      exact goes.trans walked

theorem stopped_at {h : Heap} {k : Nat} {stop : Nat → Bool} :
    ∀ (ys : List Nat) (cell : Option Nat), Chain (load32 h.mem) (h.get (linkAt k cell)) ys →
      h.get (linkAt k (cellBefore stop cell ys)) = (ys.dropWhile (fun y => !stop y)).headD 0 := by
  intro ys
  induction ys with
  | nil =>
    intro cell chain
    exact chain_head chain
  | cons y ys ih =>
    intro cell chain
    by_cases here : stop y
    · simpa [cellBefore, here] using chain_head chain
    · have rest := (chain_uncons chain).2.2
      simpa [cellBefore, here] using ih (some y) rest

section Lists
variable {h : Heap} {k : Nat} {ys : List Nat} {stop : Nat → Bool}

theorem cell_member {c : Nat} (member : c ∈ (cellBefore stop none ys).toList) :
    c ∈ ys.takeWhile (fun y => !stop y) := by
  rcases cellBefore_mem stop none ys with start | ⟨y, passed, at_y⟩
  · simp [start] at member
  · simp only [at_y, Option.toList_some, List.mem_singleton] at member
    exact member ▸ passed

theorem cell_ne_rest (nodup : ys.Nodup) {y : Nat}
    (member : y ∈ ys.dropWhile (fun y => !stop y)) : cellBefore stop none ys ≠ some y := by
  intro same
  have passed : y ∈ ys.takeWhile (fun y => !stop y) := cell_member (by simp [same])
  rw [← List.takeWhile_append_dropWhile (p := fun y => !stop y) (l := ys)] at nodup
  exact (List.nodup_append.mp nodup).2.2 y passed y member rfl

theorem redirect_word (stop : Nat → Bool) (spread : ∀ y ∈ ys, ∀ z ∈ ys, y ≠ z → Apart y z) {v : Nat}
    (word : v < 2 ^ 32) : ∀ y ∈ ys,
      load32 (h.set (linkAt k (cellBefore stop none ys)) v).mem y =
        if cellBefore stop none ys = some y then v else load32 h.mem y := by
  intro y member
  by_cases same : cellBefore stop none ys = some y
  · simp only [same, if_true]
    exact set_word h k y word
  · rw [if_neg same]
    refine (set_keeps h k _ v).load ?_
    intro c inside
    refine spread y member c ((List.takeWhile_sublist _).subset (cell_member inside)) ?_
    intro eq
    refine same ?_
    rw [eq]
    exact Option.mem_toList.mp inside

theorem rest_chain {next : Nat → Nat} {p : Nat} (chain : Chain next p ys) :
    Chain next ((ys.dropWhile (fun y => !stop y)).headD 0) (ys.dropWhile (fun y => !stop y)) := by
  have whole : Chain next p
      (ys.takeWhile (fun y => !stop y) ++ ys.dropWhile (fun y => !stop y)) := by
    rw [List.takeWhile_append_dropWhile]
    exact chain
  exact chain_suffix whole

theorem insertBlock_list {b : Nat} (chain : Chain (load32 h.mem) (h.free k) ys)
    (enough : ys.length < walkFuel) (words : ∀ y ∈ ys, y < 2 ^ 32)
    (spread : ∀ y ∈ ys, ∀ z ∈ ys, y ≠ z → Apart y z) (word : b < 2 ^ 32) (real : b ≠ 0)
    (away : ∀ y ∈ ys, Apart y b) :
    ∃ h', insertBlock h k b = some h' ∧ Keeps h h' k (b :: ys) ∧
      Chain (load32 h'.mem) (h'.free k) (ys.orderedInsert (· ≤ ·) b) := by
  let stop : Nat → Bool := fun y => decide (b ≤ y)
  let cell := cellBefore stop none ys
  let rest := ys.dropWhile (fun y => !stop y)
  let v := h.get (linkAt k cell)
  let h1 := h.set (linkAt k (some b)) v
  let h' := h1.set (linkAt k cell) b
  have start : Chain (load32 h.mem) (h.get (linkAt k none)) ys := chain
  have ran : insertBlock h k b = some h' := insertBlockFrom_eq ys none walkFuel start enough
  have value : v = rest.headD 0 := stopped_at ys none start
  have restSub : ∀ y ∈ rest, y ∈ ys := fun y member => (List.dropWhile_sublist _).subset member
  have cellSub : ∀ c ∈ cell.toList, c ∈ ys :=
    fun c member => (List.takeWhile_sublist _).subset (cell_member member)
  have small : v < 2 ^ 32 := by
    rw [value]
    cases shape : rest with
    | nil => simp
    | cons y tail => exact words y (restSub y (by simp [shape]))
  have keeps1 : Keeps h h1 k [b] := set_keeps h k (some b) v
  have keeps2 : Keeps h1 h' k cell.toList := set_keeps h1 k cell b
  have keeps : Keeps h h' k (b :: ys) := by
    refine (keeps1.trans keeps2).mono ?_
    intro c member
    rcases List.mem_append.mp member with one | other
    · exact List.mem_cons.mpr (Or.inl (List.mem_singleton.mp one))
    · exact List.mem_cons_of_mem _ (cellSub c other)
  have others : ∀ y ∈ ys, load32 h'.mem y = if cell = some y then b else load32 h.mem y := by
    intro y member
    rw [redirect_word stop spread word y member,
      keeps1.load fun c single => by rw [List.mem_singleton.mp single]; exact away y member]
  have tail : Chain (load32 h'.mem) b (b :: rest) := by
    have atNew : load32 h'.mem b = v := by
      rw [keeps2.load fun c member => (away c (cellSub c member)).symm]
      exact set_word h k b small
    refine Chain.cons real ?_
    rw [atNew, value]
    refine chain_congr (rest_chain chain) ?_
    intro y member
    rw [others y (restSub y member), if_neg (cell_ne_rest (chain_nodup chain) member)]
  have spliced := chain_splice ys none (h.free k) chain (chain_nodup chain) (by simp)
    (fun y member => others y ((List.takeWhile_sublist _).subset member)) tail
  have head : h'.free k = if cell = none then b else h.free k := set_head h1 k cell b
  refine ⟨h', ran, keeps, ?_⟩
  rw [head, List.orderedInsert_eq_take_drop]
  simp only [decide_not]
  exact spliced

theorem removeBlock_absent {target : Nat} (chain : Chain (load32 h.mem) (h.free k) ys)
    (enough : ys.length < walkFuel) (absent : target ∉ ys) :
    removeBlock h k target = some (h, false) := by
  have ran := removeBlockFrom_eq target ys none walkFuel chain enough
  rwa [if_neg absent] at ran

theorem removeBlock_list {target : Nat} (chain : Chain (load32 h.mem) (h.free k) ys)
    (enough : ys.length < walkFuel) (spread : ∀ y ∈ ys, ∀ z ∈ ys, y ≠ z → Apart y z)
    (member : target ∈ ys) :
    ∃ h', removeBlock h k target = some (h', true) ∧ Keeps h h' k ys ∧
      Chain (load32 h'.mem) (h'.free k) (ys.erase target) := by
  let stop : Nat → Bool := fun y => decide (y = target)
  let cell := cellBefore stop none ys
  let rest := ys.dropWhile (fun y => !stop y)
  let v := load32 h.mem target
  let h' := h.set (linkAt k cell) v
  have ran := removeBlockFrom_eq target ys none walkFuel chain enough
  rw [if_pos member] at ran
  have keeps : Keeps h h' k ys := (set_keeps h k cell v).mono fun c inside =>
    (List.takeWhile_sublist _).subset (cell_member inside)
  have others := redirect_word (h := h) (k := k) stop spread (load32_bound h.mem target)
  -- the walk stops at the target, whose `next` word heads the remaining chain
  obtain ⟨after, shape⟩ : ∃ after, rest = target :: after := dropWhile_at_target member
  have unchanged : ∀ z ∈ rest, load32 h'.mem z = load32 h.mem z := by
    intro z inside
    rw [others z ((List.dropWhile_sublist _).subset inside),
      if_neg (cell_ne_rest (chain_nodup chain) inside)]
  have tail : Chain (load32 h'.mem) v rest.tail := by
    have suffix : Chain (load32 h'.mem) (rest.headD 0) rest :=
      chain_congr (rest_chain chain) unchanged
    have atTarget : load32 h'.mem target = v := unchanged target (by simp [shape])
    rw [shape, List.headD_cons] at suffix
    rw [shape, List.tail_cons, ← atTarget]
    exact (chain_uncons suffix).2.2
  have spliced := chain_splice ys none (h.free k) chain (chain_nodup chain) (by simp)
    (fun y passed => others y ((List.takeWhile_sublist _).subset passed)) tail
  have head : h'.free k = if cell = none then v else h.free k := set_head h k cell v
  refine ⟨h', ran, keeps, ?_⟩
  rw [head, erase_eq_takeWhile]
  exact spliced

end Lists

end Buddy
