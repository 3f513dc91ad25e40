import NoobOs.Mem.Operations
import NoobOs.Lib.Runs

/-!
Runs of the allocator: requests of any in-range size, frees of live pointers,
and client writes inside the bytes asked for, in any order, from the state
`kmalloc_init` leaves over arbitrary memory.
-/
namespace Buddy
open ByteMemory LinkedChain DyadicTiling Runs

/-- A block handed out and not freed, with the number of bytes asked for. -/
structure Live where
  block : Block
  siz : Nat
  deriving DecidableEq

def Live.ptr (l : Live) : Nat := addr l.block.off + hdrSiz

structure State where
  heap : Heap
  live : List Live

inductive Request where
  | alloc (siz : Nat)
  | free (ptr : Nat)
  | write (a : Nat) (v : UInt8)

def Legal (s : State) : Request → Prop
  | .alloc siz => InRange siz
  | .free p => ∃ l ∈ s.live, l.ptr = p
  | .write a _ => ∃ l ∈ s.live, l.ptr ≤ a ∧ a < l.ptr + l.siz

/-- `live` is bookkeeping beside the heap; no allocator function reads it. -/
def step (s : State) : Request → Option State
  | .alloc siz => do
    let (h, p) ← kmAlloc s.heap siz
    if p = 0 then return ⟨h, s.live⟩
    let ord ← size2ord (alignUp siz 4 + hdrSiz)
    return ⟨h, ⟨⟨ord, p - hdrSiz - extMemBase⟩, siz⟩ :: s.live⟩
  | .free p => do
    let h ← kmFree s.heap p
    return ⟨h, s.live.filter fun l => l.ptr ≠ p⟩
  | .write a v => some ⟨{ s.heap with mem := store8 s.heap.mem a v }, s.live⟩

def machine : Machine State Request := ⟨Legal, step⟩

def start (m : Mem) : State := ⟨kmallocInit m, []⟩

def usedBy (live : List Live) : Set Block := {b | ∃ l ∈ live, l.block = b}

structure Inv (s : State) (fl : Nat → List Nat) : Prop where
  layout : Layout s.heap fl (usedBy s.live)
  apart : NoBuddies fl
  headers : ∀ l ∈ s.live, Header s.heap.mem (addr l.block.off) l.block.ord (rounded l.siz)
  fits : ∀ l ∈ s.live, rounded l.siz + hdrSiz ≤ 2 ^ l.block.ord
  distinct : (s.live.map Live.block).Nodup

theorem rounded_ge (siz : Nat) : siz ≤ rounded siz := by
  simp only [rounded]
  omega

theorem usedBy_cons (l : Live) (live : List Live) :
    usedBy (l :: live) = insert l.block (usedBy live) := by
  ext b
  simp [usedBy, eq_comm]

theorem live_tile {fl : Nat → List Nat} {live : List Live} {l : Live} (member : l ∈ live) :
    (Role.used, l.block) ∈ tilesOf fl (usedBy live) := by
  simpa using ⟨l, member, rfl⟩

section Steps
variable {s : State} {fl : Nat → List Nat}

theorem Inv.ptr_injective (inv : Inv s fl) {l l' : Live} (ml : l ∈ s.live) (ml' : l' ∈ s.live)
    (same : l.ptr = l'.ptr) : l = l' := by
  have off : l.block.off = l'.block.off := by
    simpa [Live.ptr, addr] using same
  have here : l'.block.Has l.block.off := off ▸ has_start l'.block
  have blocks := inv.layout.tiled.unique _ (live_tile ml) _ (live_tile ml') l.block.off
    (has_start l.block) here
  simp only [Prod.mk.injEq, true_and] at blocks
  exact List.inj_on_of_nodup_map inv.distinct ml ml' blocks

theorem Inv.framed (inv : Inv s fl) {h' : Heap} (frame : Frame s.heap h' (usedBy s.live)) :
    ∀ l ∈ s.live, Header h'.mem (addr l.block.off) l.block.ord (rounded l.siz) := by
  intro l member
  refine (inv.headers l member).frame ?_
  have fits := inv.fits l member
  exact (frame l.block ⟨l, member, rfl⟩).mono (Nat.le_refl _) (by omega)

theorem free_live (inv : Inv s fl) {l : Live} (member : l ∈ s.live) :
    usedBy s.live = insert l.block (usedBy (s.live.filter fun l' => l'.ptr ≠ l.ptr)) ∧
      l.block ∉ usedBy (s.live.filter fun l' => l'.ptr ≠ l.ptr) := by
  have others : ∀ l' ∈ s.live, l'.ptr ≠ l.ptr ↔ l'.block ≠ l.block := by
    intro l' ml'
    constructor
    · intro different same
      exact different (by simp only [Live.ptr, same])
    · intro different same
      exact different (by rw [inv.ptr_injective ml' member same])
  constructor
  · ext b
    simp only [usedBy, Set.mem_ofPred_eq, Set.mem_insert_iff, List.mem_filter, decide_eq_true_eq]
    constructor
    · rintro ⟨l', ml', rfl⟩
      by_cases same : l'.block = l.block
      · exact Or.inl same
      · exact Or.inr ⟨l', ⟨ml', (others l' ml').mpr same⟩, rfl⟩
    · rintro (rfl | ⟨l', ⟨ml', _⟩, rfl⟩)
      · exact ⟨l, member, rfl⟩
      · exact ⟨l', ml', rfl⟩
  · rintro ⟨l', ml', same⟩
    obtain ⟨inside, different⟩ := List.mem_filter.mp ml'
    exact (others l' inside).mp (of_decide_eq_true different) same

theorem alloc_step (inv : Inv s fl) {siz ord : Nat} (range : InRange siz)
    (order : size2ord (rounded siz + hdrSiz) = some ord) :
    ∃ t p fl', kmAlloc s.heap siz = some (t.heap, p) ∧ step s (.alloc siz) = some t ∧ Inv t fl' ∧
      ((p = 0 ∧ t.live = s.live ∧ ∀ j, ord ≤ j → fl j = []) ∨
        ∃ cur o, ord ≤ cur ∧ o ∈ fl cur ∧ p = addr o + hdrSiz ∧
          t.live = ⟨⟨ord, o⟩, siz⟩ :: s.live) := by
  obtain ⟨ord', order', large, fits⟩ := size2ord_spec range
  obtain rfl : ord' = ord := Option.some.inj (order'.symm.trans order)
  have words := inRange_words range
  by_cases empty : ∀ j, ord' ≤ j → fl j = []
  · have ran := kmAlloc_none inv.layout range order empty
    refine ⟨⟨charge s.heap ord' (rounded siz), s.live⟩, 0, fl, ran, ?_,
      ⟨charge_layout inv.layout _ _, inv.apart, ?_, inv.fits, inv.distinct⟩,
      Or.inl ⟨rfl, rfl, empty⟩⟩
    · simp [step, ran]
    · simpa using inv.headers
  · obtain ⟨cur, o, rest, up, below, first⟩ := first_full empty
    obtain ⟨h', fl', ran, lay', fresh, frame, _, header, top, kept, split⟩ :=
      kmAlloc_some inv.layout range order large up below first
    have real : addr o + hdrSiz ≠ 0 := by
      have := addr_ne_zero o
      omega
    have off : addr o + hdrSiz - hdrSiz - extMemBase = o := by
      simp only [addr]
      omega
    refine ⟨⟨h', ⟨⟨ord', o⟩, siz⟩ :: s.live⟩, addr o + hdrSiz, fl', ran, ?_, ⟨?_, ?_, ?_, ?_, ?_⟩,
      Or.inr ⟨cur, o, up, by rw [first]; exact List.mem_cons_self, rfl, rfl⟩⟩
    · simp only [step, ran, Option.bind_eq_bind, Option.bind_some, if_neg real, words, order, off,
        Option.pure_def]
    · rw [usedBy_cons]
      exact lay'
    · -- split lists hold one block; the others lost at most one
      intro k lt p member other
      by_cases range' : ord' ≤ k ∧ k < cur
      · rw [split k range'.1 range'.2] at member other
        have aligned : (Block.mk k p).Aligned := by
          have tile : (Role.free, Block.mk k p) ∈
              tilesOf fl' (insert ⟨ord', o⟩ (usedBy s.live)) := by
            simpa [split k range'.1 range'.2] using member
          exact lay'.tiled.aligned _ tile
        simp only [List.mem_singleton] at member other
        exact buddy_ne aligned (other.trans member.symm)
      · have sub : ∀ q ∈ fl' k, q ∈ fl k := by
          intro q mq
          by_cases same : k = cur
          · subst same
            rw [top] at mq
            rw [first]
            exact List.mem_cons_of_mem _ mq
          · rwa [kept k (by omega)] at mq
        exact inv.apart k lt p (sub p member) (sub _ other)
    · intro l member
      rcases List.mem_cons.mp member with rfl | old
      · exact header
      · exact inv.framed frame l old
    · intro l member
      rcases List.mem_cons.mp member with rfl | old
      · exact fits
      · exact inv.fits l old
    · refine List.nodup_cons.mpr ⟨?_, inv.distinct⟩
      intro again
      obtain ⟨l, ml, same⟩ := List.mem_map.mp again
      exact fresh ⟨l, ml, same⟩

theorem free_step (inv : Inv s fl) {l : Live} (member : l ∈ s.live) :
    ∃ h' fl', kmFree s.heap l.ptr = some h' ∧
      Inv ⟨h', s.live.filter fun l' => l'.ptr ≠ l.ptr⟩ fl' := by
  obtain ⟨used, fresh⟩ := free_live inv member
  have lay := inv.layout
  rw [used] at lay
  obtain ⟨h', fl', ran, lay', apart', frame, _⟩ :=
    kmFree_layout lay fresh inv.apart (inv.headers l member)
  have kept : ∀ l' ∈ s.live.filter fun l' => l'.ptr ≠ l.ptr, l' ∈ s.live :=
    fun l' ml' => (List.mem_filter.mp ml').1
  refine ⟨h', fl', ran, lay', apart', ?_, fun l' ml' => inv.fits l' (kept l' ml'), ?_⟩
  · intro l' ml'
    refine (inv.headers l' (kept l' ml')).frame ?_
    have fits := inv.fits l' (kept l' ml')
    exact (frame l'.block ⟨l', ml', rfl⟩).mono (Nat.le_refl _) (by omega)
  · exact inv.distinct.sublist (List.filter_sublist.map _)

theorem Inv.fill (inv : Inv s fl) {l : Live} (member : l ∈ s.live) {m : Mem}
    (outside : ∀ x, x < l.ptr ∨ l.ptr + l.siz ≤ x → m x = s.heap.mem x) :
    Inv ⟨{ s.heap with mem := m }, s.live⟩ fl := by
  have fits := inv.fits l member
  have ge := rounded_ge l.siz
  simp only [Live.ptr] at outside
  refine ⟨inv.layout.scribble (b := l.block) ⟨l, member, rfl⟩ fun x away =>
    outside x (by omega), inv.apart, ?_,
    inv.fits, inv.distinct⟩
  intro l' member'
  refine (inv.headers l' member').frame ?_
  intro x lo hi
  refine outside x ?_
  by_cases same : l' = l
  · subst same
    omega
  · have away := inv.layout.tiled.apart (live_tile member) (live_tile member') (by
      intro eq
      simp only [Prod.mk.injEq, true_and] at eq
      exact same (List.inj_on_of_nodup_map inv.distinct member' member eq.symm))
    have fits' := inv.fits l' member'
    simp only [addr] at *
    omega

theorem write_step (inv : Inv s fl) {l : Live} (member : l ∈ s.live) {a : Nat} (v : UInt8)
    (low : l.ptr ≤ a) (high : a < l.ptr + l.siz) :
    Inv ⟨{ s.heap with mem := store8 s.heap.mem a v }, s.live⟩ fl :=
  inv.fill member fun _ outside => store8_other _ _ (by omega)

theorem request_step (inv : Inv s fl) {r : Request} (ok : Legal s r) :
    ∃ t fl', step s r = some t ∧ Inv t fl' := by
  cases r with
  | alloc siz =>
    obtain ⟨ord, order, _, _⟩ := size2ord_spec ok
    obtain ⟨t, _, fl', _, ran, inv', _⟩ := alloc_step inv ok order
    exact ⟨t, fl', ran, inv'⟩
  | free p =>
    obtain ⟨l, member, rfl⟩ := ok
    obtain ⟨h', fl', ran, inv'⟩ := free_step inv member
    exact ⟨_, fl', by simp only [step, ran, Option.bind_eq_bind, Option.bind_some]; rfl, inv'⟩
  | write a v =>
    obtain ⟨l, member, low, high⟩ := ok
    exact ⟨_, fl, rfl, write_step inv member v low high⟩

end Steps

section Reachable
variable {m : Mem} {s : State}

theorem kmallocInit_eq (m : Mem) :
    kmallocInit m = ⟨store32 m extMemBase 0, extMemBase, extMemSiz,
      Function.update (fun _ => 0) maxOrd extMemBase, 0, 0, 0⟩ := by
  have top : maxOrdFor extMemSiz maxOrd = maxOrd := by decide
  have aligned : alignUp extMemBase (2 ^ maxOrd) = extMemBase := by decide
  have adjust : (extMemBase + 2 ^ 32 - extMemBase) % 2 ^ 32 = 0 := by decide
  have size : (extMemSiz - 0) &&& (2 ^ 32 - 2 ^ maxOrd) = extMemSiz := by decide
  have room : ¬ extMemSiz ≤ 0 := by decide
  simp only [kmallocInit, kmInit, top, aligned, adjust, if_neg room, size]

def startLists (k : Nat) : List Nat := if k = maxOrd then [0] else []

theorem start_inv (m : Mem) : Inv (start m) startLists := by
  have noneUsed : usedBy ([] : List Live) = ∅ := by
    ext b
    simp [usedBy]
  have only : ∀ t, t ∈ tilesOf startLists ∅ ↔ t = (Role.free, Block.mk maxOrd 0) := by
    rintro ⟨role, ord, off⟩
    cases role with
    | used => simp
    | free =>
      by_cases top : ord = maxOrd
      · simp [startLists, top]
      · simp [startLists, top]
  refine ⟨⟨?_, ?_, ?_, ?_, ?_, ?_⟩, ?_, by simp [start], by simp [start], by simp [start]⟩
  · simp [start, kmallocInit_eq]
  · simp [start, kmallocInit_eq]
  · intro k
    simp only [start, kmallocInit_eq]
    by_cases top : k = maxOrd
    · subst top
      simp only [startLists, if_true, Function.update_self]
      refine Chain.cons (by decide) ?_
      rw [load32_store32_same m extMemBase (by decide)]
      exact Chain.nil
    · simp only [startLists, if_neg top, Function.update_of_ne top]
      exact Chain.nil
  · intro k
    by_cases top : k = maxOrd <;> simp [startLists, top]
  · simp only [start, noneUsed]
    constructor
    · intro t member
      rw [(only t).mp member]
      exact Nat.dvd_zero _
    · intro t member
      rw [(only t).mp member]
      simp [Block.Inside]
    · intro x bound
      exact ⟨_, (only _).mpr rfl, by simpa [Block.Has] using bound⟩
    · intro t mt u mu x _ _
      rw [(only t).mp mt, (only u).mp mu]
  · simp only [start, noneUsed]
    intro t member
    rw [(only t).mp member]
    decide
  · intro k below o member
    simp [startLists, Nat.ne_of_lt below] at member

theorem reach_inv (reach : Reach machine (start m) s) : ∃ fl, Inv s fl := by
  refine reach_invariant (fun s => ∃ fl, Inv s fl) ⟨startLists, start_inv m⟩ ?_ reach
  intro s r t ⟨fl, inv⟩ ok stepped
  obtain ⟨t', fl', ran, inv'⟩ := request_step inv ok
  have same : t' = t := Option.some.inj (ran.symm.trans stepped)
  exact ⟨fl', same ▸ inv'⟩

theorem Inv.freeList_eq {fl : Nat → List Nat} (inv : Inv s fl) (k : Nat) :
    freeList s.heap k = some ((fl k).map addr) :=
  walk_of_chain (inv.layout.links k) walkFuel (inv.layout.short k)

end Reachable

end Buddy
