import NoobOs.Mem.Malloc

/-!
Freeing a pointer that is not live any more. The allocator writes links into the first word of
32-byte units and magic words behind it, so the words where a header once was keep their value
until a client's buffer covers them.
-/
namespace Buddy
open ByteMemory LinkedChain DyadicTiling Runs

/-! ## Where the allocator writes -/

/-- The links of the lists run through `nodes`, which start units of 32 bytes. -/
structure Threaded (h : Heap) (nodes : Set Nat) : Prop where
  units : ∀ y ∈ nodes, 32 ∣ y ∧ y < 2 ^ 32
  heads : ∀ k, h.free k ∈ nodes ∨ h.free k = 0
  nexts : ∀ y ∈ nodes, load32 h.mem y ∈ nodes ∨ load32 h.mem y = 0

/-- Only the first words of units differ. -/
def Quiet (h h' : Heap) : Prop := ∀ x, 4 ≤ x % 32 → h'.mem x = h.mem x

theorem Quiet.trans {h h' h'' : Heap} (first : Quiet h h') (second : Quiet h' h'') : Quiet h h'' :=
  fun x inside => (second x inside).trans (first x inside)

/-- A list head, or the `next` word of a node. -/
def LinkOf (nodes : Set Nat) : Link → Prop
  | .head _ => True
  | .next y => y ∈ nodes

section Links
variable {h h' : Heap} {nodes : Set Nat} {cur : Link} {p : Nat}

theorem Threaded.get (threaded : Threaded h nodes) (cell : LinkOf nodes cur) :
    h.get cur ∈ nodes ∨ h.get cur = 0 := by
  cases cur with
  | head k => exact threaded.heads k
  | next y => exact threaded.nexts y cell

theorem Threaded.link (threaded : Threaded h nodes) {b : Nat} (unit : 32 ∣ b) (word : b < 2 ^ 32)
    (target : p ∈ nodes ∨ p = 0) :
    Threaded (h.set (.next b) p) (insert b nodes) ∧ Quiet h (h.set (.next b) p) := by
  have value : p < 2 ^ 32 := by
    rcases target with member | rfl
    · exact (threaded.units p member).2
    · decide
  have widen : ∀ {q}, q ∈ nodes ∨ q = 0 → q ∈ insert b nodes ∨ q = 0 :=
    fun either => either.imp_left (Set.mem_insert_of_mem b)
  refine ⟨⟨?_, fun k => widen (threaded.heads k), ?_⟩, fun x inside => store32_other _ _ (by omega)⟩
  · rintro y (rfl | member)
    · exact ⟨unit, word⟩
    · exact threaded.units y member
  · intro y member
    by_cases same : y = b
    · subst same
      rw [Heap.set, load32_store32_same _ _ value]
      exact widen target
    · have old : y ∈ nodes := member.resolve_left same
      have apart := (threaded.units y old).1
      rw [Heap.set, load32_store32_apart _ _ (by omega)]
      exact widen (threaded.nexts y old)

theorem Threaded.set (threaded : Threaded h nodes) (cell : LinkOf nodes cur)
    (target : p ∈ nodes ∨ p = 0) :
    Threaded (h.set cur p) nodes ∧ Quiet h (h.set cur p) := by
  cases cur with
  | head k =>
    refine ⟨⟨threaded.units, fun j => ?_, threaded.nexts⟩, fun _ _ => rfl⟩
    by_cases same : j = k
    · subst same
      simp only [Heap.set, Function.update_self]
      exact target
    · simp only [Heap.set, Function.update_of_ne same]
      exact threaded.heads j
  | next y =>
    obtain ⟨unit, word⟩ := threaded.units y cell
    have linked := threaded.link unit word target
    rwa [Set.insert_eq_of_mem cell] at linked

theorem insertBlockFrom_quiet {b : Nat} (unit : 32 ∣ b) (word : b < 2 ^ 32) :
    ∀ (fuel : Nat) (cur : Link), Threaded h nodes → LinkOf nodes cur →
    insertBlockFrom fuel h cur b = some h' →
      Threaded h' (insert b nodes) ∧ Quiet h h' := by
  intro fuel
  induction fuel with
  | zero => intro cur _ _ ran; simp [insertBlockFrom] at ran
  | succ fuel ih =>
    intro cur threaded cell ran
    rw [insertBlockFrom] at ran
    by_cases on : h.get cur ≠ 0 ∧ h.get cur < b
    · rw [if_pos on] at ran
      exact ih (.next (h.get cur)) threaded ((threaded.get cell).resolve_right on.1) ran
    · rw [if_neg on] at ran
      obtain rfl := Option.some.inj ran
      obtain ⟨first, quiet⟩ := threaded.link unit word (threaded.get cell)
      have cell' : LinkOf (insert b nodes) cur := by
        cases cur with
        | head k => trivial
        | next y => exact Set.mem_insert_of_mem b cell
      obtain ⟨second, quiet'⟩ := first.set cell' (Or.inl (Set.mem_insert b nodes))
      exact ⟨second, quiet.trans quiet'⟩

theorem insertBlock_quiet {b ord : Nat} (unit : 32 ∣ b) (word : b < 2 ^ 32)
    (threaded : Threaded h nodes)
    (ran : insertBlock h ord b = some h') : Threaded h' (insert b nodes) ∧ Quiet h h' :=
  insertBlockFrom_quiet unit word walkFuel (.head ord) threaded trivial ran

theorem removeBlockFrom_quiet {target : Nat} {found : Bool} :
    ∀ (fuel : Nat) (cur : Link), Threaded h nodes → LinkOf nodes cur →
      removeBlockFrom fuel h cur target = some (h', found) →
      Threaded h' nodes ∧ Quiet h h' ∧ h'.base = h.base ∧ (found = true → target ∈ nodes) := by
  intro fuel
  induction fuel with
  | zero => intro cur _ _ ran; simp [removeBlockFrom] at ran
  | succ fuel ih =>
    intro cur threaded cell ran
    rw [removeBlockFrom] at ran
    by_cases null : h.get cur = 0
    · rw [if_pos null] at ran
      obtain ⟨rfl, rfl⟩ := Prod.mk.inj (Option.some.inj ran)
      exact ⟨threaded, fun _ _ => rfl, rfl, fun no => absurd no (by decide)⟩
    · have node := (threaded.get cell).resolve_right null
      rw [if_neg null] at ran
      by_cases here : h.get cur = target
      · rw [if_pos here] at ran
        obtain ⟨rfl, rfl⟩ := Prod.mk.inj (Option.some.inj ran)
        rw [here] at node
        obtain ⟨after, quiet⟩ := threaded.set cell (threaded.nexts target node)
        have kept : (h.set cur (load32 h.mem target)).base = h.base := by
          cases cur with
          | head k => rfl
          | next y => rfl
        exact ⟨after, quiet, kept, fun _ => node⟩
      · rw [if_neg here] at ran
        exact ih (.next (h.get cur)) threaded node ran

/-- Every block split off starts a unit, since no order is below `MIN_ORD`. -/
theorem splitDown_quiet {bl ord : Nat} (unit : 32 ∣ bl) (large : minOrd ≤ ord) :
    ∀ (cur : Nat) (h : Heap) (nodes : Set Nat), Threaded h nodes → bl + 2 ^ cur ≤ 2 ^ 32 →
      splitDown h bl ord cur = some h' → Quiet h h' := by
  intro cur
  induction cur with
  | zero =>
    intro h nodes _ _ ran
    obtain rfl := Option.some.inj ran
    exact fun _ _ => rfl
  | succ cur ih =>
    intro h nodes threaded inside ran
    rw [splitDown] at ran
    by_cases more : ord < cur + 1
    · rw [if_pos more] at ran
      obtain ⟨h₁, first, rest⟩ := Option.bind_eq_some_iff.mp ran
      have double := size_succ cur
      have pos := size_pos cur
      have half : 32 ∣ 2 ^ cur :=
        Nat.pow_dvd_pow 2 (show 5 ≤ cur by simp only [minOrd] at large; omega)
      obtain ⟨threaded₁, quiet⟩ := insertBlock_quiet (Nat.dvd_add unit half)
        (show bl + 2 ^ cur < 2 ^ 32 by omega) threaded first
      exact quiet.trans (ih h₁ _ threaded₁ (by omega) rest)
    · rw [if_neg more] at ran
      obtain rfl := Option.some.inj ran
      exact fun _ _ => rfl

/-- The block grows towards nodes, so it still starts a unit. -/
theorem coalesce_quiet : ∀ (n : Nat) (h : Heap) (off ord : Nat) (r : Heap × Nat × Nat),
    Threaded h nodes →
    32 ∣ h.base + off → h.base + off < 2 ^ 32 → coalesce n h off ord = some r →
    Threaded r.1 nodes ∧ Quiet h r.1 ∧ 32 ∣ r.1.base + r.2.1 ∧ r.1.base + r.2.1 < 2 ^ 32 := by
  intro n
  induction n with
  | zero =>
    intro h off ord r threaded unit word ran
    obtain rfl := Option.some.inj ran
    exact ⟨threaded, fun _ _ => rfl, unit, word⟩
  | succ n ih =>
    intro h off ord r threaded unit word ran
    rw [coalesce] at ran
    by_cases below : ord < maxOrd
    · rw [if_pos below] at ran
      by_cases outside : h.siz ≤ off ^^^ ordSiz ord
      · rw [if_pos outside] at ran
        obtain rfl := Option.some.inj ran
        exact ⟨threaded, fun _ _ => rfl, unit, word⟩
      · rw [if_neg outside] at ran
        obtain ⟨⟨h₁, found⟩, removed, rest⟩ := Option.bind_eq_some_iff.mp ran
        obtain ⟨threaded₁, quiet, base, node⟩ :=
          removeBlockFrom_quiet walkFuel (.head ord) threaded trivial removed
        cases found with
        | false =>
          obtain rfl := Option.some.inj rest
          rw [← base] at unit word
          exact ⟨threaded₁, quiet, unit, word⟩
        | true =>
          obtain ⟨buddyUnit, buddyWord⟩ := threaded.units _ (node rfl)
          rw [← base] at unit word buddyUnit buddyWord
          obtain ⟨threaded', quiet', unit', word'⟩ := ih h₁ _ (ord + 1) r threaded₁
            (by split <;> assumption) (by split <;> assumption) rest
          exact ⟨threaded', quiet.trans quiet', unit', word'⟩
    · rw [if_neg below] at ran
      obtain rfl := Option.some.inj ran
      exact ⟨threaded, fun _ _ => rfl, unit, word⟩

theorem unit_addr {o k : Nat} (aligned : 2 ^ k ∣ o) (large : minOrd ≤ k) : 32 ∣ addr o := by
  have unit : 32 ∣ o := Nat.dvd_trans (Nat.pow_dvd_pow 2 large) aligned
  exact Nat.dvd_add (by decide) unit

theorem Layout.threaded {fl : Nat → List Nat} {used : Set Block} (lay : Layout h fl used) :
    Threaded h {y | ∃ k, y ∈ (fl k).map addr} where
  units := by
    rintro y ⟨k, member⟩
    obtain ⟨o, listed, rfl⟩ := List.mem_map.mp member
    have tile : (Role.free, Block.mk k o) ∈ tilesOf fl used := by simpa using listed
    exact ⟨unit_addr (lay.tiled.aligned _ tile) (lay.large _ tile), lay.addr_word tile⟩
  heads k := by
    have head := chain_head (lay.links k)
    cases shape : (fl k).map addr with
    | nil =>
      rw [shape] at head
      exact Or.inr head
    | cons y ys =>
      rw [shape, List.headD_cons] at head
      refine Or.inl ⟨k, ?_⟩
      rw [shape, head]
      exact List.mem_cons_self
  nexts := by
    rintro y ⟨k, member⟩
    exact (chain_next (lay.links k) member).imp_left fun next => ⟨k, next⟩

theorem kmAlloc_quiet {fl : Nat → List Nat} {used : Set Block} (lay : Layout h fl used) {siz : Nat}
    (range : InRange siz) (ran : kmAlloc h siz = some (h', p)) (real : p ≠ 0) :
    ∀ x, 4 ≤ x % 32 → x < p - hdrSiz ∨ p ≤ x → h'.mem x = h.mem x := by
  obtain ⟨ord, order, large, _⟩ := size2ord_spec range
  have failed : ∀ c : Heap, some (c, 0) ≠ some (h', p) := by
    intro c same
    exact real (Prod.mk.inj (Option.some.inj same)).2.symm
  rw [kmAlloc_ordered (inRange_words range) (by rwa [inRange_total range])] at ran
  by_cases over' : maxOrd < ord
  · rw [if_pos over'] at ran
    exact absurd ran (failed _)
  rw [if_neg over'] at ran
  obtain ⟨_, _, stop⟩ := firstFree_spec h (maxOrd + 1) ord (by omega)
  generalize firstFree h (maxOrd + 1) ord = cur at ran stop
  by_cases none' : maxOrd < cur
  · rw [if_pos none'] at ran
    exact absurd ran (failed _)
  rw [if_neg none'] at ran
  obtain ⟨h₁, split, written⟩ := Option.map_eq_some_iff.mp ran
  obtain ⟨rfl, rfl⟩ := Prod.mk.inj written
  -- the block taken is a node that fits the heap
  have full : fl cur ≠ [] := fun empty => stop (by omega) ((lay.list_empty cur).mpr empty)
  obtain ⟨o, rest, first⟩ := List.exists_cons_of_ne_nil full
  have head := (pop_layout lay first).1
  have tile : (Role.free, Block.mk cur o) ∈ tilesOf fl used := by simp [first]
  have inside := lay.tiled.inside _ tile
  have node : h.free cur ∈ {y | ∃ k, y ∈ (fl k).map addr} :=
    ⟨cur, by rw [head, first]; exact List.mem_cons_self⟩
  have threaded := lay.threaded
  have charged : Threaded (charge h ord (rounded siz)) {y | ∃ k, y ∈ (fl k).map addr} :=
    ⟨threaded.units, by simpa using threaded.heads, by simpa using threaded.nexts⟩
  have cell : LinkOf {y | ∃ k, y ∈ (fl k).map addr} (.head cur) := trivial
  obtain ⟨popped, quiet⟩ := charged.set cell (threaded.nexts _ node)
  have quiet' := splitDown_quiet (threaded.units _ node).1 large cur _ _ popped (by
    simp only [Block.Inside, maxOrd] at inside
    rw [head]
    simp only [addr, extMemBase]
    omega) split
  intro x second outside
  rw [writeHdr_outside h₁ (by omega), quiet' x second, quiet x second, charge_mem]

/-- Freeing writes links and clears the magic word. -/
theorem kmFree_quiet {fl : Nat → List Nat} {used : Set Block} (lay : Layout h fl used)
    {o ord siz : Nat}
    (header : Header h.mem (addr o) ord siz) (unit : 32 ∣ addr o) (word : addr o < 2 ^ 32)
    (ran : kmFree h (addr o + hdrSiz) = some h') :
    (∀ x, 4 ≤ x % 32 → x < addr o + 4 ∨ addr o + 8 ≤ x → h'.mem x = h.mem x) ∧
      load32 h'.mem (addr o + 4) = 0 := by
  rw [kmFree_eq lay.base header] at ran
  obtain ⟨r, climbed, inserted⟩ := Option.bind_eq_some_iff.mp ran
  have threaded := lay.threaded
  have refunded : Threaded (refund h ord siz) {y | ∃ k, y ∈ (fl k).map addr} :=
    ⟨threaded.units, by simpa using threaded.heads, by simpa using threaded.nexts⟩
  have place : (refund h ord siz).base + o = addr o := by
    rw [refund_base, lay.base]
    rfl
  obtain ⟨after, quiet, unit', word'⟩ :=
    coalesce_quiet maxOrd _ o ord r refunded (by rwa [place]) (by rwa [place])
    climbed
  have cleared : Threaded { r.1 with
      mem := store32 r.1.mem (addr o + 4) 0 } {y | ∃ k, y ∈ (fl k).map addr} := by
    refine ⟨after.units, after.heads, fun y member => ?_⟩
    have apart := (after.units y member).1
    rw [load32_store32_apart _ _ (by omega)]
    exact after.nexts y member
  obtain ⟨_, quiet'⟩ := insertBlock_quiet unit' word' cleared inserted
  constructor
  · intro x second outside
    rw [quiet' x second]
    simp only
    rw [store32_other _ _ (by omega), quiet x second, refund_mem]
  · rw [load32_congr fun x low high => quiet' x (by omega)]
    exact load32_store32_same _ _ (by decide)

end Links

/-! ## Sessions -/

/-- The heap and its live buffers, with every pointer `malloc` has returned. -/
structure Session where
  state : State
  returned : List Nat

inductive Call where
  | malloc (siz : Nat)
  | free (ptr : Nat)
  | write (a : Nat) (bytes : List UInt8)

/-- Requests succeed, pointers come from `malloc`, and clients store inside their live buffers
    without leaving the magic word at an address congruent to 4 modulo 32. -/
def Call.Legal (s : Session) : Call → Prop
  | .malloc siz => siz < 2 ^ 32 ∧ ∀ h p, Buddy.malloc s.state.heap siz = some (h, p) → p ≠ 0
  | .free p => p = 0 ∨ p ∈ s.returned
  | .write a bytes =>
    (∃ l ∈ s.state.live, l.ptr ≤ a ∧ a + bytes.length ≤ l.ptr + l.siz) ∧
      ∀ w, w % 32 = 4 → w < a + bytes.length → a < w + 4 →
        load32 (storeBytes s.state.heap.mem a bytes) w ≠ hdrMagic

/-- `live` and `returned` are bookkeeping beside the heap. -/
def Call.step (s : Session) : Call → Option Session
  | .malloc siz => do
    let (h, p) ← Buddy.malloc s.state.heap siz
    let ord ← size2ord ((alignUp siz 4 + hdrSiz) % 2 ^ 32)
    return ⟨⟨h, ⟨⟨ord, p - hdrSiz - extMemBase⟩, siz⟩ :: s.state.live⟩, p :: s.returned⟩
  | .free p => do
    let h ← Buddy.free s.state.heap p
    return ⟨⟨h, s.state.live.filter fun l => l.ptr ≠ p⟩, s.returned⟩
  | .write a bytes =>
    some ⟨⟨{ s.state.heap with mem := storeBytes s.state.heap.mem a bytes }, s.state.live⟩,
      s.returned⟩

def sessions : Machine Session Call := ⟨Call.Legal, Call.step⟩

def opened (m : Mem) : Session := ⟨start m, []⟩

def Session.Stale (s : Session) (p : Nat) : Prop := p ∈ s.returned ∧ ∀ l ∈ s.state.live, l.ptr ≠ p

/-- Where a header was, the magic word is gone. -/
structure Remembered (s : Session) (fl : Nat → List Nat) : Prop where
  inv : Inv s.state fl
  places : ∀ p ∈ s.returned, ∃ o, 32 ∣ addr o ∧ p = addr o + hdrSiz
  gone : ∀ p, s.Stale p → load32 s.state.heap.mem (p - hdrSiz + 4) ≠ hdrMagic

theorem magic_bytes {m : Mem} {a x : Nat} (magic : load32 m a = hdrMagic) (low : a ≤ x)
    (high : x < a + 4) :
    m x ≠ 0 := by
  intro zero
  have bytes : ∀ y, (m y).toNat < 256 := fun y => (m y).toNat_lt
  have b0 := bytes a
  have b1 := bytes (a + 1)
  have b2 := bytes (a + 2)
  have b3 := bytes (a + 3)
  have null : (m x).toNat = 0 := by rw [zero]; rfl
  simp only [load32, hdrMagic] at magic
  obtain rfl | rfl | rfl | rfl : x = a ∨ x = a + 1 ∨ x = a + 2 ∨ x = a + 3 := by omega
  · omega
  · omega
  · omega
  · omega

section Sessions
variable {s t : Session} {fl : Nat → List Nat}

theorem Remembered.ignored (rem : Remembered s fl) {p : Nat} (stale : s.Stale p) :
    Buddy.free s.state.heap p = some s.state.heap := by
  rw [Buddy.free, kmFree]
  split
  · rfl
  · exact if_pos (rem.gone p stale)

theorem Inv.live_unit {state : State} (inv : Inv state fl) {l : Live} (member : l ∈ state.live) :
    32 ∣ addr l.block.off ∧ addr l.block.off < 2 ^ 32 := by
  have tile : (Role.used, l.block) ∈ tilesOf fl (usedBy state.live) := live_tile member
  exact ⟨unit_addr (inv.layout.tiled.aligned _ tile) (inv.layout.large _ tile),
    inv.layout.addr_word tile⟩

theorem malloc_call (rem : Remembered s fl) {siz : Nat} (ok : Call.Legal s (.malloc siz))
    (stepped : Call.step s (.malloc siz) = some t) : ∃ fl', Remembered t fl' := by
  obtain ⟨word, succeeds⟩ := ok
  obtain ⟨⟨h, p⟩, ran, rest⟩ := Option.bind_eq_some_iff.mp stepped
  have real := succeeds h p ran
  obtain ⟨ord, o, fl', range, order, place, inv'⟩ := malloc_step rem.inv word ran real
  obtain ⟨h₀, ran₀, _, filled⟩ := malloc_parts ran
  have quiet := kmAlloc_quiet rem.inv.layout range ran₀ real
  have off : p - hdrSiz - extMemBase = o := by
    simp only [place, addr]
    omega
  simp only [inRange_words range, inRange_total range, order, Option.bind_eq_bind,
    Option.bind_some, off,
    Option.pure_def, Option.some.injEq] at rest
  subst rest
  have unit := (inv'.live_unit List.mem_cons_self).1
  refine ⟨fl', inv', ?_, ?_⟩
  · intro q member
    rcases List.mem_cons.mp member with rfl | old
    · exact ⟨o, unit, place⟩
    · exact rem.places q old
  · rintro q ⟨member, stale⟩ magic
    have other : p ≠ q := fun same => stale _ List.mem_cons_self (place.symm.trans same)
    have old : q ∈ s.returned := (List.mem_cons.mp member).resolve_left (Ne.symm other)
    obtain ⟨o', unit', rfl⟩ := rem.places q old
    refine rem.gone _ ⟨old, fun l ml => stale l (List.mem_cons_of_mem _ ml)⟩ ?_
    -- no byte of the word was cleared, so none was written at all
    rw [← magic]
    refine (load32_congr fun x low high => ?_).symm
    have kept : h.mem x = h₀.mem x := by
      have byte := magic_bytes magic low high
      simp only [filled] at byte ⊢
      split at byte
      · exact absurd rfl byte
      · rw [if_neg (by assumption)]
    rw [kept]
    simp only [place, Nat.add_sub_cancel, hdrSiz] at low high other quiet unit ⊢
    exact quiet x (by omega) (by omega)

theorem free_call_idle (rem : Remembered s fl) {p : Nat} (ok : Call.Legal s (.free p))
    (idle : ∀ l ∈ s.state.live, l.ptr ≠ p) : Call.step s (.free p) = some s := by
  have ran : Buddy.free s.state.heap p = some s.state.heap := by
    rcases ok with rfl | returned
    · rw [Buddy.free, kmFree, if_pos rfl]
    · exact rem.ignored ⟨returned, idle⟩
  have all : (s.state.live.filter fun l => l.ptr ≠ p) = s.state.live :=
    List.filter_eq_self.mpr fun l member => by simpa using idle l member
  simp only [Call.step, ran, Option.bind_eq_bind, Option.bind_some, all, Option.pure_def]

theorem free_call_live (rem : Remembered s fl) {l : Live} (member : l ∈ s.state.live) :
    ∃ h fl', Call.step s (.free l.ptr) =
        some ⟨⟨h, s.state.live.filter fun l' => l'.ptr ≠ l.ptr⟩, s.returned⟩ ∧
      Remembered ⟨⟨h, s.state.live.filter fun l' => l'.ptr ≠ l.ptr⟩, s.returned⟩ fl' := by
  obtain ⟨h, fl', ran, inv'⟩ := free_step rem.inv member
  obtain ⟨unit, word⟩ := rem.inv.live_unit member
  obtain ⟨quiet, cleared⟩ := kmFree_quiet rem.inv.layout (rem.inv.headers l member) unit word ran
  refine ⟨h, fl', ?_, inv', rem.places, ?_⟩
  · simp only [Call.step, Buddy.free, ran, Option.bind_eq_bind, Option.bind_some, Option.pure_def]
  · rintro q ⟨returned, stale⟩
    obtain ⟨o, unit', rfl⟩ := rem.places q returned
    rw [Nat.add_sub_cancel]
    by_cases same : addr o = addr l.block.off
    · simp only
      rw [same, cleared]
      decide
    · have old : s.Stale (addr o + hdrSiz) := by
        refine ⟨returned, fun l' ml' same' => ?_⟩
        have different : l'.ptr ≠ l.ptr := by
          rw [same']
          simp only [Live.ptr]
          omega
        exact stale l' (List.mem_filter.mpr ⟨ml', by simpa using different⟩) same'
      have before := rem.gone _ old
      rw [Nat.add_sub_cancel] at before
      simp only
      rwa [load32_congr fun x low high => quiet x (by omega) (by omega)]

theorem write_call (rem : Remembered s fl) {a : Nat} {bytes : List UInt8}
    (ok : Call.Legal s (.write a bytes)) :
    Remembered
      ⟨⟨{ s.state.heap with mem := storeBytes s.state.heap.mem a bytes }, s.state.live⟩,
      s.returned⟩ fl := by
  obtain ⟨⟨l, member, low, high⟩, clean⟩ := ok
  refine ⟨rem.inv.fill member fun x outside => storeBytes_other _ _ _ (by omega), rem.places, ?_⟩
  rintro q ⟨returned, stale⟩
  obtain ⟨o, unit, rfl⟩ := rem.places q returned
  have before := rem.gone _ ⟨returned, stale⟩
  rw [Nat.add_sub_cancel] at before ⊢
  simp only
  by_cases touched : addr o + 4 < a + bytes.length ∧ a < addr o + 4 + 4
  · exact clean (addr o + 4) (by omega) touched.1 touched.2
  · rwa [load32_congr fun x low' high' => storeBytes_other _ _ _ (by omega)]

theorem call_remembered (rem : Remembered s fl) {c : Call} (ok : Call.Legal s c)
    (stepped : Call.step s c = some t) :
    ∃ fl', Remembered t fl' := by
  cases c with
  | malloc siz => exact malloc_call rem ok stepped
  | free p =>
    by_cases live : ∃ l ∈ s.state.live, l.ptr = p
    · obtain ⟨l, member, rfl⟩ := live
      obtain ⟨h, fl', ran, rem'⟩ := free_call_live rem member
      obtain rfl := Option.some.inj (ran.symm.trans stepped)
      exact ⟨fl', rem'⟩
    · have idle : ∀ l ∈ s.state.live, l.ptr ≠ p := fun l member same => live ⟨l, member, same⟩
      obtain rfl := Option.some.inj ((free_call_idle rem ok idle).symm.trans stepped)
      exact ⟨fl, rem⟩
  | write a bytes =>
    obtain rfl := Option.some.inj stepped
    exact ⟨fl, write_call rem ok⟩

theorem opened_remembered (m : Mem) : Remembered (opened m) startLists :=
  ⟨start_inv m, fun _ member => absurd member List.not_mem_nil,
    fun _ stale => absurd stale.1 List.not_mem_nil⟩

end Sessions

/-- Freeing a pointer that is not live any more changes nothing. -/
theorem stale_free_ignored (m : Mem) (s : Session) (reach : Reach sessions (opened m) s) (p : Nat)
    (stale : s.Stale p) : Buddy.free s.state.heap p = some s.state.heap := by
  obtain ⟨fl, rem⟩ : ∃ fl, Remembered s fl := by
    refine reach_invariant (fun s => ∃ fl, Remembered s fl) ⟨startLists,
      opened_remembered m⟩ ?_ reach
    rintro s c t ⟨fl, rem⟩ ok stepped
    exact call_remembered rem ok stepped
  exact rem.ignored stale

theorem second_free_ignored : ∃ s, Reach sessions (opened fun _ => 0) s ∧
    s.Stale (extMemBase + hdrSiz) ∧
    Buddy.free s.state.heap (extMemBase + hdrSiz) = some s.state.heap := by
  have inner : (Buddy.malloc (start fun _ => 0).heap 20).map Prod.snd =
      some (extMemBase + hdrSiz) := by
    decide +kernel
  have shape : (Call.step (opened fun _ => 0) (.malloc 20)).map
    (fun s => (s.state.live, s.returned)) =
      some ([⟨⟨5, 0⟩, 20⟩], [extMemBase + hdrSiz]) := by
    decide +kernel
  obtain ⟨s₁, stepped, values⟩ := Option.map_eq_some_iff.mp shape
  obtain ⟨live, returned⟩ := Prod.mk.inj values
  have ok : Call.Legal (opened fun _ => 0) (.malloc 20) := by
    refine ⟨by decide, fun h p ran null => ?_⟩
    have same : (Buddy.malloc (start fun _ => 0).heap 20).map Prod.snd = some p := by
      rw [show Buddy.malloc (start fun _ => 0).heap 20 = some (h, p) from ran]
      rfl
    rw [inner, null] at same
    exact absurd same (by decide)
  obtain ⟨fl, rem⟩ := call_remembered (opened_remembered _) ok stepped
  have member : Live.mk ⟨5, 0⟩ 20 ∈ s₁.state.live := by
    rw [live]
    exact List.mem_cons_self
  obtain ⟨h, fl', freed, _⟩ := free_call_live rem member
  have ok' : Call.Legal s₁ (.free (Live.mk ⟨5, 0⟩ 20).ptr) := by
    right
    rw [returned]
    exact List.mem_singleton.mpr rfl
  have reach : Reach sessions (opened fun _ => 0) _ :=
    ⟨[.malloc 20, .free (Live.mk ⟨5, 0⟩ 20).ptr],
      Run.cons ok stepped (Run.cons ok' freed (Run.nil _))⟩
  have stale : Session.Stale ⟨⟨h, s₁.state.live.filter fun l => l.ptr ≠ (Live.mk ⟨5, 0⟩ 20).ptr⟩,
    s₁.returned⟩
      (extMemBase + hdrSiz) := by
    refine ⟨by rw [returned]; exact List.mem_singleton.mpr rfl, fun l inside same => ?_⟩
    exact of_decide_eq_true (List.mem_filter.mp inside).2 same
  exact ⟨_, reach, stale, stale_free_ignored _ _ reach _ stale⟩

end Buddy
