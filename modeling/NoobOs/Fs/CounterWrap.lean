import NoobOs.Fs.PathBalance

/-!
The inode cache without any promise about reference counts. A count wraps at 2^16, so an
inode in use may show 0 and a later `iput` may put it on the ring although references are
left; the chains and the ring stay in order all the same, and every key keeps its inode.
-/
namespace Vfs
open InodeCache HookedChain RingList Lists Runs Strings

/-- The cache with each count reduced to whether the inode is off the ring. -/
def flat (c : Cache) (idle : List Nat) : Cache :=
  { c with inode := fun p => { c.inode p with refs := if p ∈ idle then 0 else 1 } }

structure Loose (sDev : Nat → Nat) (c : Cache) (alive : List Nat) (chains : Nat → List Nat)
    (idle : List Nat) :
    Prop where
  lists : Cached sDev (flat c idle) alive chains idle
  idle : ∀ p ∈ idle, (c.inode p).refs = 0

section Cache
variable {sDev : Nat → Nat} {sbs : SuperBlocks} {c d : Cache} {alive : List Nat}
  {chains : Nat → List Nat}
  {idle : List Nat} {p : Nat}

theorem bare_flat (q : Nat) : bare ((flat c idle).inode q) = bare (c.inode q) := rfl

theorem key_flat (q : Nat) : key sDev ((flat c idle).inode q) = key sDev (c.inode q) := rfl

theorem Cached.loosen (cached : Cached sDev d alive chains idle) (lru : c.lru = d.lru)
    (hash : c.hash = d.hash)
    (bares : ∀ q, bare (c.inode q) = bare (d.inode q)) (zero : ∀ p ∈ idle, (c.inode p).refs = 0) :
    Loose sDev c alive chains idle := by
  have owners : ∀ q, (c.inode q).sb = (d.inode q).sb :=
    fun q => eq_of_bare _ (fun _ => rfl) (bares q)
  have numbers : ∀ q, (c.inode q).ino = (d.inode q).ino :=
    fun q => eq_of_bare _ (fun _ => rfl) (bares q)
  have busy : ∀ q ∈ alive, 0 < (d.inode q).refs ↔ 0 < ((flat c idle).inode q).refs := by
    intro q mq
    have resting := cached.resting q
    simp only [flat]
    split
    next member => simp [(resting.mp member).2]
    next off =>
      simp only [Nat.zero_lt_one, iff_true]
      exact Nat.pos_of_ne_zero fun none' => off (resting.mpr ⟨mq, none'⟩)
  refine ⟨⟨hash ▸ cached.table, lru ▸ cached.ring, (owners ilru).trans cached.sentinel,
    ?_, ?_, ?_, ?_,
    cached.real, ?_, cached.distinct⟩, zero⟩
  · intro h q
    rw [cached.hashed h q]
    constructor
    · rintro ⟨mq, used, sb, owner, here⟩
      exact ⟨mq, (busy q mq).mp used, sb, (owners q).trans owner,
        here.trans (by rw [← numbers q]; rfl)⟩
    · rintro ⟨mq, used, sb, owner, here⟩
      exact ⟨mq, (busy q mq).mpr used, sb, (owners q).symm.trans owner,
        here.trans (by rw [← numbers q]; rfl)⟩
  · intro q
    rw [cached.resting q]
    apply and_congr_right
    intro mq
    have := busy q mq
    omega
  · intro q mq
    exact fun none' => cached.known q mq ((owners q).symm.trans none')
  · intro q mq r mr keys
    apply cached.unique q mq r mr
    rw [key_flat, key_flat] at keys
    rwa [← key_bare sDev (bares q), ← key_bare sDev (bares r)]
  · intro q mq
    simp only [flat]
    split <;> decide

theorem Cached.loose (cached : Cached sDev c alive chains idle) : Loose sDev c alive chains idle :=
  Cached.loosen cached rfl rfl (fun _ => rfl) fun p resting => ((cached.resting p).mp resting).2

theorem Loose.recount (loose : Loose sDev c alive chains idle) (lru : d.lru = c.lru)
    (hash : d.hash = c.hash)
    (bares : ∀ q, bare (d.inode q) = bare (c.inode q)) (zero : ∀ p ∈ idle, (d.inode p).refs = 0) :
    Loose sDev d alive chains idle :=
  Cached.loosen loose.lists lru hash bares zero

theorem scanHash_flat (dev ino fuel : Nat) (k : Option Nat) :
    scanHash sbs (flat c idle) dev ino fuel k = scanHash sbs c dev ino fuel k := by
  induction fuel generalizing k with
  | zero => rfl
  | succ fuel ih =>
    cases k with
    | none => rfl
    | some k =>
      unfold scanHash
      simp only [ih]
      rfl

theorem scanLru_flat (idle : List Nat) (dev ino fuel m : Nat) :
    scanLru sbs (flat c idle) dev ino fuel m = scanLru sbs c dev ino fuel m := by
  induction fuel generalizing m with
  | zero => rfl
  | succ fuel ih =>
    unfold scanLru
    simp only [ih]
    rfl

theorem bare_incRefs (bares : ∀ q, bare (c.inode q) = bare (d.inode q)) (q : Nat) :
    bare ((incRefs c p).inode q) = bare ((incRefs d p).inode q) := by
  have same := bares q
  by_cases here : q = p
  · subst here
    simpa [incRefs, Cache.setNode, bare] using same
  · simpa [incRefs, Cache.setNode, here] using same

theorem incRefs_other {q : Nat} (other : q ≠ p) : (incRefs c p).inode q = c.inode q := by
  simp [incRefs, Cache.setNode, other]

theorem readNew_flat (sbs : SuperBlocks) (c : Cache) (idle : List Nat) (sb ino new : Nat) :
    (readNew sbs (flat c idle) sb ino new).lru = (readNew sbs c sb ino new).lru ∧
      (readNew sbs (flat c idle) sb ino new).hash = (readNew sbs c sb ino new).hash := by
  simp [readNew, Cache.setNode, Cache.setImage, Cache.image, flat]

theorem iget_flat {sb ino new : Nat} {found : Option Nat} (zero : ∀ p ∈ idle, (c.inode p).refs = 0)
    (onRing : ∀ p, scanLru sbs c (sbs.sDev sb) ino scanFuel ilru = some (some p) → p ∈ idle)
    (ran : iget sbs (flat c idle) (some sb) ino new = some (d, found)) :
    ∃ c', iget sbs c (some sb) ino new = some (c', found) ∧ c'.lru = d.lru ∧ c'.hash = d.hash ∧
      (∀ q, bare (c'.inode q) = bare (d.inode q)) ∧ ∀ q, some q ≠ found →
      c'.inode q = c.inode q := by
  unfold iget at ran ⊢
  have first : (flat c idle).hash.first = c.hash.first := rfl
  simp only [scanHash_flat, scanLru_flat, first, Option.bind_eq_bind, Option.pure_def] at ran ⊢
  cases hashed : scanHash sbs c (sbs.sDev sb) ino scanFuel
    (c.hash.first (ihash (sbs.sDev sb) ino)) with
  | none => simp [hashed] at ran
  | some hit =>
    rw [hashed] at ran
    cases hit with
    | some p =>
      simp only [Option.bind_some, Option.some.injEq, Prod.mk.injEq] at ran ⊢
      obtain ⟨rfl, rfl⟩ := ran
      refine ⟨incRefs c p, ⟨rfl, rfl⟩, rfl, rfl, bare_incRefs fun _ => rfl, ?_⟩
      intro q other
      exact incRefs_other fun here => other (congrArg some here)
    | none =>
      cases rested : scanLru sbs c (sbs.sDev sb) ino scanFuel ilru with
      | none => simp [rested] at ran
      | some hit =>
        rw [rested] at ran
        cases hit with
        | some p =>
          have resting := onRing p rested
          have unused : ((flat c idle).inode p).refs = 0 := by simp [flat, resting]
          have lists : (flat c idle).lru = c.lru := rfl
          simp only [Option.bind_some, if_pos unused, lists] at ran
          simp only [Option.bind_some, if_pos (zero p resting)]
          cases removed : listDel c.lru p with
          | none => simp [removed] at ran
          | some lru =>
            simp only [removed, Option.bind_some, Option.some.injEq, Prod.mk.injEq] at ran ⊢
            obtain ⟨rfl, rfl⟩ := ran
            refine ⟨_, ⟨rfl, rfl⟩, rfl, rfl, bare_incRefs fun _ => rfl, ?_⟩
            intro q other
            exact incRefs_other (c := { c with lru := lru }) fun here => other (congrArg some here)
        | none =>
          simp only [Option.bind_some, Option.some.injEq, Prod.mk.injEq] at ran ⊢
          obtain ⟨rfl, rfl⟩ := ran
          obtain ⟨lru, hash⟩ := readNew_flat sbs c idle sb ino new
          refine ⟨_, ⟨rfl, rfl⟩, lru.symm, hash.symm, ?_, ?_⟩
          · intro q
            rw [readNew_inode, readNew_inode]
            by_cases here : q = new
            · simp [here]
            · simp [here, bare_flat]
          · intro q other
            have elsewhere : q ≠ new := fun here => other (congrArg some here)
            simp [readNew_inode, elsewhere]

theorem iget_loose (sbs : SuperBlocks) (loose : Loose sbs.sDev c alive chains idle)
    {sb ino new : Nat} (fresh : new ∉ alive)
    (place : new ≠ ilru ∧ new < 2 ^ 32) :
    ∃ c' p alive' chains' idle', iget sbs c (some sb) ino new = some (c', some p) ∧
      Loose sbs.sDev c' alive' chains' idle' ∧
      ((p ∈ alive ∧ key sbs.sDev (c.inode p) = (some (sbs.sDev sb), ino) ∧ alive' = alive ∧
          ∀ q, bare (c'.inode q) = bare (c.inode q)) ∨
        (p = new ∧ (∀ q ∈ alive, key sbs.sDev (c.inode q) ≠ (some (sbs.sDev sb), ino)) ∧
        alive' = new :: alive ∧
          bare (c'.inode new) = bare (newNode sbs sb ino) ∧
          ∀ q, q ≠ new → c'.inode q = c.inode q)) := by
  have room : ∀ q ∈ alive, key sbs.sDev ((flat c idle).inode q) = (some (sbs.sDev sb), ino) →
      ((flat c idle).inode q).refs + 1 < 2 ^ 16 := by
    intro q _ _
    simp only [flat]
    split <;> decide
  have onRing : ∀ p, scanLru sbs c (sbs.sDev sb) ino scanFuel ilru = some (some p) → p ∈ idle := by
    intro p found
    rw [← scanLru_flat idle, loose.lists.scanLru_eq] at found
    exact List.mem_of_find?_eq_some (Option.some.inj found)
  obtain ⟨d, p, alive', chains', idle', ran, cached, shape⟩ :=
    iget_spec sbs loose.lists fresh place room
  obtain ⟨c', ran', lru, hash, bares, others⟩ := iget_flat loose.idle onRing ran
  refine ⟨c', p, alive', chains', idle', ran', Cached.loosen cached lru hash bares ?_, ?_⟩
  · -- only the inode returned left the ring
    intro q resting
    have unused := ((cached.resting q).mp resting).2
    have elsewhere : q ≠ p := by
      rintro rfl
      rcases shape with ⟨_, _, _, content⟩ | ⟨rfl, _, _, content⟩
      · simp [content] at unused
      · simp [content, newNode] at unused
    have before : ((flat c idle).inode q).refs = 0 := by
      rcases shape with ⟨_, _, _, content⟩ | ⟨rfl, _, _, content⟩
      · simpa [content, elsewhere] using unused
      · simpa [content, elsewhere] using unused
    rw [others q fun here => elsewhere (Option.some.inj here)]
    apply loose.idle
    simpa [flat] using before
  · rcases shape with ⟨member, same, rfl, content⟩ | ⟨rfl, missing, rfl, content⟩
    · refine Or.inl ⟨member, same, rfl, ?_⟩
      intro q
      rw [bares q, content]
      by_cases here : q = p
      · simp [here, bare, flat]
      · simp [here, bare_flat]
    · refine Or.inr ⟨rfl, missing, rfl, ?_, fun q other => others q fun here =>
        other (Option.some.inj here)⟩
      rw [bares p, content, Function.update_self]

theorem iput_loose (loose : Loose sDev c alive chains idle) (member : p ∈ alive) :
    ∃ c' chains' idle', iput c p = some c' ∧ Loose sDev c' alive chains' idle' ∧
      ∀ q, bare (c'.inode q) = bare (c.inode q) := by
  by_cases unused : (c.inode p).refs = 0
  · exact ⟨c, chains, idle, by simp [iput, unused], loose, fun _ => rfl⟩
  have off : p ∉ idle := fun resting => unused (loose.idle p resting)
  have counted : ∀ n q, bare ((c.setNode p { c.inode p with refs := n }).inode q) =
      bare (c.inode q) := by
    intro n q
    by_cases here : q = p
    · simp [Cache.setNode, here, bare]
    · simp [Cache.setNode, here]
  have others : ∀ n q, q ≠ p → (c.setNode p { c.inode p with refs := n }).inode q = c.inode q := by
    intro n q other
    simp [Cache.setNode, other]
  by_cases last : (c.inode p).refs = 1
  · have one : ((flat c idle).inode p).refs = 1 := by simp [flat, off]
    obtain ⟨d, chains', idle', ran, content, cached⟩ := iput_spec loose.lists member (by omega)
    have lru : (flat c idle).lru = c.lru := rfl
    have hash : (flat c idle).hash = c.hash := rfl
    simp only [iput, one, Nat.one_ne_zero, if_false, Cache.setNode,
      Function.update_self, Nat.sub_self,
      Nat.lt_irrefl, lru, hash, Option.bind_eq_bind, Option.bind_eq_some_iff] at ran
    obtain ⟨lru', added, hash', removed, ran⟩ := ran
    obtain rfl := Option.some.inj ran
    refine ⟨_, chains', idle', ?_,
      Cached.loosen cached (c := ⟨(c.setNode p { c.inode p with refs := 0 }).inode,
      lru', hash'⟩) rfl rfl ?_ ?_, counted 0⟩
    · simp [iput, last, Cache.setNode, added, removed]
    · intro q
      rw [content]
      by_cases here : q = p
      · simp [here, bare, flat, Cache.setNode]
      · simp [here, bare_flat, Cache.setNode]
    · intro q resting
      have zero := ((cached.resting q).mp resting).2
      by_cases here : q = p
      · simp [here, Cache.setNode]
      · rw [content, Function.update_of_ne here] at zero
        simp only
        rw [others 0 q here]
        apply loose.idle
        simpa [flat] using zero
  · refine ⟨c.setNode p { c.inode p with refs := (c.inode p).refs - 1 }, chains, idle, ?_,
      loose.recount rfl rfl (counted _) ?_, counted _⟩
    · have more : 0 < (c.inode p).refs - 1 := by omega
      simp [iput, unused, more, Cache.setNode]
    · intro q resting
      have other : q ≠ p := fun here => off (here ▸ resting)
      rw [others _ q other]
      exact loose.idle q resting

theorem purgeLru_flat (fuel : Nat) :
    purgeLru fuel (flat c idle) = (purgeLru fuel c).map fun r => (flat r.1 idle, r.2) := by
  induction fuel generalizing c with
  | zero => rfl
  | succ fuel ih =>
    have lru : (flat c idle).lru = c.lru := rfl
    unfold purgeLru
    simp only [freeInode, lru, Option.bind_eq_bind, Option.pure_def]
    cases c.lru.next ilru with
    | none => rfl
    | some k =>
      simp only [Option.bind_some]
      split
      · rfl
      · cases listDel c.lru k with
        | none => rfl
        | some lru' =>
          have rest := ih (c := { c with lru := lru' })
          change (purgeLru fuel (flat { c with lru := lru' } idle)).bind _ = _
          rw [rest]
          cases purged : purgeLru fuel { c with lru := lru' } with
          | none => simp [purged]
          | some r => simp [purged]

theorem purgeLru_loose (loose : Loose sDev c alive chains idle) :
    ∃ c', purgeLru scanFuel c = some (c', idle) ∧ c'.inode = c.inode ∧
      Loose sDev c' (alive.filter fun p => p ∉ idle) chains [] := by
  obtain ⟨d, ran, content, cached⟩ := purgeLru_spec loose.lists
  obtain ⟨lru, ran', ring⟩ :=
    purgeLru_ring (c := c) loose.lists.ring scanFuel loose.lists.idle_short
  rw [purgeLru_flat, ran', Option.map_some, Option.some.injEq, Prod.mk.injEq] at ran
  obtain ⟨rfl, -⟩ := ran
  exact ⟨_, ran', rfl, Cached.loosen cached rfl rfl (fun _ => rfl) (by simp)⟩

end Cache

/-! ## Runs with no bound on the references -/

def InOrder (sDev : Nat → Nat) (s : State) : Prop :=
  ∃ chains idle, Loose sDev s.cache s.alive chains idle

/-- Any cached inode may be dropped or mounted on, held or not, and any number fetched any
    number of times. -/
def Allowed (s : State) : Request → Prop
  | .iget _ _ _ new => new ∉ s.alive ∧ (new ≠ ilru ∧ new < 2 ^ 32)
  | .iput p => p ∈ s.alive
  | .imount p _ => p ∈ s.alive
  | .purgeLru => True

def openMachine (sDev : Nat → Nat) : Machine State Request := ⟨Allowed, step sDev⟩

section States
variable {sDev : Nat → Nat} {v : Files} {s : State} {p : Nat}

theorem InOrder.unique (order : InOrder sDev s) : OneEach sDev s := by
  obtain ⟨chains, idle, loose⟩ := order
  exact loose.lists.unique

theorem InOrder.owner (order : InOrder sDev s) (member : p ∈ s.alive) :
    ∃ sb, (s.cache.inode p).sb = some sb := by
  obtain ⟨chains, idle, loose⟩ := order
  exact Option.ne_none_iff_exists'.mp (loose.lists.known p member)

theorem start_order (sDev : Nat → Nat) : InOrder sDev start :=
  ⟨_, _, Cached.loose (start_inv sDev).cached⟩

/-- A fetch, with what it does to the inodes known. -/
theorem take_order (order : InOrder sDev s) (read : Nat → ReadInode) (sb ino : Nat) {new : Nat}
    (fresh : new ∉ s.alive)
    (place : new ≠ ilru ∧ new < 2 ^ 32) :
    ∃ t p, take sDev s read (some sb) ino new = some (t, some p) ∧ InOrder sDev t ∧
      ((p ∈ s.alive ∧ key sDev (s.cache.inode p) = (some (sDev sb), ino) ∧ t.alive = s.alive ∧
          ∀ q, bare (t.cache.inode q) = bare (s.cache.inode q)) ∨
        (p = new ∧ (∀ q ∈ s.alive, key sDev (s.cache.inode q) ≠ (some (sDev sb), ino)) ∧
        t.alive = new :: s.alive ∧
          bare (t.cache.inode new) = bare (newNode ⟨sDev, read⟩ sb ino) ∧
          ∀ q, q ≠ new → t.cache.inode q = s.cache.inode q)) := by
  obtain ⟨chains, idle, loose⟩ := order
  obtain ⟨c, p, alive, chains', idle', ran, loose', shape⟩ :=
    iget_loose ⟨sDev, read⟩ loose fresh place
  rcases shape with ⟨member, same, rfl, bares⟩ | ⟨rfl, missing, rfl, mine, others⟩
  · refine ⟨{ s with cache := c, gets := Function.update s.gets p (s.gets p + 1) }, p, ?_,
      ⟨chains', idle', loose'⟩,
      Or.inl ⟨member, same, rfl, bares⟩⟩
    simp only [take, ran, Option.bind_eq_bind, Option.bind_some, if_pos member, Option.pure_def]
  · refine ⟨⟨c, p :: s.alive, Function.update s.gets p 1, Function.update s.puts p 0⟩, p, ?_,
      ⟨chains', idle', loose'⟩, Or.inr ⟨rfl, missing, rfl, mine, others⟩⟩
    simp only [take, ran, Option.bind_eq_bind, Option.bind_some, if_neg fresh, Option.pure_def]

theorem drop_order (order : InOrder sDev s) (member : p ∈ s.alive) :
    ∃ t, drop s p = some t ∧ InOrder sDev t ∧ t.alive = s.alive ∧
      ∀ q, bare (t.cache.inode q) = bare (s.cache.inode q) := by
  obtain ⟨chains, idle, loose⟩ := order
  obtain ⟨c, chains', idle', ran, loose', bares⟩ := iput_loose loose member
  refine ⟨{ s with cache := c, puts := Function.update s.puts p (s.puts p + 1) }, ?_,
    ⟨chains', idle', loose'⟩,
    rfl, bares⟩
  simp only [drop, ran, Option.bind_eq_bind, Option.bind_some, Option.pure_def]

theorem step_order (order : InOrder sDev s) {r : Request} (ok : Allowed s r) :
    ∃ t, step sDev s r = some t ∧ InOrder sDev t := by
  cases r with
  | iget read sb ino new =>
    cases sb with
    | none => exact ⟨s, rfl, order⟩
    | some sb =>
      obtain ⟨t, p, taken, order', _⟩ := take_order order read sb ino ok.1 ok.2
      exact ⟨t, by simp [step, taken], order'⟩
  | iput p =>
    obtain ⟨t, dropped, order', _⟩ := drop_order order ok
    exact ⟨t, dropped, order'⟩
  | imount p mnt =>
    obtain ⟨chains, idle, loose⟩ := order
    refine ⟨_, rfl, chains, idle, ⟨?_, ?_⟩⟩
    · have same : flat (imount s.cache p mnt) idle = (flat s.cache idle).setNode p
          { (flat s.cache idle).inode p with
            iflags := ((flat s.cache idle).inode p).iflags ||| inMount, mnt := some mnt } := by
        simp only [flat, imount, Cache.setNode, Cache.mk.injEq, and_true]
        funext q
        by_cases here : q = p
        · simp [here]
        · simp [here]
      simp only
      rw [same]
      exact loose.lists.retouch ok rfl rfl Iff.rfl (loose.lists.counter p ok)
    · intro q resting
      have zero := loose.idle q resting
      by_cases here : q = p
      · simpa [imount, Cache.setNode, here] using here ▸ zero
      · simpa [imount, Cache.setNode, here] using zero
  | purgeLru =>
    obtain ⟨chains, idle, loose⟩ := order
    obtain ⟨c, ran, _, loose'⟩ := purgeLru_loose loose
    refine ⟨{ s with cache := c, alive := s.alive.filter fun p => p ∉ idle }, ?_,
      chains, [], loose'⟩
    simp only [step, ran, Option.bind_eq_bind, Option.bind_some, Option.pure_def]

theorem reach_order (reach : Reach (openMachine sDev) start s) : InOrder sDev s := by
  apply reach_invariant (InOrder sDev) (start_order sDev) ?_ reach
  intro s r t order ok stepped
  obtain ⟨t', ran, order'⟩ := step_order order ok
  obtain rfl := Option.some.inj (ran.symm.trans stepped)
  exact order'

end States

end Vfs
