import NoobOs.Fs.InodeInvariant
import NoobOs.Lib.Runs

/-!
Runs of the inode cache from its static initial state. Callers may fetch any
number on any superblock, drop or mount on references they hold, and purge; the
addresses `malloc` returns and what `read_inode` finds are up to the environment.
-/
namespace InodeCache
open RingList HookedChain Lists Runs

/-- `gets` and `puts` count the calls on each allocated inode; no function reads
    them or `alive`. -/
structure State where
  cache : Cache
  alive : List Nat
  gets : Nat → Nat
  puts : Nat → Nat

inductive Request where
  | iget (read : Nat → ReadInode) (sb : Option Nat) (ino new : Nat)
  | iput (p : Nat)
  | imount (p mnt : Nat)
  | purgeLru

def Legal (sDev : Nat → Nat) (s : State) : Request → Prop
  | .iget _ sb ino new => new ∉ s.alive ∧ (new ≠ ilru ∧ new < 2 ^ 32) ∧
    ∀ b, sb = some b → ∀ p ∈ s.alive, key sDev (s.cache.inode p) = (some (sDev b), ino) →
      s.gets p < s.puts p + 65535
  | .iput p => p ∈ s.alive ∧ s.puts p < s.gets p
  | .imount p _ => p ∈ s.alive ∧ s.puts p < s.gets p
  | .purgeLru => True

def take (sDev : Nat → Nat) (s : State) (read : Nat → ReadInode) (sb : Option Nat)
    (ino new : Nat) : Option (State × Option Nat) := do
  let (c, found) ← iget ⟨sDev, read⟩ s.cache sb ino new
  match found with
  | none => return ({ s with cache := c }, none)
  | some p =>
    if p ∈ s.alive then
      return ({ s with cache := c, gets := Function.update s.gets p (s.gets p + 1) }, some p)
    else
      return (⟨c, p :: s.alive, Function.update s.gets p 1, Function.update s.puts p 0⟩, some p)

def drop (s : State) (p : Nat) : Option State := do
  let c ← iput s.cache p
  return { s with cache := c, puts := Function.update s.puts p (s.puts p + 1) }

def step (sDev : Nat → Nat) (s : State) : Request → Option State
  | .iget read sb ino new => (take sDev s read sb ino new).map Prod.fst
  | .iput p => drop s p
  | .imount p mnt => some { s with cache := imount s.cache p mnt }
  | .purgeLru => do
    let (c, freed) ← purgeLru scanFuel s.cache
    return { s with cache := c, alive := s.alive.filter fun p => p ∉ freed }

def machine (sDev : Nat → Nat) : Machine State Request := ⟨Legal sDev, step sDev⟩

def start : State where
  cache :=
    { inode := Function.update (fun _ => Inode.zero) ilru { Inode.zero with dev := 99 }
      lru := initList ⟨fun _ => none, fun _ => none⟩ ilru
      hash := ⟨fun _ => none, fun _ => none, fun _ => none⟩ }
  alive := []
  gets := fun _ => 0
  puts := fun _ => 0

structure Inv (sDev : Nat → Nat) (s : State) (chains : Nat → List Nat) (idle : List Nat) :
    Prop where
  cached : Cached sDev s.cache s.alive chains idle
  counted : ∀ p ∈ s.alive, (s.cache.inode p).refs + s.puts p = s.gets p

theorem start_inv (sDev : Nat → Nat) : Inv sDev start (fun _ => []) [] := by
  refine ⟨⟨⟨?_, ?_, ?_⟩, ⟨?_, ?_⟩, ?_, ?_, ?_, ?_, ?_, ?_, ?_, ?_⟩, ?_⟩
  · intro h
    rfl
  all_goals simp [start, Linked, initList, Links.setNext, Links.setPrev, Inode.zero]

section Steps
variable {sDev : Nat → Nat} {s : State} {chains : Nat → List Nat} {idle : List Nat}

theorem take_spec (inv : Inv sDev s chains idle) {read : Nat → ReadInode} {sb ino new : Nat}
    (ok : Legal sDev s (.iget read (some sb) ino new)) :
    ∃ t p chains' idle', take sDev s read (some sb) ino new = some (t, some p) ∧
      iget ⟨sDev, read⟩ s.cache (some sb) ino new = some (t.cache, some p) ∧
      Inv sDev t chains' idle' ∧
      ((p ∈ s.alive ∧ key sDev (s.cache.inode p) = (some (sDev sb), ino) ∧ t.alive = s.alive ∧
          t.cache.inode = Function.update s.cache.inode p
            { s.cache.inode p with refs := (s.cache.inode p).refs + 1 }) ∨
        (p = new ∧ (∀ q ∈ s.alive, key sDev (s.cache.inode q) ≠ (some (sDev sb), ino)) ∧
          t.alive = p :: s.alive ∧ t.cache.inode = Function.update s.cache.inode p
            (newNode ⟨sDev, read⟩ sb ino))) := by
  obtain ⟨fresh, place, room⟩ := ok
  have counters : ∀ q ∈ s.alive, key sDev (s.cache.inode q) = (some (sDev sb), ino) →
      (s.cache.inode q).refs + 1 < 2 ^ 16 := by
    intro q mq same
    have bound := room sb rfl q mq same
    have count := inv.counted q mq
    omega
  obtain ⟨c, p, alive, chains', idle', ran, cached, shape⟩ :=
    iget_spec ⟨sDev, read⟩ inv.cached fresh place counters
  rcases shape with ⟨member, same, rfl, content⟩ | ⟨rfl, missing, rfl, content⟩
  · refine ⟨{ s with cache := c, gets := Function.update s.gets p (s.gets p + 1) }, p, chains',
      idle', ?_, ran, ⟨cached, ?_⟩, Or.inl ⟨member, same, rfl, content⟩⟩
    · simp only [take, ran, Option.bind_eq_bind, Option.bind_some, if_pos member, Option.pure_def]
    · intro q mq
      have count := inv.counted q mq
      by_cases here : q = p
      · subst here
        simp only [content, Function.update_self]
        omega
      · simpa [content, here] using count
  · refine ⟨⟨c, p :: s.alive, Function.update s.gets p 1, Function.update s.puts p 0⟩, p, chains',
      idle', ?_, ran, ⟨cached, ?_⟩, Or.inr ⟨rfl, missing, rfl, content⟩⟩
    · simp only [take, ran, Option.bind_eq_bind, Option.bind_some, if_neg fresh, Option.pure_def]
    · intro q mq
      by_cases here : q = p
      · simp [content, here, newNode]
      · have old := (List.mem_cons.mp mq).resolve_left here
        simpa [content, here] using inv.counted q old

theorem drop_spec (inv : Inv sDev s chains idle) {p : Nat} (ok : Legal sDev s (.iput p)) :
    ∃ t chains' idle', drop s p = some t ∧ Inv sDev t chains' idle' ∧ t.alive = s.alive ∧
      t.cache.inode = Function.update s.cache.inode p
        { s.cache.inode p with refs := (s.cache.inode p).refs - 1 } := by
  obtain ⟨member, holds⟩ := ok
  have held : 0 < (s.cache.inode p).refs := by
    have count := inv.counted p member
    omega
  obtain ⟨c, chains', idle', ran, content, cached⟩ := iput_spec inv.cached member held
  refine ⟨{ s with cache := c, puts := Function.update s.puts p (s.puts p + 1) }, chains', idle',
    ?_, ⟨cached, ?_⟩, rfl, content⟩
  · simp only [drop, ran, Option.bind_eq_bind, Option.bind_some, Option.pure_def]
  · intro q mq
    have count := inv.counted q mq
    by_cases here : q = p
    · subst here
      simp only [content, Function.update_self]
      omega
    · simpa [content, here] using count

theorem take_keys (inv : Inv sDev s chains idle) {read : Nat → ReadInode} {sb ino new : Nat}
    (ok : Legal sDev s (.iget read (some sb) ino new)) :
    ∃ t p chains' idle', iget ⟨sDev, read⟩ s.cache (some sb) ino new = some (t.cache, some p) ∧
      step sDev s (.iget read (some sb) ino new) = some t ∧ Inv sDev t chains' idle' ∧
      p ∈ t.alive ∧ key sDev (t.cache.inode p) = (some (sDev sb), ino) ∧
      ∀ q ∈ s.alive, q ∈ t.alive ∧ key sDev (t.cache.inode q) = key sDev (s.cache.inode q) := by
  obtain ⟨t, p, chains', idle', taken, ran, inv', shape⟩ := take_spec inv ok
  refine ⟨t, p, chains', idle', ran, by simp [step, taken], inv', ?_⟩
  rcases shape with ⟨member, same, alive, content⟩ | ⟨rfl, _, alive, content⟩
  · have keys : ∀ q, key sDev (t.cache.inode q) = key sDev (s.cache.inode q) := by
      intro q
      by_cases here : q = p
      · simp [content, here, key]
      · simp [content, here]
    exact ⟨alive ▸ member, (keys p).trans same, fun q mq => ⟨alive ▸ mq, keys q⟩⟩
  · refine ⟨alive ▸ List.mem_cons_self, by simp [content, newNode, key], ?_⟩
    intro q mq
    have other : q ≠ p := fun same => ok.1 (same ▸ mq)
    exact ⟨alive ▸ List.mem_cons_of_mem _ mq, by simp [content, other]⟩

/-- Every legal request returns and keeps the invariant, and an inode only goes
    away, or changes its key, when a purge finds it idle. -/
theorem request_step (inv : Inv sDev s chains idle) {r : Request} (ok : Legal sDev s r) :
    ∃ t chains' idle', step sDev s r = some t ∧ Inv sDev t chains' idle' ∧
      ∀ q ∈ s.alive, (r = .purgeLru → (s.cache.inode q).refs ≠ 0) →
        q ∈ t.alive ∧ key sDev (t.cache.inode q) = key sDev (s.cache.inode q) := by
  cases r with
  | iget read sb ino new =>
    cases sb with
    | none => exact ⟨s, chains, idle, rfl, inv, fun q mq _ => ⟨mq, rfl⟩⟩
    | some sb =>
      obtain ⟨t, _, chains', idle', _, stepped, inv', _, _, kept⟩ := take_keys inv ok
      exact ⟨t, chains', idle', stepped, inv', fun q mq _ => kept q mq⟩
  | iput p =>
    obtain ⟨t, chains', idle', dropped, inv', alive, content⟩ := drop_spec inv ok
    refine ⟨t, chains', idle', dropped, inv', ?_⟩
    intro q mq _
    refine ⟨alive ▸ mq, ?_⟩
    by_cases here : q = p
    · simp [content, here, key]
    · simp [content, here]
  | imount p mnt =>
    obtain ⟨member, _⟩ := ok
    refine ⟨_, chains, idle, rfl, ⟨inv.cached.retouch member rfl rfl Iff.rfl
      (inv.cached.counter p member), ?_⟩, ?_⟩
    · intro q mq
      by_cases here : q = p
      · simpa [imount, Cache.setNode, here] using inv.counted p member
      · simpa [imount, Cache.setNode, here] using inv.counted q mq
    · intro q mq _
      refine ⟨mq, ?_⟩
      by_cases here : q = p
      · simp [imount, Cache.setNode, here, key]
      · simp [imount, Cache.setNode, here]
  | purgeLru =>
    obtain ⟨c, ran, content, cached⟩ := purgeLru_spec inv.cached
    refine ⟨{ s with cache := c, alive := s.alive.filter fun p => p ∉ idle }, chains, [], ?_,
      ⟨cached, ?_⟩, ?_⟩
    · simp only [step, ran, Option.bind_eq_bind, Option.bind_some, Option.pure_def]
    · intro q mq
      rw [content]
      exact inv.counted q (List.mem_filter.mp mq).1
    · intro q mq busy
      refine ⟨List.mem_filter.mpr ⟨mq, ?_⟩, by rw [content]⟩
      simp only [decide_eq_true_eq]
      exact fun resting => busy rfl ((inv.cached.resting q).mp resting).2

theorem reach_inv (reach : Reach (machine sDev) start s) :
    ∃ chains idle, Inv sDev s chains idle := by
  refine reach_invariant (fun s => ∃ chains idle, Inv sDev s chains idle) ⟨_, _, start_inv sDev⟩ ?_
    reach
  intro s r t ⟨chains, idle, inv⟩ ok stepped
  obtain ⟨t', chains', idle', ran, inv', _⟩ := request_step inv ok
  have same : t' = t := Option.some.inj (ran.symm.trans stepped)
  exact ⟨chains', idle', same ▸ inv'⟩

/-- No purge of the run finds the inode `p` without references. -/
def NotPurged (sDev : Nat → Nat) (s : State) (rs : List Request) (p : Nat) : Prop :=
  ∀ before after t, rs = before ++ .purgeLru :: after → Run (machine sDev) s before t →
    (t.cache.inode p).refs ≠ 0

theorem run_keeps {t : State} {rs : List Request} {p : Nat} (run : Run (machine sDev) s rs t)
    (inv : Inv sDev s chains idle) (member : p ∈ s.alive) (kept : NotPurged sDev s rs p) :
    p ∈ t.alive ∧ key sDev (t.cache.inode p) = key sDev (s.cache.inode p) := by
  induction run generalizing chains idle with
  | nil s => exact ⟨member, rfl⟩
  | cons ok stepped tail ih =>
    obtain ⟨u, chains', idle', ran, inv', keeps⟩ := request_step inv ok
    obtain rfl := Option.some.inj (ran.symm.trans stepped)
    obtain ⟨member', same⟩ := keeps p member fun purge =>
      kept [] _ _ (by rw [purge]; rfl) (Run.nil _)
    obtain ⟨member'', same'⟩ := ih inv' member' fun before after v split run' =>
      kept (_ :: before) after v (by rw [split]; rfl) (Run.cons ok stepped run')
    exact ⟨member'', same'.trans same⟩

end Steps

/-- In every reachable state each allocated inode is linked where its reference
    count says, keys are not shared, the count is the number of references handed
    out and not returned, and the next call returns; two fetches of one key with no
    purge of the inode in between return the same inode. -/
theorem inode_cache_invariant (sDev : Nat → Nat) (s : State)
    (reach : Reach (machine sDev) start s) :
    (∃ chains idle, Cached sDev s.cache s.alive chains idle ∧
      ∀ p ∈ s.alive, (s.cache.inode p).refs + s.puts p = s.gets p) ∧
    (∀ r, Legal sDev s r → ∃ t, step sDev s r = some t) ∧
    (∀ read sb ino new, Legal sDev s (.iget read (some sb) ino new) →
      ∃ c p t, iget ⟨sDev, read⟩ s.cache (some sb) ino new = some (c, some p) ∧
        step sDev s (.iget read (some sb) ino new) = some t ∧
        ∀ rs u read' sb' new', Run (machine sDev) t rs u → NotPurged sDev t rs p →
          sDev sb' = sDev sb → Legal sDev u (.iget read' (some sb') ino new') →
          ∃ c', iget ⟨sDev, read'⟩ u.cache (some sb') ino new' = some (c', some p)) := by
  obtain ⟨chains, idle, inv⟩ := reach_inv reach
  refine ⟨⟨chains, idle, inv.cached, inv.counted⟩, ?_, ?_⟩
  · intro r ok
    obtain ⟨t, _, _, stepped, _⟩ := request_step inv ok
    exact ⟨t, stepped⟩
  · intro read sb ino new ok
    obtain ⟨t, p, chains', idle', ran, stepped, inv', member, same, _⟩ := take_keys inv ok
    refine ⟨t.cache, p, t, ran, stepped, ?_⟩
    intro rs u read' sb' new' run kept dev ok'
    obtain ⟨member', same'⟩ := run_keeps run inv' member kept
    obtain ⟨chains'', idle'', inv''⟩ := reach_inv
      (reach_run (reach_step (r := .iget read (some sb) ino new) reach ok stepped) run)
    obtain ⟨v, q, _, _, ran', _, inv3, member3, same3, kept3⟩ := take_keys inv'' ok'
    refine ⟨v.cache, ?_⟩
    rw [ran']
    -- both carry the key in the last state, where keys are unique
    obtain ⟨here, keyed⟩ := kept3 p member'
    have one : q = p := by
      apply inv3.cached.unique q member3 p here
      rw [same3, keyed, same', same, dev]
    rw [one]

theorem inode_cache_revives_idle : ∃ (s : State) (c : Cache), s.alive = [16] ∧
    (s.cache.inode 16).refs = 0 ∧
    iget ⟨fun _ => 5, fun _ => .dev ⟨Inode.zero, none, none, none, none⟩ []⟩ s.cache (some 7) 3 32 =
      some (c, some 16) := by
  let read : Nat → ReadInode := fun _ => .dev ⟨Inode.zero, none, none, none, none⟩ []
  let first : Request := .iget read (some 7) 3 16
  have ok : Legal (fun _ => 5) start first := by
    refine ⟨by simp [start], by decide, ?_⟩
    simp [start]
  obtain ⟨_, _, fetch⟩ :=
    inode_cache_invariant (fun _ => 5) start ⟨[], Run.nil start⟩
  obtain ⟨c, p, t, ran, stepped, again⟩ := fetch read 7 3 16 ok
  have found : (iget ⟨fun _ => 5, read⟩ start.cache (some 7) 3 16).map Prod.snd =
      some (some 16) := by
    decide +kernel
  obtain rfl : p = 16 := by simpa [ran] using found
  have fetched : (step (fun _ => 5) start first).map
      (fun t => (t.alive, t.gets 16, t.puts 16)) = some ([16], 1, 0) := by
    decide +kernel
  have dropped : ((step (fun _ => 5) start first).bind fun t => step (fun _ => 5) t (.iput 16)).map
      (fun u => (u.alive, (u.cache.inode 16).refs, u.gets 16, u.puts 16)) =
        some ([16], 0, 1, 1) := by
    decide +kernel
  rw [stepped] at fetched dropped
  simp only [Option.map_some, Option.some.injEq, Prod.mk.injEq] at fetched
  obtain ⟨alive, gets, puts⟩ := fetched
  have holds : (machine fun _ => 5).legal t (.iput 16) := ⟨by simp [alive], by omega⟩
  obtain ⟨u, put, shape⟩ := Option.map_eq_some_iff.mp dropped
  simp only [Prod.mk.injEq] at shape
  obtain ⟨alive', refs', gets', puts'⟩ := shape
  obtain ⟨c', ran'⟩ := again [.iput 16] u read 7 32 (Run.cons holds put (Run.nil u))
    (by
      intro before after v split
      cases before with
      | nil => simp at split
      | cons r rest => simp at split)
    rfl
    (by
      refine ⟨by simp [alive'], by decide, ?_⟩
      intro b _ q mq _
      rw [alive', List.mem_singleton] at mq
      subst mq
      omega)
  exact ⟨u, c', alive', refs', ran'⟩

end InodeCache
