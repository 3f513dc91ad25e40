import Mathlib.Data.List.Find
import NoobOs.Fs.Path

/-!
What path resolution does to reference counts. References are counted per key: an
inode that is not cached has none, so fetching and dropping it changes nothing.
-/
namespace Vfs
open Strings InodeCache Runs

def find (sDev : Nat → Nat) (s : State) (k : Option Nat × Nat) : Option Nat :=
  s.alive.find? fun p => key sDev (s.cache.inode p) = k

def refsOf (sDev : Nat → Nat) (s : State) (k : Option Nat × Nat) : Nat :=
  match find sDev s k with
  | some p => (s.cache.inode p).refs
  | none => 0

def bare (n : Inode) : Inode := { n with refs := 0 }

/-- What the cache holds for each key. -/
abbrev Known := Option Nat × Nat → Option Inode

def known (sDev : Nat → Nat) (s : State) : Known :=
  fun k => (find sDev s k).map fun p => bare (s.cache.inode p)

/-! ## The walk as a fold over what the cache and the disk hold beforehand -/

/-- The inode `iget` returns, cached or read afresh, and the cache after it. -/
def fetch (v : Files) (m : Known) (sb ino : Nat) : Inode × Known :=
  let n := (m (some (v.sDev sb), ino)).getD (bare (newNode ⟨v.sDev, v.read⟩ sb ino))
  (n, Function.update m (some (v.sDev sb), ino) (some n))

def child (v : Files) (m : Known) (n : Inode) (name : Str) : Option (Inode × Known) :=
  if lookupFs v n name = noIno then none
  else do
    let (next, m) := fetch v m (← n.sb) (lookupFs v n name)
    match mountOn v next with
    | some sb => return fetch v m sb (v.sRoot sb)
    | none => return (next, m)

def resolveFrom (v : Files) : Known → Inode → List Str → Option Inode
  | _, n, [] => some n
  | m, n, tok :: toks => (child v m n tok).bind fun r => resolveFrom v r.2 r.1 toks

/-- The components a walk looks at: it stops at the depth counted beforehand. -/
def limited (mdepth depth : Nat) (toks : List Str) : List Str :=
  if mdepth = 0 then toks else toks.take (mdepth - depth)

def resolve (v : Files) (s : State) (pth : Str) : Option Inode := do
  let sb ← v.rootMnt.bind v.mntSb
  let (root, m) := fetch v (known v.sDev s) sb (v.sRoot sb)
  resolveFrom v m root (limited (pth.count 0x2f) 0 (tokens [0x2f] pth))

def childKeys (v : Files) (m : Known) (n : Inode) (name : Str) : List (Option Nat × Nat) :=
  if lookupFs v n name = noIno then []
  else match n.sb with
    | none => []
    | some sb =>
      (some (v.sDev sb), lookupFs v n name) ::
        match mountOn v (fetch v m sb (lookupFs v n name)).1 with
        | some sb => [(some (v.sDev sb), v.sRoot sb)]
        | none => []

def keysFrom (v : Files) : Known → Inode → List Str → List (Option Nat × Nat)
  | _, _, [] => []
  | m, n, tok :: toks => childKeys v m n tok ++
    match child v m n tok with
    | none => []
    | some r => keysFrom v r.2 r.1 toks

/-- The keys of the inodes that a lookup fetches on its way. -/
def visited (v : Files) (s : State) (pth : Str) : List (Option Nat × Nat) :=
  match v.rootMnt.bind v.mntSb with
  | none => []
  | some sb =>
    let (root, m) := fetch v (known v.sDev s) sb (v.sRoot sb)
    (some (v.sDev sb), v.sRoot sb) ::
      keysFrom v m root (limited (pth.count 0x2f) 0 (tokens [0x2f] pth))

/-- Every count is as before, but for one more on the inode returned. -/
def Balanced (sDev : Nat → Nat) (s : State) : State × Option Nat → Prop
  | (t, none) => ∀ k, refsOf sDev t k = refsOf sDev s k
  | (t, some p) => ∀ k, refsOf sDev t k =
      refsOf sDev s k + if k = key sDev (t.cache.inode p) then 1 else 0

def OneEach (sDev : Nat → Nat) (s : State) : Prop :=
  ∀ p ∈ s.alive, ∀ q ∈ s.alive, key sDev (s.cache.inode p) = key sDev (s.cache.inode q) → p = q

section Counts
variable {sDev : Nat → Nat} {v : Files} {s t : State} {chains : Nat → List Nat} {idle : List Nat}
  {p : Nat}

theorem find_eq_some (unique : OneEach sDev s) {k : Option Nat × Nat} :
    find sDev s k = some p ↔ p ∈ s.alive ∧ key sDev (s.cache.inode p) = k := by
  constructor
  · intro found
    exact ⟨List.mem_of_find?_eq_some found, by simpa using List.find?_some found⟩
  · rintro ⟨member, same⟩
    apply find_unique member (by simpa using same)
    intro q mq tested
    exact unique q mq p member ((of_decide_eq_true tested).trans same.symm)

theorem find_eq_none {k : Option Nat × Nat} :
    find sDev s k = none ↔ ∀ q ∈ s.alive, key sDev (s.cache.inode q) ≠ k := by
  simp [find, List.find?_eq_none]

theorem refsOf_member (inv : Inv sDev s chains idle) (member : p ∈ s.alive) :
    refsOf sDev s (key sDev (s.cache.inode p)) = (s.cache.inode p).refs := by
  simp only [refsOf, (find_eq_some inv.cached.unique).mpr ⟨member, rfl⟩]

theorem refsOf_missing {k : Option Nat × Nat}
    (missing : ∀ q ∈ s.alive, key sDev (s.cache.inode q) ≠ k) : refsOf sDev s k = 0 := by
  simp only [refsOf, find_eq_none.mpr missing]

theorem refsOf_room (inv : Inv sDev s chains idle)
    (room : ∀ p ∈ s.alive, (s.cache.inode p).refs ≤ 65533)
    (k : Option Nat × Nat) : refsOf sDev s k ≤ 65533 := by
  by_cases cached : ∃ q ∈ s.alive, key sDev (s.cache.inode q) = k
  · obtain ⟨q, mq, rfl⟩ := cached
    rw [refsOf_member inv mq]
    exact room q mq
  · rw [refsOf_missing fun q mq here => cached ⟨q, mq, here⟩]
    omega

theorem eq_of_bare {α : Type} (field : Inode → α)
    (blind : ∀ n, field (bare n) = field n) {m n : Inode}
    (same : bare m = bare n) : field m = field n := by
  rw [← blind m, same, blind]

theorem key_bare (sDev : Nat → Nat) {m n : Inode} (same : bare m = bare n) :
    key sDev m = key sDev n :=
  eq_of_bare (key sDev) (fun _ => rfl) same

theorem known_member (unique : OneEach sDev s) (member : p ∈ s.alive) :
    known sDev s (key sDev (s.cache.inode p)) = some (bare (s.cache.inode p)) := by
  simp only [known, (find_eq_some unique).mpr ⟨member, rfl⟩, Option.map_some]

theorem known_missing {k : Option Nat × Nat}
    (missing : ∀ q ∈ s.alive, key sDev (s.cache.inode q) ≠ k) : known sDev s k = none := by
  simp only [known, find_eq_none.mpr missing, Option.map_none]

theorem recount (inv : Inv sDev s chains idle) {chains' : Nat → List Nat} {idle' : List Nat}
    (inv' : Inv sDev t chains' idle') (member : p ∈ s.alive) (alive : t.alive = s.alive) {r : Nat}
    (content : t.cache.inode = Function.update s.cache.inode p { s.cache.inode p with refs := r }) :
    (∀ k, refsOf sDev t k =
      if k = key sDev (s.cache.inode p) then r else refsOf sDev s k) ∧
    ∀ q, bare (t.cache.inode q) = bare (s.cache.inode q) := by
  have bares : ∀ q, bare (t.cache.inode q) = bare (s.cache.inode q) := by
    intro q
    by_cases here : q = p
    · simp [content, here, bare]
    · simp [content, here]
  have keys : ∀ q, key sDev (t.cache.inode q) = key sDev (s.cache.inode q) :=
    fun q => key_bare _ (bares q)
  refine ⟨?_, bares⟩
  intro k
  by_cases same : k = key sDev (s.cache.inode p)
  · subst same
    rw [if_pos rfl, ← keys p, refsOf_member inv' (alive ▸ member), content, Function.update_self]
  · rw [if_neg same]
    by_cases cached : ∃ q ∈ s.alive, key sDev (s.cache.inode q) = k
    · obtain ⟨q, mq, rfl⟩ := cached
      have other : q ≠ p := fun here => same (by rw [here])
      rw [refsOf_member inv mq, ← keys q, refsOf_member inv' (alive ▸ mq)]
      simp [content, other]
    · have missing : ∀ q ∈ s.alive, key sDev (s.cache.inode q) ≠ k :=
        fun q mq here => cached ⟨q, mq, here⟩
      rw [refsOf_missing missing, refsOf_missing]
      rw [alive]
      exact fun q mq => keys q ▸ missing q mq

theorem known_congr (alive : t.alive = s.alive)
    (bares : ∀ q, bare (t.cache.inode q) = bare (s.cache.inode q)) :
    known sDev t = known sDev s := by
  funext k
  have keys : ∀ q, key sDev (t.cache.inode q) = key sDev (s.cache.inode q) :=
    fun q => key_bare _ (bares q)
  simp only [known, find, alive, keys, bares]

theorem fetch_cached (unique : OneEach v.sDev s) {sb ino : Nat} (member : p ∈ s.alive)
    (same : key v.sDev (s.cache.inode p) = (some (v.sDev sb), ino)) (alive : t.alive = s.alive)
    (bares : ∀ q, bare (t.cache.inode q) = bare (s.cache.inode q)) :
    fetch v (known v.sDev s) sb ino = (bare (t.cache.inode p), known v.sDev t) := by
  have held := known_member unique member
  rw [same] at held
  simp only [fetch, held, Option.getD_some, bares p, known_congr alive bares, Prod.mk.injEq,
    true_and]
  rw [← held, Function.update_eq_self]

theorem find_elsewhere (unique : OneEach v.sDev s) (alive : t.alive = p :: s.alive)
    (others : ∀ q ∈ s.alive, t.cache.inode q = s.cache.inode q) {k : Option Nat × Nat}
    (other : k ≠ key v.sDev (t.cache.inode p)) :
    find v.sDev t k = find v.sDev s k ∧
      ∀ q, find v.sDev s k = some q → t.cache.inode q = s.cache.inode q := by
  constructor
  · simp only [find, alive]
    rw [List.find?_cons_of_neg (by simpa using other.symm)]
    exact List.find?_congr fun q mq => by rw [others q mq]
  · intro q found
    exact others q ((find_eq_some unique).mp found).1

theorem fetch_fresh (unique : OneEach v.sDev s) (unique' : OneEach v.sDev t) {sb ino : Nat}
    (missing : ∀ q ∈ s.alive, key v.sDev (s.cache.inode q) ≠ (some (v.sDev sb), ino))
    (alive : t.alive = p :: s.alive) (others : ∀ q ∈ s.alive, t.cache.inode q = s.cache.inode q)
    (mine : bare (t.cache.inode p) = bare (newNode ⟨v.sDev, v.read⟩ sb ino)) :
    fetch v (known v.sDev s) sb ino = (bare (t.cache.inode p), known v.sDev t) := by
  have keyed : key v.sDev (t.cache.inode p) = (some (v.sDev sb), ino) := key_bare v.sDev mine
  have member : p ∈ t.alive := alive ▸ List.mem_cons_self
  simp only [fetch, known_missing missing, Option.getD_none, mine, Prod.mk.injEq, true_and]
  funext k
  by_cases here : k = (some (v.sDev sb), ino)
  · rw [here, Function.update_self, ← keyed, known_member unique' member, mine]
  · obtain ⟨same, nodes⟩ := find_elsewhere unique alive others (keyed ▸ here)
    rw [Function.update_of_ne here]
    simp only [known, same]
    cases found : find v.sDev s k with
    | none => rfl
    | some q => simp only [Option.map_some, nodes q found]

theorem take_balance (inv : Inv v.sDev s chains idle) {sb ino new : Nat}
    (ok : Legal v.sDev s (.iget v.read (some sb) ino new)) :
    ∃ t p chains' idle', take v.sDev s v.read (some sb) ino new = some (t, some p) ∧
      Inv v.sDev t chains' idle' ∧ p ∈ t.alive ∧
      key v.sDev (t.cache.inode p) = (some (v.sDev sb), ino) ∧
      fetch v (known v.sDev s) sb ino = (bare (t.cache.inode p), known v.sDev t) ∧
      (∀ k, refsOf v.sDev t k =
        refsOf v.sDev s k + if k = (some (v.sDev sb), ino) then 1 else 0) ∧
      (∀ q ∈ s.alive, q ∈ t.alive ∧ bare (t.cache.inode q) = bare (s.cache.inode q)) ∧
      ∀ q ∈ t.alive, q ∈ s.alive ∨ q = new := by
  obtain ⟨t, p, chains', idle', ran, _, inv', shape⟩ := take_spec inv ok
  refine ⟨t, p, chains', idle', ran, inv', ?_⟩
  rcases shape with ⟨member, same, alive, content⟩ | ⟨rfl, missing, alive, content⟩
  · obtain ⟨counts, bares⟩ := recount inv inv' member alive content
    refine ⟨alive ▸ member, (key_bare _ (bares p)).trans same,
      fetch_cached inv.cached.unique member same alive bares, ?_,
      fun q mq => ⟨alive ▸ mq, bares q⟩, fun q mq => Or.inl (alive ▸ mq)⟩
    intro k
    rw [counts, same]
    by_cases here : k = (some (v.sDev sb), ino)
    · rw [if_pos here, if_pos here, here, ← same, refsOf_member inv member]
    · rw [if_neg here, if_neg here, Nat.add_zero]
  · have others : ∀ q ∈ s.alive, t.cache.inode q = s.cache.inode q := by
      intro q mq
      have other : q ≠ p := fun here => ok.1 (here ▸ mq)
      simp [content, other]
    have mine : t.cache.inode p = newNode ⟨v.sDev, v.read⟩ sb ino := by simp [content]
    have keyed : key v.sDev (t.cache.inode p) = (some (v.sDev sb), ino) := by
      simp [mine, newNode, key]
    have member : p ∈ t.alive := alive ▸ List.mem_cons_self
    refine ⟨member, keyed, ?_, ?_, ?_, ?_⟩
    · exact fetch_fresh inv.cached.unique inv'.cached.unique missing alive others
        (congrArg bare mine)
    · intro k
      by_cases here : k = (some (v.sDev sb), ino)
      · rw [if_pos here, here, refsOf_missing missing, ← keyed, refsOf_member inv' member, mine]
        rfl
      · obtain ⟨same, nodes⟩ := find_elsewhere inv.cached.unique alive others (keyed ▸ here)
        rw [if_neg here, Nat.add_zero]
        simp only [refsOf, same]
        cases found : find v.sDev s k with
        | none => rfl
        | some q => simp only [nodes q found]
    · intro q mq
      exact ⟨alive ▸ List.mem_cons_of_mem _ mq, by rw [others q mq]⟩
    · intro q mq
      rw [alive, List.mem_cons] at mq
      exact mq.symm

theorem drop_balance (inv : Inv v.sDev s chains idle) (member : p ∈ s.alive)
    (held : 0 < refsOf v.sDev s (key v.sDev (s.cache.inode p))) :
    ∃ t chains' idle', drop s p = some t ∧ Inv v.sDev t chains' idle' ∧
      known v.sDev t = known v.sDev s ∧ t.alive = s.alive ∧
      (∀ q, bare (t.cache.inode q) = bare (s.cache.inode q)) ∧
      ∀ k, refsOf v.sDev t k +
        (if k = key v.sDev (s.cache.inode p) then 1 else 0) = refsOf v.sDev s k := by
  have count := inv.counted p member
  rw [refsOf_member inv member] at held
  obtain ⟨t, chains', idle', ran, inv', alive, content⟩ := drop_spec inv ⟨member, by omega⟩
  obtain ⟨counts, bares⟩ := recount inv inv' member alive content
  refine ⟨t, chains', idle', ran, inv', known_congr alive bares, alive, bares, ?_⟩
  intro k
  rw [counts]
  by_cases here : k = key v.sDev (s.cache.inode p)
  · rw [if_pos here, if_pos here, here, refsOf_member inv member]
    omega
  · rw [if_neg here, if_neg here, Nat.add_zero]

end Counts

/-- The first `n` addresses are distinct, unused and real. -/
def Supply (news : Nat → Nat) (s : State) (n : Nat) : Prop :=
  ∀ i, i < n → news i ∉ s.alive ∧ (news i ≠ ilru ∧ news i < 2 ^ 32) ∧ ∀ j, j < i → news j ≠ news i

/-- The walk is at inode `p`: it holds one reference there and nowhere else. -/
structure Holding (v : Files) (start s : State) (news : Nat → Nat) (k p : Nat) : Prop where
  inv : ∃ chains idle, Inv v.sDev s chains idle
  member : p ∈ s.alive
  counts : ∀ x, refsOf v.sDev s x =
    refsOf v.sDev start x + if x = key v.sDev (s.cache.inode p) then 1 else 0
  fresh : ∀ q ∈ s.alive, q ∈ start.alive ∨ ∃ i, i < k ∧ q = news i

section Walk
variable {v : Files} {start s : State} {news : Nat → Nat} {k p n : Nat}

theorem legal_take {chains : Nat → List Nat} {idle : List Nat} (inv : Inv v.sDev s chains idle)
    (fresh : ∀ q ∈ s.alive, q ∈ start.alive ∨ ∃ i, i < k ∧ q = news i)
    (supply : Supply news start n) (left : k < n) {sb ino : Nat}
    (bound : refsOf v.sDev s (some (v.sDev sb), ino) ≤ 65534) :
    Legal v.sDev s (.iget v.read (some sb) ino (news k)) := by
  obtain ⟨unused, place, distinct⟩ := supply k left
  refine ⟨?_, place, ?_⟩
  · intro member
    rcases fresh _ member with old | ⟨i, less, same⟩
    · exact unused old
    · exact distinct i less same.symm
  · intro b same q mq here
    have count := inv.counted q mq
    rw [Option.some.inj same, ← here, refsOf_member inv mq] at bound
    omega

theorem Holding.move (hold : Holding v start s news k p) (supply : Supply news start n)
    (left : k < n) {sb ino : Nat} (room : refsOf v.sDev start (some (v.sDev sb), ino) ≤ 65533) :
    ∃ t u q, take v.sDev s v.read (some sb) ino (news k) = some (t, some q) ∧
      drop t p = some u ∧ Holding v start u news (k + 1) q ∧
      fetch v (known v.sDev s) sb ino = (bare (u.cache.inode q), known v.sDev u) := by
  obtain ⟨chains, idle, inv⟩ := hold.inv
  have bound : refsOf v.sDev s (some (v.sDev sb), ino) ≤ 65534 := by
    rw [hold.counts]
    split <;> omega
  obtain ⟨t, q, _, _, taken, inv', member, keyed, fetched, counts, kept, fresh⟩ :=
    take_balance inv (legal_take inv hold.fresh supply left bound)
  obtain ⟨member', same⟩ := kept p hold.member
  have keys := key_bare v.sDev same
  obtain ⟨u, chains', idle', dropped, inv'', remembered, alive, bares, counts'⟩ :=
    drop_balance inv' member' (by
      rw [keys, counts, hold.counts, if_pos rfl]
      omega)
  refine ⟨t, u, q, taken, dropped, ⟨⟨chains', idle', inv''⟩, alive ▸ member, ?_, ?_⟩, ?_⟩
  · intro x
    have one := counts' x
    rw [keys, counts x, hold.counts x] at one
    rw [key_bare _ (bares q), keyed]
    omega
  · intro y my
    rcases fresh y (alive ▸ my) with old | rfl
    · rcases hold.fresh y old with older | ⟨i, less, here⟩
      · exact Or.inl older
      · exact Or.inr ⟨i, by omega, here⟩
    · exact Or.inr ⟨k, by omega, rfl⟩
  · rw [fetched, bares q, remembered]

theorem walkStep_spec (hold : Holding v start s news k p) (supply : Supply news start n)
    (left : k + 1 < n) (tok : Str)
    (room : ∀ x ∈ childKeys v (known v.sDev s) (bare (s.cache.inode p)) tok,
      refsOf v.sDev start x ≤ 65533) :
    (child v (known v.sDev s) (bare (s.cache.inode p)) tok = none ∧
      walkStep v s news k p tok = some (s, none)) ∨
    ∃ t q, child v (known v.sDev s) (bare (s.cache.inode p)) tok =
        some (bare (t.cache.inode q), known v.sDev t) ∧
      walkStep v s news k p tok = some (t, some q) ∧ Holding v start t news (k + 2) q := by
  obtain ⟨chains, idle, inv⟩ := hold.inv
  obtain ⟨sb, owner⟩ := Option.ne_none_iff_exists'.mp (inv.cached.known p hold.member)
  have owner' : (bare (s.cache.inode p)).sb = some sb := owner
  have looked : lookupFs v (bare (s.cache.inode p)) tok = lookupFs v (s.cache.inode p) tok := rfl
  by_cases absent : lookupFs v (s.cache.inode p) tok = noIno
  · left
    simp [child, walkStep, looked, absent]
  · right
    have first : refsOf v.sDev start
        (some (v.sDev sb), lookupFs v (s.cache.inode p) tok) ≤ 65533 :=
      room _ (by simp [childKeys, looked, absent, owner'])
    obtain ⟨t, u, q, taken, dropped, hold', fetched⟩ := hold.move supply (by omega) first
    have mounted : mountOn v (bare (u.cache.inode q)) = mountOn v (u.cache.inode q) := rfl
    cases crossing : mountOn v (u.cache.inode q) with
    | none =>
      refine ⟨u, q, ?_, ?_, { hold' with fresh := ?_ }⟩
      · simp only [child, looked, if_neg absent, owner', Option.bind_eq_bind, Option.bind_some,
          fetched, mounted, crossing, Option.pure_def]
      · simp only [walkStep, if_neg absent, owner, taken, dropped, Option.bind_eq_bind,
          Option.bind_some, crossing, Option.pure_def]
      · intro y my
        rcases hold'.fresh y my with old | ⟨i, less, here⟩
        · exact Or.inl old
        · exact Or.inr ⟨i, by omega, here⟩
    | some sb' =>
      have second : refsOf v.sDev start (some (v.sDev sb'), v.sRoot sb') ≤ 65533 :=
        room _ (by simp [childKeys, looked, absent, owner', fetched, mounted, crossing])
      obtain ⟨t', u', q', taken', dropped', hold'', fetched'⟩ := hold'.move supply left second
      refine ⟨u', q', ?_, ?_, hold''⟩
      · simp only [child, looked, if_neg absent, owner', Option.bind_eq_bind, Option.bind_some,
          fetched, mounted, crossing, fetched', Option.pure_def]
      · simp only [walkStep, if_neg absent, owner, taken, dropped, Option.bind_eq_bind,
          Option.bind_some, crossing, taken', dropped', Option.pure_def]

/-- The loop resolves the components left, keeping one reference on the inode it
    returns; when a component fails, the directory it failed in keeps its one. -/
theorem walk_spec (supply : Supply news start n) (mdepth : Nat) (toks : List Str) (depth : Nat)
    (left : 2 * (depth + toks.length) + 1 < n) (below : mdepth = 0 ∨ depth < mdepth)
    (hold : Holding v start s news (2 * depth + 1) p)
    (room : ∀ x ∈ keysFrom v (known v.sDev s) (bare (s.cache.inode p)) (limited mdepth depth toks),
      refsOf v.sDev start x ≤ 65533) :
    ∃ t found, walk v news mdepth toks depth s p = some (t, found) ∧
      match resolveFrom v (known v.sDev s) (bare (s.cache.inode p)) (limited mdepth depth toks) with
      | none => found = none ∧ ∃ m q, Holding v start t news m q
      | some node => ∃ m q, found = some q ∧ bare (t.cache.inode q) = node ∧
          Holding v start t news m q := by
  induction toks generalizing depth s p with
  | nil =>
    refine ⟨s, some p, rfl, ?_⟩
    have none' : limited mdepth depth [] = [] := by simp [limited]
    rw [none']
    exact ⟨_, p, rfl, rfl, hold⟩
  | cons tok toks ih =>
    have split : limited mdepth depth (tok :: toks) = tok :: limited mdepth (depth + 1) toks := by
      unfold limited
      rcases below with zero | less
      · simp [zero]
      · have nonzero : mdepth ≠ 0 := by omega
        rw [if_neg nonzero, if_neg nonzero, show mdepth - depth = mdepth - (depth + 1) + 1 by omega,
          List.take_succ_cons]
    rw [split] at room ⊢
    simp only [List.length_cons] at left
    simp only [keysFrom, List.mem_append] at room
    rcases walkStep_spec hold supply (by omega) tok fun x here => room x (Or.inl here) with
      ⟨lost, stepped⟩ | ⟨t, q, found, stepped, hold'⟩
    · refine ⟨s, none, by simp [walk, stepped], ?_⟩
      simp only [resolveFrom, lost, Option.bind_none]
      exact ⟨trivial, _, p, hold⟩
    · simp only [resolveFrom, found, Option.bind_some]
      by_cases last : depth + 1 = mdepth
      · refine ⟨t, some q, by simp [walk, stepped, last], ?_⟩
        have stop : limited mdepth (depth + 1) toks = [] := by
          simp [limited, ← last]
        rw [stop]
        exact ⟨_, q, rfl, rfl, hold'⟩
      · obtain ⟨u, found', walked, outcome⟩ := ih (depth + 1) (by omega) (by omega) hold'
          fun x here => room x (Or.inr (by rwa [found]))
        refine ⟨u, found', ?_, outcome⟩
        simp only [walk, stepped, Option.bind_eq_bind, Option.bind_some, if_neg last, walked]

theorem lookup_spec {chains : Nat → List Nat} {idle : List Nat} (inv : Inv v.sDev s chains idle)
    {root : Nat} (mounted : v.rootMnt.bind v.mntSb = some root) {pth : Str}
    (room : ∀ x ∈ visited v s pth, refsOf v.sDev s x ≤ 65533)
    (supply : Supply news s (2 * pth.length + 4)) :
    ∃ t found, lookupVfsI v s news pth = some (t, found) ∧
      match resolve v s pth with
      | none => found = none ∧ ∃ m q, Holding v s t news m q
      | some node => ∃ m q, found = some q ∧ bare (t.cache.inode q) = node ∧
          Holding v s t news m q := by
  have old : ∀ q ∈ s.alive, q ∈ s.alive ∨ ∃ i, i < 0 ∧ q = news i := fun q mq => Or.inl mq
  simp only [visited, mounted, List.mem_cons] at room
  have bound := Nat.le_succ_of_le (room _ (Or.inl rfl))
  obtain ⟨t, p, chains', idle', taken, inv', member, keyed, fetched, counts, _, fresh⟩ :=
    take_balance inv (legal_take inv old supply (by omega) bound)
  have hold : Holding v s t news (2 * 0 + 1) p := by
    refine ⟨⟨chains', idle', inv'⟩, member, by rw [keyed]; exact counts, ?_⟩
    intro q mq
    rcases fresh q mq with older | here
    · exact Or.inl older
    · exact Or.inr ⟨0, by omega, here⟩
  have few := tokensFrom_length [0x2f] (pth.length + 1) (some pth)
  obtain ⟨u, found, walked, outcome⟩ := walk_spec supply (pth.count 0x2f)
    (tokens [0x2f] pth) 0 (by simp only [tokens]; omega) (Nat.eq_zero_or_pos _) hold
    fun x here => room x (Or.inr (by rwa [fetched]))
  refine ⟨u, found, ?_, ?_⟩
  · simp only [lookupVfsI, mounted, taken, Option.bind_eq_bind, Option.bind_some, walked]
  · simpa only [resolve, mounted, Option.bind_eq_bind, Option.bind_some, fetched] using outcome

theorem Holding.leaks (hold : Holding v start s news k p) :
    ¬ ∀ x, refsOf v.sDev s x = refsOf v.sDev start x := by
  intro unchanged
  have one := hold.counts (key v.sDev (s.cache.inode p))
  rw [unchanged, if_pos rfl] at one
  omega

end Walk

/-- In every reachable cache with room in the counters on the way, resolving a path balances
    its references exactly when every component is found, and changing directory
    exactly when the path leads to a directory. -/
theorem lookup_balanced_iff_resolves (v : Files) (s : State)
    (reach : Reach (machine v.sDev) InodeCache.start s) (root : Nat)
    (mounted : v.rootMnt.bind v.mntSb = some root)
    (news : Nat → Nat) (pth : Str) (room : ∀ k ∈ visited v s pth, refsOf v.sDev s k ≤ 65533)
    (supply : Supply news s (2 * pth.length + 4)) :
    (∃ r, lookupVfsI v s news pth = some r ∧
      (Balanced v.sDev s r ↔ ∃ n, resolve v s pth = some n)) ∧
    ∀ d path, pathCanon d.cdirname path = some (some pth) →
      ∃ t d' code, fsysChdir v s news d (some path) = some (t, d', code) ∧
        ((∀ k, refsOf v.sDev t k = refsOf v.sDev s k) ↔
          ∃ n, resolve v s pth = some n ∧ isDir n.mode) := by
  obtain ⟨chains, idle, inv⟩ := InodeCache.reach_inv reach
  obtain ⟨t, found, ran, outcome⟩ := lookup_spec inv mounted room supply
  revert outcome
  cases resolved : resolve v s pth with
  | none =>
    rintro ⟨rfl, m, q, hold⟩
    constructor
    · refine ⟨_, ran, ?_⟩
      simpa [Balanced] using hold.leaks
    · intro d path canon
      refine ⟨t, d, eNoent, ?_, ?_⟩
      · simp only [fsysChdir, canon, ran, Option.bind_eq_bind, Option.bind_some, Option.pure_def]
      · simpa using hold.leaks
  | some node =>
    rintro ⟨m, q, rfl, same, hold⟩
    have mode : node.mode = (t.cache.inode q).mode := by rw [← same]; rfl
    constructor
    · exact ⟨_, ran, iff_of_true hold.counts ⟨node, rfl⟩⟩
    · intro d path canon
      by_cases directory : isDir node.mode
      · obtain ⟨chains', idle', inv'⟩ := hold.inv
        obtain ⟨u, _, _, dropped, _, _, _, _, counts⟩ := drop_balance inv' hold.member (by
          rw [hold.counts, if_pos rfl]
          omega)
        refine ⟨u, ⟨t.cache.inode q, pth⟩, 0, ?_, iff_of_true ?_ ⟨node, rfl, directory⟩⟩
        · simp only [fsysChdir, canon, ran, Option.bind_eq_bind, Option.bind_some,
            ← mode, directory,
            if_true, dropped, Option.pure_def]
        · intro x
          have one := counts x
          rw [hold.counts x] at one
          omega
      · refine ⟨t, d, eNotdir, ?_, ?_⟩
        · simp only [fsysChdir, canon, ran, Option.bind_eq_bind, Option.bind_some,
            ← mode, directory,
            Option.pure_def]
          rfl
        · refine iff_of_false hold.leaks ?_
          rintro ⟨n, here, also⟩
          cases here
          exact directory also

def smallRoot : Files where
  sDev := fun _ => 5
  read := fun _ => .ext2 fun ino =>
    ⟨if ino = 2 then sIfdir else 0o100644, 0, 0, 0, some 0, none⟩
  sRoot := fun _ => 2
  mntSb := fun _ => some 1
  lookup := fun _ => some fun _ _ name => if name = [0x66] then 12 else noIno
  rootMnt := some 0

theorem lookup_of_file_balanced : ∃ r, lookupVfsI smallRoot InodeCache.start (fun i => 32 + i)
    [0x2f, 0x66] = some r ∧ Balanced smallRoot.sDev InodeCache.start r := by
  obtain ⟨⟨r, ran, balanced⟩, _⟩ := lookup_balanced_iff_resolves smallRoot InodeCache.start
    ⟨[], Run.nil _⟩ 1 rfl (fun i => 32 + i) [0x2f, 0x66]
    (fun k _ => by simp [refsOf, find, InodeCache.start]) (by
      intro i less
      simp only [List.length_cons, List.length_nil] at less
      simp only [ilru]
      refine ⟨by simp [InodeCache.start], ⟨by omega, by omega⟩, by omega⟩)
  refine ⟨r, ran, balanced.mpr (Option.isSome_iff_exists.mp ?_)⟩
  decide +kernel

/-- With the root held by its mount, looking up `/x` keeps a second reference on it,
    and `chdir` to the file `/f` keeps one on the file. -/
theorem failed_lookup_leaks : ∃ s, Reach (machine smallRoot.sDev) InodeCache.start s ∧
    (∃ t, lookupVfsI smallRoot s (fun i => 32 + i) [0x2f, 0x78] = some (t, none) ∧
      ¬ Balanced smallRoot.sDev s (t, none)) ∧
    ∃ t d, fsysChdir smallRoot s (fun i => 32 + i) ⟨Inode.zero, [0x2f]⟩ (some [0x66]) =
        some (t, d, eNotdir) ∧
      ¬ ∀ k, refsOf smallRoot.sDev t k = refsOf smallRoot.sDev s k := by
  let mount : Request := .iget smallRoot.read (some 1) 2 16
  have ok : Legal smallRoot.sDev InodeCache.start mount := by
    refine ⟨by simp [InodeCache.start], by decide, ?_⟩
    simp [InodeCache.start]
  have first : ((step smallRoot.sDev InodeCache.start mount).bind fun s =>
      (lookupVfsI smallRoot s (fun i => 32 + i) [0x2f, 0x78]).map fun r =>
        (r.2, refsOf smallRoot.sDev s (some 5, 2), refsOf smallRoot.sDev r.1 (some 5, 2))) =
      some (none, 1, 2) := by
    decide +kernel
  have second : ((step smallRoot.sDev InodeCache.start mount).bind fun s =>
      (fsysChdir smallRoot s (fun i => 32 + i) ⟨Inode.zero, [0x2f]⟩ (some [0x66])).map fun r =>
        (r.2.2, refsOf smallRoot.sDev s (some 5, 12), refsOf smallRoot.sDev r.1 (some 5, 12))) =
      some (eNotdir, 0, 1) := by
    decide +kernel
  obtain ⟨s, mounted, looked⟩ := Option.bind_eq_some_iff.mp first
  rw [mounted] at second
  obtain ⟨⟨t, found⟩, ran, shape⟩ := Option.map_eq_some_iff.mp looked
  obtain ⟨⟨u, d, code⟩, ran', shape'⟩ := Option.map_eq_some_iff.mp second
  simp only [Prod.mk.injEq] at shape shape'
  obtain ⟨rfl, before, after⟩ := shape
  obtain ⟨rfl, before', after'⟩ := shape'
  refine ⟨s, ⟨[mount], Runs.Run.cons (m := machine smallRoot.sDev) ok mounted (Runs.Run.nil s)⟩,
    ⟨t, ran, ?_⟩, u, d, ran', ?_⟩
  · intro balanced
    have same := balanced (some 5, 2)
    omega
  · intro unchanged
    have same := unchanged (some 5, 12)
    omega

end Vfs
