import Mathlib.Logic.Function.Basic
import NoobOs.Fs.CounterWrap
import NoobOs.Fs.Canonical

/-!
Path resolution against the plain walk over the components: no cache, no string and no
depth, only directory contents and a table of mount points.
-/
namespace Vfs
open InodeCache Runs Strings

/-- The inode of a number on a superblock, cached or as `read_inode` fills it in. -/
def content (v : Files) (s : State) (sb ino : Nat) : Inode := (fetch v (known v.sDev s) sb ino).1

def dirEntry (v : Files) (n : Inode) (name : Str) : Option Nat :=
  if isDir n.mode then
    (n.ops.bind v.lookup).bind fun lookup =>
      if lookup n.sb n.ino name = noIno then none else some (lookup n.sb n.ino name)
  else none

def cross (v : Files) (mounts : Nat → Nat → Option Nat) (sb ino : Nat) : Nat × Nat :=
  match mounts sb ino with
  | some m => (m, v.sRoot m)
  | none => (sb, ino)

def refStep (v : Files) (inode : Nat → Nat → Inode) (mounts : Nat → Nat → Option Nat)
    (cur : Nat × Nat)
    (name : Str) : Option (Nat × Nat) :=
  (dirEntry v (inode cur.1 cur.2) name).map (cross v mounts cur.1)

def refWalk (v : Files) (inode : Nat → Nat → Inode) (mounts : Nat → Nat → Option Nat) (root : Nat)
    (names : List Str) : Option (Nat × Nat) :=
  names.foldlM (refStep v inode mounts) (root, v.sRoot root)

/-- Each mount point is cached with a reference and marked, nothing else is marked, and
    what `read_inode` fills in is not. -/
structure Pinned (v : Files) (s : State) (mounts : Nat → Nat → Option Nat) : Prop where
  held : ∀ sb ino m, mounts sb ino = some m → ∃ p ∈ s.alive, (s.cache.inode p).sb = some sb ∧
    (s.cache.inode p).ino = ino ∧ 0 < (s.cache.inode p).refs ∧ mountOn v (s.cache.inode p) = some m
  marked : ∀ p ∈ s.alive, ∀ sb, (s.cache.inode p).sb = some sb →
    mountOn v (s.cache.inode p) = mounts sb (s.cache.inode p).ino
  fresh : ∀ sb ino, mountOn v (newNode ⟨v.sDev, v.read⟩ sb ino) = none

theorem refWalk_snoc (v : Files) (inode : Nat → Nat → Inode)
    (mounts : Nat → Nat → Option Nat) (root : Nat)
    (names : List Str) (name : Str) : refWalk v inode mounts root (names ++ [name]) =
      (refWalk v inode mounts root names).bind fun cur => refStep v inode mounts cur name := by
  simp [refWalk, List.foldlM_append]

section Contents
variable {v : Files} {s t : State} {p sb ino : Nat}

theorem key_eq (owner : (s.cache.inode p).sb = some sb) (number : (s.cache.inode p).ino = ino) :
    key v.sDev (s.cache.inode p) = (some (v.sDev sb), ino) := by
  simp [key, owner, number]

theorem content_cached (order : InOrder v.sDev s) (member : p ∈ s.alive)
    (owner : (s.cache.inode p).sb = some sb)
    (number : (s.cache.inode p).ino = ino) : content v s sb ino = bare (s.cache.inode p) := by
  have known' := known_member order.unique member
  rw [key_eq owner number] at known'
  simp [content, fetch, known']

theorem Pinned.content_mount {mounts : Nat → Nat → Option Nat} (pinned : Pinned v s mounts)
    (order : InOrder v.sDev s)
    (distinct : Function.Injective v.sDev) (sb ino : Nat) :
    mountOn v (content v s sb ino) = mounts sb ino := by
  cases found : find v.sDev s (some (v.sDev sb), ino) with
  | some p =>
    obtain ⟨member, keyed⟩ := (find_eq_some order.unique).mp found
    obtain ⟨sb', owner⟩ := order.owner member
    have spelled := keyed
    simp only [key, owner, Option.map_some, Prod.mk.injEq, Option.some.injEq] at spelled
    obtain rfl := distinct spelled.1
    obtain rfl := spelled.2
    rw [content_cached order member owner rfl]
    exact pinned.marked p member sb' owner
  | none =>
    have fresh : content v s sb ino = bare (newNode ⟨v.sDev, v.read⟩ sb ino) := by
      simp [content, fetch, known, found]
    rw [fresh]
    cases point : mounts sb ino with
    | none => exact pinned.fresh sb ino
    | some m =>
      obtain ⟨p, member, owner, number, -, -⟩ := pinned.held sb ino m point
      exact absurd (key_eq owner number) (find_eq_none.mp found p member)

theorem take_contents (distinct : Function.Injective v.sDev) (order : InOrder v.sDev s)
    (sb ino : Nat) {new : Nat}
    (fresh : new ∉ s.alive) (place : new ≠ ilru ∧ new < 2 ^ 32) :
    ∃ t p, take v.sDev s v.read (some sb) ino new = some (t, some p) ∧
    InOrder v.sDev t ∧ p ∈ t.alive ∧
      (t.cache.inode p).sb = some sb ∧ (t.cache.inode p).ino = ino ∧
      (∀ sb ino, content v t sb ino = content v s sb ino) ∧
      (∀ q ∈ s.alive, q ∈ t.alive ∧ bare (t.cache.inode q) = bare (s.cache.inode q)) ∧
      ∀ q ∈ t.alive, q ∈ s.alive ∨ q = new := by
  obtain ⟨t, p, taken, order', shape⟩ := take_order order v.read sb ino fresh place
  refine ⟨t, p, taken, order', ?_⟩
  have contents : fetch v (known v.sDev s) sb ino = (bare (t.cache.inode p), known v.sDev t) →
      ∀ sb' ino', content v t sb' ino' = content v s sb' ino' := by
    intro fetched sb' ino'
    have after : known v.sDev t = (fetch v (known v.sDev s) sb ino).2 := by rw [fetched]
    unfold content
    rw [after]
    simp only [fetch]
    by_cases same : ((some (v.sDev sb'), ino') : Option Nat × Nat) = (some (v.sDev sb), ino)
    · simp only [Prod.mk.injEq, Option.some.injEq] at same
      obtain rfl := distinct same.1
      obtain rfl := same.2
      simp
    · simp [same]
  rcases shape with ⟨member, same, alive, bares⟩ | ⟨rfl, missing, alive, mine, others⟩
  · obtain ⟨sb', owner⟩ := order.owner member
    have spelled := same
    simp only [key, owner, Option.map_some, Prod.mk.injEq, Option.some.injEq] at spelled
    obtain rfl := distinct spelled.1
    have owner' := eq_of_bare Inode.sb (fun _ => rfl) (bares p)
    have number := eq_of_bare Inode.ino (fun _ => rfl) (bares p)
    refine ⟨alive ▸ member, owner'.trans owner, number.trans spelled.2,
      contents (fetch_cached order.unique member same alive bares), fun q mq =>
        ⟨alive ▸ mq, bares q⟩,
      fun q mq => Or.inl (alive ▸ mq)⟩
  · have kept : ∀ q ∈ s.alive, t.cache.inode q = s.cache.inode q :=
      fun q mq => others q fun here => fresh (here ▸ mq)
    have owner := eq_of_bare Inode.sb (fun _ => rfl) mine
    have number := eq_of_bare Inode.ino (fun _ => rfl) mine
    refine ⟨alive ▸ List.mem_cons_self, owner, number,
      contents (fetch_fresh order.unique order'.unique missing alive kept mine), ?_, ?_⟩
    · intro q mq
      exact ⟨alive ▸ List.mem_cons_of_mem _ mq, by rw [kept q mq]⟩
    · intro q mq
      rw [alive, List.mem_cons] at mq
      exact mq.symm

theorem drop_contents (order : InOrder v.sDev s) (member : p ∈ s.alive) :
    ∃ t, drop s p = some t ∧ InOrder v.sDev t ∧ t.alive = s.alive ∧
      (∀ q, bare (t.cache.inode q) = bare (s.cache.inode q)) ∧
      ∀ sb ino, content v t sb ino = content v s sb ino := by
  obtain ⟨t, dropped, order', alive, bares⟩ := drop_order order member
  refine ⟨t, dropped, order', alive, bares, ?_⟩
  intro sb ino
  unfold content
  rw [known_congr alive bares]

end Contents

/-! ## The walk -/

structure At (v : Files) (start s : State) (news : Nat → Nat) (k : Nat) (cur : Nat × Nat)
    (p : Nat) : Prop where
  order : InOrder v.sDev s
  member : p ∈ s.alive
  owner : (s.cache.inode p).sb = some cur.1
  number : (s.cache.inode p).ino = cur.2
  contents : ∀ sb ino, content v s sb ino = content v start sb ino
  kept : ∀ q ∈ start.alive, q ∈ s.alive ∧ bare (s.cache.inode q) = bare (start.cache.inode q)
  fresh : ∀ q ∈ s.alive, q ∈ start.alive ∨ ∃ i, i < k ∧ q = news i

section Walk
variable {v : Files} {start s : State} {news : Nat → Nat} {k p n : Nat} {cur : Nat × Nat}
  {mounts : Nat → Nat → Option Nat}

theorem At.content_eq (here : At v start s news k cur p) :
    bare (s.cache.inode p) = content v start cur.1 cur.2 := by
  rw [← here.contents, content_cached here.order here.member here.owner here.number]

theorem At.later {j : Nat} (here : At v start s news k cur p) (more : k ≤ j) :
    At v start s news j cur p := by
  refine { here with fresh := ?_ }
  intro q mq
  rcases here.fresh q mq with old | ⟨i, less, same⟩
  · exact Or.inl old
  · exact Or.inr ⟨i, by omega, same⟩

theorem At.unused (here : At v start s news k cur p) (supply : Supply news start n) (left : k < n) :
    news k ∉ s.alive := by
  obtain ⟨unused, -, apart⟩ := supply k left
  intro member
  rcases here.fresh _ member with old | ⟨i, less, same⟩
  · exact unused old
  · exact apart i less same.symm

theorem At.move (here : At v start s news k cur p) (distinct : Function.Injective v.sDev)
    (supply : Supply news start n) (left : k < n) (sb ino : Nat) :
    ∃ t u q, take v.sDev s v.read (some sb) ino (news k) = some (t, some q) ∧ drop t p = some u ∧
      At v start u news (k + 1) (sb, ino) q := by
  obtain ⟨t, q, taken, order, member, owner, number, contents, kept, fresh⟩ :=
    take_contents distinct here.order sb ino (here.unused supply left) (supply k left).2.1
  obtain ⟨u, dropped, order', alive, bares, contents'⟩ := drop_contents order (kept p here.member).1
  have owner' := eq_of_bare Inode.sb (fun _ => rfl) (bares q)
  have number' := eq_of_bare Inode.ino (fun _ => rfl) (bares q)
  refine ⟨t, u, q, taken, dropped, order', alive ▸ member, owner'.trans owner,
    number'.trans number, ?_, ?_, ?_⟩
  · intro sb' ino'
    rw [contents', contents, here.contents]
  · intro y my
    obtain ⟨before, same⟩ := here.kept y my
    obtain ⟨after, same'⟩ := kept y before
    exact ⟨alive ▸ after, by rw [bares, same', same]⟩
  · intro y my
    rcases fresh y (alive ▸ my) with old | rfl
    · rcases here.fresh y old with older | ⟨i, less, same⟩
      · exact Or.inl older
      · exact Or.inr ⟨i, by omega, same⟩
    · exact Or.inr ⟨k, by omega, rfl⟩

theorem lookupFs_entry (v : Files) (m : Inode) (name : Str) :
    lookupFs v m name = (dirEntry v m name).getD noIno := by
  unfold lookupFs dirEntry
  split
  · cases m.ops.bind v.lookup with
    | none => rfl
    | some lookup =>
      simp only [Option.bind_some]
      split
      next absent => simp [absent]
      next => rfl
  · rfl

theorem dirEntry_ne {m : Inode} {name : Str} {ino : Nat} (found : dirEntry v m name = some ino) :
    ino ≠ noIno := by
  unfold dirEntry at found
  split at found
  · obtain ⟨lookup, -, found⟩ := Option.bind_eq_some_iff.mp found
    split at found
    · cases found
    · next absent =>
      cases found
      exact absent
  · cases found

theorem At.lookupFs_eq (here : At v start s news k cur p) (name : Str) :
    lookupFs v (s.cache.inode p) name =
    (dirEntry v (content v start cur.1 cur.2) name).getD noIno := by
  rw [← here.content_eq, ← lookupFs_entry]
  rfl

theorem walkStep_refines (here : At v start s news k cur p) (distinct : Function.Injective v.sDev)
    (marks : ∀ sb ino, mountOn v (content v start sb ino) = mounts sb ino)
    (supply : Supply news start n)
    (left : k + 1 < n) (tok : Str) :
    match refStep v (content v start) mounts cur tok with
    | none => walkStep v s news k p tok = some (s, none)
    | some next => ∃ t q, walkStep v s news k p tok = some (t, some q) ∧
      At v start t news (k + 2) next q := by
  have looked := here.lookupFs_eq tok
  unfold refStep
  cases entry : dirEntry v (content v start cur.1 cur.2) tok with
  | none =>
    rw [entry, Option.getD_none] at looked
    simp [walkStep, looked]
  | some ino =>
    rw [entry, Option.getD_some] at looked
    have present := dirEntry_ne entry
    obtain ⟨t, u, q, taken, dropped, there⟩ := here.move distinct supply (by omega) cur.1 ino
    have mark : mountOn v (u.cache.inode q) = mounts cur.1 ino := by
      rw [← marks cur.1 ino, ← there.content_eq]
      rfl
    simp only [Option.map_some, cross]
    cases point : mounts cur.1 ino with
    | none =>
      refine ⟨u, q, ?_, there.later (by omega)⟩
      simp only [walkStep, looked, if_neg present, here.owner, taken, dropped, mark, point,
        Option.bind_eq_bind,
        Option.bind_some, Option.pure_def]
    | some m =>
      obtain ⟨t', u', q', taken', dropped', there'⟩ := there.move distinct supply left m (v.sRoot m)
      refine ⟨u', q', ?_, there'⟩
      simp only [walkStep, looked, if_neg present, here.owner, taken, dropped, mark, point,
        taken', dropped',
        Option.bind_eq_bind, Option.bind_some, Option.pure_def]

theorem walk_refines (distinct : Function.Injective v.sDev)
    (marks : ∀ sb ino, mountOn v (content v start sb ino) = mounts sb ino)
    (supply : Supply news start n)
    (mdepth : Nat) (toks : List Str) (depth : Nat) (deep : depth + toks.length ≤ mdepth)
    (left : 2 * (depth + toks.length) + 1 < n)
    (here : At v start s news (2 * depth + 1) cur p) :
    ∃ t found, walk v news mdepth toks depth s p = some (t, found) ∧
      match toks.foldlM (refStep v (content v start) mounts) cur with
      | none => found = none ∧ ∃ k cur q, At v start t news k cur q
      | some last => ∃ k q, found = some q ∧ At v start t news k last q := by
  induction toks generalizing depth s p cur with
  | nil => exact ⟨s, some p, rfl, _, p, rfl, here⟩
  | cons tok toks ih =>
    simp only [List.length_cons] at deep left
    have stepped := walkStep_refines here distinct marks supply (by omega) tok
    rw [List.foldlM_cons]
    cases next : refStep v (content v start) mounts cur tok with
    | none =>
      rw [next] at stepped
      exact ⟨s, none, by simp [walk, stepped], rfl, _, _, p, here⟩
    | some next' =>
      rw [next] at stepped
      obtain ⟨t, q, stepped, there⟩ := stepped
      -- the depth test can only stop the loop where no component is left
      by_cases last : depth + 1 = mdepth
      · have none' : toks = [] := List.length_eq_zero_iff.mp (by omega)
        subst none'
        exact ⟨t, some q, by simp [walk, stepped, last], _, q, rfl, there⟩
      · obtain ⟨u, found, walked, outcome⟩ := ih (depth + 1) (by omega) (by omega) there
        refine ⟨u, found, ?_, outcome⟩
        simp only [walk, stepped, Option.bind_eq_bind, Option.bind_some, if_neg last, walked]

/-- `lookup_vfs_i` on a canonical path takes the walk over its components. -/
theorem lookup_refines (distinct : Function.Injective v.sDev) (order : InOrder v.sDev s)
    (marks : ∀ sb ino, mountOn v (content v s sb ino) = mounts sb ino) {root : Nat}
    (mounted : v.rootMnt.bind v.mntSb = some root) {names : List Str}
    (plain : ∀ c ∈ names, c ≠ [] ∧ 0x2f ∉ c)
    (supply : Supply news s (2 * names.length + 2)) :
    ∃ t found, lookupVfsI v s news (canonPath names) = some (t, found) ∧
      match refWalk v (content v s) mounts root names with
      | none => found = none ∧ ∃ k cur q, At v s t news k cur q
      | some last => ∃ k q, found = some q ∧ At v s t news k last q := by
  obtain ⟨unused, place, -⟩ := supply 0 (by omega)
  obtain ⟨t, p, taken, order', member, owner, number, contents, kept, fresh⟩ :=
    take_contents distinct order root (v.sRoot root) unused place
  have here : At v s t news (2 * 0 + 1) (root, v.sRoot root) p := by
    refine ⟨order', member, owner, number, contents, kept, ?_⟩
    intro q mq
    exact (fresh q mq).imp id fun same => ⟨0, by omega, same⟩
  have slashes := count_canonPath fun c mc => (plain c mc).2
  obtain ⟨u, found, walked, outcome⟩ :=
    walk_refines distinct marks supply ((canonPath names).count 0x2f) names 0
    (by rw [slashes]; omega) (by omega) here
  refine ⟨u, found, ?_, outcome⟩
  simp only [lookupVfsI, mounted, taken, tokens_canonPath plain, Option.bind_eq_bind,
    Option.bind_some, walked]

end Walk

/-- In every state of the cache in which the mount points are held, looking up a
    canonical path returns the inode that the plain walk over its components ends at, and
    null exactly when that walk fails. -/
theorem lookup_is_reference_walk (v : Files) (s : State)
    (reach : Reach (openMachine v.sDev) start s)
    (distinct : Function.Injective v.sDev) (mounts : Nat → Nat → Option Nat)
    (pinned : Pinned v s mounts)
    (root : Nat) (mounted : v.rootMnt.bind v.mntSb = some root) (names : List Str)
    (canonical : ∀ c ∈ names, Component c) (news : Nat → Nat)
    (supply : Supply news s (2 * names.length + 2)) :
    ∃ t found, lookupVfsI v s news (canonPath names) = some (t, found) ∧
      (found = none ↔ refWalk v (content v s) mounts root names = none) ∧
      ∀ sb ino, refWalk v (content v s) mounts root names = some (sb, ino) →
        ∃ p, found = some p ∧ p ∈ t.alive ∧ (t.cache.inode p).sb = some sb ∧
        (t.cache.inode p).ino = ino ∧
          bare (t.cache.inode p) = content v s sb ino := by
  have order := reach_order reach
  obtain ⟨t, found, looked, outcome⟩ := lookup_refines distinct order
    (pinned.content_mount order distinct) mounted (fun c mc => (canonical c mc).1) supply
  refine ⟨t, found, looked, ?_⟩
  cases walked : refWalk v (content v s) mounts root names with
  | none =>
    rw [walked] at outcome
    exact ⟨by simp [outcome.1], by simp⟩
  | some last =>
    rw [walked] at outcome
    obtain ⟨k, q, rfl, there⟩ := outcome
    refine ⟨by simp, ?_⟩
    intro sb ino same
    obtain rfl := Option.some.inj same
    exact ⟨q, rfl, there.member, there.owner, there.number, there.content_eq⟩

def twoFs : Files where
  sDev := fun sb => sb
  read := fun sb =>
    if sb = 2 then
      .dev ⟨{ Inode.zero with mode := sIfdir, ops := some 1 }, none, none, none, none⟩
        [some ⟨{ Inode.zero with mode := 0o020666, ino := 1 }, none, none, none, none⟩]
    else .ext2 fun _ => ⟨sIfdir, 0, 0, 0, some 0, none⟩
  sRoot := fun sb => if sb = 2 then 0 else 2
  mntSb := fun m => some (m + 1)
  lookup := fun ops => some fun _ _ name =>
    if ops = 0 ∧ name = [0x64] then 12 else if ops = 1 ∧ name = [0x6e] then 1 else noIno
  rootMnt := some 0

def devMounts (sb ino : Nat) : Option Nat := if sb = 1 ∧ ino = 12 then some 2 else none

def fetched : State :=
  (step twoFs.sDev start (.iget twoFs.read (some 1) 12 16)).get (by decide +kernel)

def devMounted : State := (step twoFs.sDev fetched (.imount 16 1)).get (by decide +kernel)

theorem devMounted_reach : Reach (openMachine twoFs.sDev) start devMounted := by
  have fetch' : Allowed start (.iget twoFs.read (some 1) 12 16) :=
    ⟨by simp [start], by decide, by decide⟩
  have mount' : Allowed fetched (.imount 16 1) := by
    change 16 ∈ fetched.alive
    decide +kernel
  exact ⟨[.iget twoFs.read (some 1) 12 16, .imount 16 1],
    .cons fetch' (Option.some_get _).symm (.cons mount' (Option.some_get _).symm (.nil _))⟩

theorem devMounted_pinned : Pinned twoFs devMounted devMounts := by
  have only : devMounted.alive = [16] := by decide +kernel
  have marked : (devMounted.cache.inode 16).sb = some 1 ∧ (devMounted.cache.inode 16).ino = 12 ∧
      0 < (devMounted.cache.inode 16).refs ∧
          mountOn twoFs (devMounted.cache.inode 16) = some 2 := by
    decide +kernel
  refine ⟨?_, ?_, ?_⟩
  · intro sb ino m point
    unfold devMounts at point
    split at point
    next here =>
      obtain ⟨rfl, rfl⟩ := here
      cases point
      exact ⟨16, by rw [only]; exact List.mem_singleton_self 16, marked⟩
    next => cases point
  · intro p member sb owner
    rw [only, List.mem_singleton] at member
    subst member
    obtain rfl := Option.some.inj (marked.1.symm.trans owner)
    rw [marked.2.1, marked.2.2.2]
    rfl
  · intro sb ino
    have plain : (newNode ⟨twoFs.sDev, twoFs.read⟩ sb ino).iflags = 0 := by
      by_cases device : sb = 2
      · by_cases zero : ino = 0
        · simp [newNode, twoFs, device, zero, ReadInode.call, devInoder, Inode.zero]
        · by_cases one : 1 = ino
          · simp [newNode, twoFs, device, ← one, ReadInode.call, devInoder, Inode.zero]
          · simp [newNode, twoFs, device, zero, one, ReadInode.call, devInoder, Inode.zero]
      · simp [newNode, twoFs, device, ReadInode.call, ext2Inoder, Inode.zero]
    simp [mountOn, plain]

theorem devMounted_supply {n : Nat} (small : n ≤ 100) : Supply (fun i => 32 + i) devMounted n := by
  have only : devMounted.alive = [16] := by decide +kernel
  intro i less
  rw [only]
  simp only [List.mem_singleton, ilru]
  refine ⟨by omega, ⟨by omega, by omega⟩, by omega⟩

theorem lookup_crosses_mount :
    ∃ t p, lookupVfsI twoFs devMounted (fun i => 32 + i) [0x2f, 0x64, 0x2f, 0x6e] =
    some (t, some p) ∧
      (t.cache.inode p).sb = some 2 ∧ (t.cache.inode p).ino = 1 := by
  obtain ⟨t, found, looked, -, reached⟩ :=
    lookup_is_reference_walk twoFs devMounted devMounted_reach
    (fun _ _ same => same) devMounts devMounted_pinned 1 rfl [[0x64], [0x6e]] (by decide)
      (fun i => 32 + i)
    (devMounted_supply (by decide))
  have walked : refWalk twoFs (content twoFs devMounted) devMounts 1 [[0x64], [0x6e]] =
      some (2, 1) := by
    decide +kernel
  obtain ⟨p, rfl, -, owner, number, -⟩ := reached 2 1 walked
  exact ⟨t, p, looked, owner, number⟩

end Vfs
