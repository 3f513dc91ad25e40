import NoobOs.Fs.SystemCalls

/-!
What the calls leave of the inode cache and of the descriptor table: lookups and `iput`
lose no inode, and every file of the table keeps a cached inode and its operations.
-/
namespace FileCalls
open FileTable Strings
open InodeCache (Inode drop)
open Vfs (Files InOrder content lookupVfs lookBs bare)

/-! ## The cache under the calls -/

/-- What lookups and `iput` do to the cache: no inode that can be looked up changes, and
    none that is cached goes. -/
structure Grown (v : Files) (c d : InodeCache.State) : Prop where
  order : InOrder v.sDev d
  contents : ∀ sb ino, content v d sb ino = content v c sb ino
  kept : ∀ q ∈ c.alive, q ∈ d.alive ∧ bare (d.cache.inode q) = bare (c.cache.inode q)

section Cache
variable {v : Files} {c d e : InodeCache.State} {news : Nat → Nat} {cwd : Str} {root : Nat}

theorem Grown.refl (order : InOrder v.sDev c) : Grown v c c :=
  ⟨order, fun _ _ => rfl, fun _ member => ⟨member, rfl⟩⟩

theorem Grown.trans (first : Grown v c d) (second : Grown v d e) : Grown v c e := by
  refine ⟨second.order, ?_, ?_⟩
  · intro sb ino
    rw [second.contents, first.contents]
  · intro q member
    obtain ⟨member', same⟩ := first.kept q member
    obtain ⟨member'', same'⟩ := second.kept q member'
    exact ⟨member'', same'.trans same⟩

theorem drop_grown (order : InOrder v.sDev c) {p : Nat} (member : p ∈ c.alive) :
    ∃ d, drop c p = some d ∧ Grown v c d := by
  obtain ⟨d, dropped, order', alive, bares, contents⟩ := Vfs.drop_contents order member
  exact ⟨d, dropped, order', contents, fun q mq => ⟨alive ▸ mq, bares q⟩⟩

theorem At.grown {k p : Nat} {cur : Nat × Nat} (here : Vfs.At v c d news k cur p) : Grown v c d :=
  ⟨here.order, here.contents, here.kept⟩

theorem lookBs_walk (v : Files) (c : InodeCache.State) (news : Nat → Nat) (cwd path : Str) :
    Vfs.pathCanon cwd path = none ∨ ∃ names name, (∀ n ∈ names, Vfs.Component n) ∧
      Vfs.weight names ≤ path.length + cwd.length + 2 ∧
      lookBs v c news cwd (some path) =
        (Vfs.lookupVfsI v c news (Vfs.canonPath names)).map fun r => (r.1, r.2, name) := by
  cases canon : Vfs.pathCanon cwd path with
  | none => exact Or.inl rfl
  | some r =>
    obtain ⟨names, stack, rfl, comps⟩ := Vfs.pathCanon_stack canon
    have size := Vfs.canonSegs_weight stack
    right
    rcases List.eq_nil_or_concat' names with rfl | ⟨init, last, rfl⟩
    · refine ⟨[], some [0x2f], comps, size, ?_⟩
      have root' : Vfs.canonPath [] = [0x2f] := rfl
      rw [root'] at canon ⊢
      simp only [lookBs, canon, Option.bind_eq_bind, Option.bind_some, if_true, Option.pure_def]
      cases Vfs.lookupVfsI v c news [0x2f] <;> rfl
    · rw [Vfs.weight_append] at size
      exact ⟨init, some last, fun n mn => comps n (List.mem_append_left _ mn), by omega,
        Vfs.lookBs_canonPath (comps last (by simp)) canon⟩

theorem lookBs_overrun {path : Str} (overrun : Vfs.pathCanon cwd path = none) :
    lookBs v c news cwd (some path) = none := by
  simp [lookBs, overrun]

section Lookups
variable (distinct : Function.Injective v.sDev) (order : InOrder v.sDev c)
  (mounted : v.rootMnt.bind v.mntSb = some root)
include distinct order mounted

theorem lookupVfsI_grown {names : List Str} (comps : ∀ n ∈ names, Vfs.Component n)
    (supply : Vfs.Supply news c (2 * names.length + 2)) :
    ∃ d found, Vfs.lookupVfsI v c news (Vfs.canonPath names) = some (d, found) ∧ Grown v c d ∧
      ∀ p, found = some p → p ∈ d.alive := by
  have marked : ∀ sb ino, Vfs.mountOn v (content v c sb ino) = Vfs.marks v c sb ino :=
    fun _ _ => rfl
  obtain ⟨d, found, looked, outcome⟩ := Vfs.lookup_refines distinct order marked mounted
    (fun n member => (comps n member).1) supply
  refine ⟨d, found, looked, ?_⟩
  cases walked : Vfs.refWalk v (content v c) (Vfs.marks v c) root names with
  | none =>
    rw [walked] at outcome
    obtain ⟨rfl, k, cur, q, there⟩ := outcome
    exact ⟨At.grown there, fun p same => by cases same⟩
  | some last =>
    rw [walked] at outcome
    obtain ⟨k, q, rfl, there⟩ := outcome
    refine ⟨At.grown there, ?_⟩
    intro p same
    cases same
    exact there.member

theorem lookupVfs_returns {path : Str}
    (supply : Vfs.Supply news c (2 * (path.length + cwd.length) + 10))
    (fits : Vfs.pathCanon cwd path ≠ none) :
    ∃ d found, lookupVfs v c news cwd path = some (d, found) ∧ Grown v c d ∧ ∀ p, found = some p →
    p ∈ d.alive := by
  obtain ⟨r, canon⟩ := Option.ne_none_iff_exists'.mp fits
  obtain ⟨names, stack, rfl, comps⟩ := Vfs.pathCanon_stack canon
  have size := Vfs.canonSegs_weight stack
  have few := Vfs.length_le_weight names
  rw [Vfs.lookupVfs_eq canon]
  exact lookupVfsI_grown distinct order mounted comps (supply.mono (by omega))

theorem lookupVfs_grown {path : Str}
    (supply : Vfs.Supply news c (2 * (path.length + cwd.length) + 10)) :
    lookupVfs v c news cwd path = none ∨ ∃ d found, lookupVfs v c news cwd path = some
    (d, found) ∧ Grown v c d ∧
      ∀ p, found = some p → p ∈ d.alive := by
  by_cases overrun : Vfs.pathCanon cwd path = none
  · exact Or.inl (by simp [lookupVfs, overrun])
  · exact Or.inr (lookupVfs_returns distinct order mounted supply overrun)

theorem lookBs_returns {path : Str}
    (supply : Vfs.Supply news c (2 * (path.length + cwd.length) + 10))
    (fits : Vfs.pathCanon cwd path ≠ none) :
    ∃ d found name, lookBs v c news cwd (some path) = some (d, found, name) ∧ Grown v c d ∧
      ∀ p, found = some p → p ∈ d.alive := by
  obtain ⟨names, name, comps, size, walked⟩ := (lookBs_walk v c news cwd path).resolve_left fits
  have few := Vfs.length_le_weight names
  obtain ⟨d, found, looked, grown, member⟩ :=
    lookupVfsI_grown distinct order mounted comps (supply.mono (by omega))
  exact ⟨d, found, name, by rw [walked, looked]; rfl, grown, member⟩

theorem lookBs_grown {path : Option Str}
    (supply : ∀ p, path = some p → Vfs.Supply news c (2 * (p.length + cwd.length) + 10)) :
    lookBs v c news cwd path = none ∨ ∃ d found name, lookBs v c news cwd path = some
    (d, found, name) ∧
      Grown v c d ∧ ∀ p, found = some p → p ∈ d.alive := by
  cases path with
  | none => exact Or.inr ⟨c, none, none, rfl, Grown.refl order, by simp⟩
  | some path =>
    by_cases overrun : Vfs.pathCanon cwd path = none
    · exact Or.inl (lookBs_overrun overrun)
    · exact Or.inr (lookBs_returns distinct order mounted (supply path rfl) overrun)

end Lookups

theorem lookBs_balanced {chains : Nat → List Nat} {idle : List Nat}
    (exact' : InodeCache.Inv v.sDev c chains idle)
    (room : ∀ p ∈ c.alive, (c.cache.inode p).refs ≤ 65533)
    (mounted : v.rootMnt.bind v.mntSb = some root)
    {path : Option Str}
    (supply : ∀ p, path = some p → Vfs.Supply news c (2 * (p.length + cwd.length) + 10))
    {p : Nat} {name : Option Str} (looked : lookBs v c news cwd path = some (d, some p, name))
    (dropped : drop d p = some e) (key : Option Nat × Nat) :
    Vfs.refsOf v.sDev e key = Vfs.refsOf v.sDev c key := by
  cases path with
  | none => cases looked
  | some path =>
    rcases lookBs_walk v c news cwd path with overrun | ⟨names, name', comps, size, walked⟩
    · rw [lookBs_overrun overrun] at looked
      cases looked
    · have short := Vfs.canonPath_le_weight names
      obtain ⟨d', found, ran, outcome⟩ := Vfs.lookup_spec exact' mounted
          (fun k _ => Vfs.refsOf_room exact' room k)
        ((supply path rfl).mono (by omega : 2 * (Vfs.canonPath names).length + 4 ≤ _))
      rw [walked, ran] at looked
      cases looked
      revert outcome
      cases Vfs.resolve v c (Vfs.canonPath names) with
      | none => exact fun outcome => absurd outcome.1 (by simp)
      | some node =>
        rintro ⟨m, q, same, -, hold⟩
        cases same
        obtain ⟨chains', idle', inv'⟩ := hold.inv
        have one := hold.counts
        obtain ⟨e', -, -, dropped', -, -, -, -, counts⟩ := Vfs.drop_balance inv' hold.member (by
          rw [one, if_pos rfl]
          omega)
        obtain rfl := Option.some.inj (dropped'.symm.trans dropped)
        have less := counts key
        rw [one] at less
        omega

end Cache

/-! ## The descriptor table under the calls -/

/-- Every open file has a cached inode and its table. -/
def Sound (c : InodeCache.State) (s : State) : Prop :=
  ∀ f, some f ∈ s.ofile → ∃ a ∈ c.alive, (s.file f).inode = some a ∧
    (s.file f).fops = (c.cache.inode a).fops ∧
    Kind (c.cache.inode a)

/-- References to cached inodes are given up, and memory. -/
def GivesUp (c : InodeCache.State) (events : List Event) : Prop :=
  ∀ e ∈ events, (∃ a ∈ c.alive, e = .iput a) ∨ ∃ f, e = .free f

/-- No file comes to the table, and none gets another inode. -/
structure Within (t s : State) : Prop where
  held : ∀ f, some f ∈ t.ofile → some f ∈ s.ofile
  inode : ∀ g, (t.file g).inode = (s.file g).inode
  fops : ∀ g, (t.file g).fops = (s.file g).fops

def Logged (c : InodeCache.State) (s t : State) : Prop :=
  ∃ events, t.log = s.log ++ events ∧ GivesUp c events

section Table
variable {v : Files} {k : Kernel} {c d : InodeCache.State} {s t : State} {fd : Int} {f : Nat}

theorem Same.within (same : Same t s) : Within t s :=
  ⟨fun _ held => same.ofile ▸ held, same.inode, same.fops⟩

theorem Within.refl (s : State) : Within s s := ⟨fun _ held => held, fun _ => rfl, fun _ => rfl⟩

theorem Sound.within (sound : Sound c s) (within : Within t s) : Sound c t := by
  intro f held
  rw [within.inode, within.fops]
  exact sound f (within.held f held)

theorem Sound.grown (sound : Sound c s) (grown : Grown v c d) : Sound d s := by
  intro f held
  obtain ⟨a, member, inode, fops, kind⟩ := sound f held
  obtain ⟨member', same⟩ := grown.kept a member
  have table : (d.cache.inode a).fops = (c.cache.inode a).fops :=
    Vfs.eq_of_bare Inode.fops (fun _ => rfl) same
  exact ⟨a, member', inode, fops.trans table.symm, kind.congr same⟩

theorem slot_mem {o : Option Nat} (held : slot s fd = some o) : o ∈ s.ofile := by
  unfold slot at held
  split at held
  · exact List.mem_of_getElem? held
  · cases held

theorem Kind.no_close {n : Inode} (kind : Kind n) :
    n.fops.any (hooks (booted k)).hasClose = false := by
  rcases kind.fops with none' | ext2 | dev
  · simp [none']
  · simp [ext2, hooks, ext2Fops]
  · simp [dev, hooks, devFops]

theorem release_givesUp (k : Kernel) (sound : Sound c s) (held : some f ∈ s.ofile) :
    GivesUp c (release (hooks (booted k)) s f) := by
  obtain ⟨a, member, inode, fops, kind⟩ := sound f held
  intro e given
  simp only [release, fops, kind.no_close, inode, Option.toList_some, List.map_cons, List.map_nil,
    List.nil_append,
    List.mem_append, List.mem_singleton, Bool.false_eq_true, if_false] at given
  rcases given with rfl | rfl
  · exact Or.inl ⟨a, member, rfl⟩
  · exact Or.inr ⟨f, rfl⟩

theorem release_congr (ops : Fops) (inode : (t.file f).inode = (s.file f).inode)
    (fops : (t.file f).fops = (s.file f).fops) : release ops t f = release ops s f := by
  rw [release, release, inode, fops]

theorem Logged.same (same : t.log = s.log) : Logged c s t :=
  ⟨[], by rw [same, List.append_nil], fun _ member => absurd member List.not_mem_nil⟩

theorem recount_field {α : Type} (field : File → α)
    (apart : ∀ w n, field { w with refcont := n } = field w) (s : State)
    (f n g : Nat) : field ((setFile s f { s.file f with refcont := n }).file g) =
        field (s.file g) := by
  by_cases same : g = f
  · simp [setFile, same, apart]
  · simp [setFile, same]

theorem cleared_mem (s : State) (fd : Int) (held : some f ∈ (setSlot s fd none).ofile) :
    some f ∈ s.ofile := by
  rcases List.mem_or_eq_of_mem_set held with old | none'
  · exact old
  · cases none'

theorem fsysClose_within (sound : Sound c s) {code : Int}
    (ran : fsysClose (hooks (booted k)) s fd = some (t, code)) : Within t s ∧ Logged c s t := by
  unfold fsysClose at ran
  split at ran
  · cases ran
    exact ⟨Within.refl s, Logged.same rfl⟩
  · simp only [Option.bind_eq_bind, Option.bind_eq_some_iff, Option.pure_def] at ran
    obtain ⟨o, held, ran⟩ := ran
    cases o with
    | none =>
      cases ran
      exact ⟨Within.refl s, Logged.same rfl⟩
    | some f =>
      simp only at ran
      split at ran
      · cases ran
        exact ⟨Within.refl s, Logged.same rfl⟩
      · have within (n : Nat) :
            Within (setFile (setSlot s fd none) f { (setSlot s fd none).file f with
            refcont := n }) s :=
          ⟨fun _ => cleared_mem s fd,
            recount_field File.inode (fun _ _ => rfl) (setSlot s fd none) f n,
            recount_field File.fops (fun _ _ => rfl) (setSlot s fd none) f n⟩
        have less := within (decrement (s.file f).refcont)
        split at ran
        · cases ran
          refine ⟨⟨less.held, less.inode, less.fops⟩, _, rfl, ?_⟩
          have given := release_givesUp k sound (slot_mem held)
          rw [← release_congr _ (less.inode f) (less.fops f)] at given
          exact given
        · cases ran
          exact ⟨less, Logged.same rfl⟩

theorem fsysClose_held (ops : Fops) (inside : InTable fd) (held : slot s fd = some (some f)) :
    ∃ t, fsysClose ops s fd = some (t, 0) ∧ t.ofile = s.ofile.set fd.toNat none := by
  have below : ¬ (nofile : Int) ≤ fd := by
    have := inside.2
    omega
  have flagged : ¬ (s.file f).flags ||| fUsed = 0 := by simp [fUsed]
  simp only [fsysClose, if_neg below, held, Option.bind_eq_bind, Option.bind_some, if_neg flagged,
    Option.pure_def]
  split
  · exact ⟨_, rfl, rfl⟩
  · exact ⟨_, rfl, rfl⟩

theorem share_within (held : some f ∈ s.ofile) {u : State} {n : Nat} (before : Within u s)
    (stored : storeSlot (setFile u f { u.file f with refcont := n }) fd (some f) = some t) :
    Within t s ∧ t.log = u.log := by
  obtain ⟨o, -, rfl⟩ := Option.map_eq_some_iff.mp stored
  refine ⟨⟨?_, ?_, ?_⟩, rfl⟩
  · intro g held'
    rcases List.mem_or_eq_of_mem_set held' with old | same
    · exact before.held g old
    · cases same
      exact held
  · intro g
    exact (recount_field File.inode (fun _ _ => rfl) u f n g).trans (before.inode g)
  · intro g
    exact (recount_field File.fops (fun _ _ => rfl) u f n g).trans (before.fops g)

theorem fsysDup2_within (sound : Sound c s) {oldfd newfd code : Int}
    (ran : fsysDup2 (hooks (booted k)) s oldfd newfd = some (t, code)) :
    Within t s ∧ Logged c s t := by
  simp only [fsysDup2, Option.bind_eq_bind, Option.bind_eq_some_iff, Option.pure_def] at ran
  obtain ⟨⟨r, o⟩, checked, ran⟩ := ran
  cases o with
  | none =>
    cases ran
    exact ⟨Within.refl s, Logged.same rfl⟩
  | some f =>
    obtain ⟨-, g, same, held⟩ := (checkFd_some checked).resolve_left (by simp)
    cases same
    have held := slot_mem held
    simp only [Option.bind_eq_some_iff] at ran
    obtain ⟨⟨r', n⟩, -, ran⟩ := ran
    cases n with
    | none =>
      simp only [Option.bind_some, Option.bind_eq_some_iff] at ran
      obtain ⟨w, stored, ran⟩ := ran
      cases ran
      obtain ⟨within, log⟩ := share_within held (Within.refl s) stored
      exact ⟨within, Logged.same log⟩
    | some g =>
      simp only [Option.bind_eq_some_iff] at ran
      obtain ⟨u, closed, w, stored, ran⟩ := ran
      cases ran
      obtain ⟨⟨u', r''⟩, ran, rfl⟩ := Option.map_eq_some_iff.mp closed
      obtain ⟨before, logged⟩ := fsysClose_within sound ran
      obtain ⟨within, log⟩ := share_within held before stored
      exact ⟨within, by rwa [Logged, log]⟩

theorem fsysDup_within (sound : Sound c s) {oldfd code : Int}
    (ran : fsysDup (hooks (booted k)) s oldfd = some (t, code)) : Within t s ∧ Logged c s t := by
  simp only [fsysDup, Option.bind_eq_bind, Option.pure_def] at ran
  split at ran
  · cases ran
    exact ⟨Within.refl s, Logged.same rfl⟩
  · obtain ⟨⟨u, r⟩, duped, same⟩ := Option.bind_eq_some_iff.mp ran
    cases same
    exact fsysDup2_within sound duped

theorem fsysOpen_sound (sound : Sound c s) (flags new : Nat) (hooked : Int) {p : Nat}
    (member : p ∈ c.alive)
    (kind : Kind (c.cache.inode p)) (mode : Nat) :
    Sound c
    (fsysOpen (hooks (booted k)) s flags (some ⟨p, (c.cache.inode p).fops, mode⟩) new hooked).1 ∧
      Logged c s
      (fsysOpen (hooks (booted k)) s flags (some ⟨p, (c.cache.inode p).fops, mode⟩) new
      hooked).1 := by
  unfold fsysOpen
  split
  · exact ⟨sound, Logged.same rfl⟩
  · simp only
    split
    · refine ⟨sound, _, rfl, ?_⟩
      intro e given
      exact Or.inl ⟨p, member, List.mem_singleton.mp given⟩
    · split
      · refine ⟨sound, _, rfl, ?_⟩
        intro e given
        simp only [List.mem_cons, List.not_mem_nil, or_false] at given
        rcases given with rfl | rfl
        · exact Or.inr ⟨new, rfl⟩
        · exact Or.inl ⟨p, member, rfl⟩
      · refine ⟨?_, Logged.same rfl⟩
        intro f held
        by_cases mine : f = new
        · subst mine
          refine ⟨p, member, ?_⟩
          simp [setSlot, setFile, kind]
        · rcases List.mem_or_eq_of_mem_set held with old | same
          · simpa [setSlot, setFile, mine] using sound f old
          · cases same
            exact absurd rfl mine

end Table

end FileCalls
