import NoobOs.Fs.ParentLookup

/-!
The working directory over any sequence of `fsys_chdir`. `u_cdirname` has `CWD_MAXSIZ`
bytes and is filled by `strcpy`; the string is kept as it would be with room for it.
-/
namespace Vfs
open InodeCache Runs Strings

def cwdMaxsiz : Nat := 64

section Directory
variable (v : Files) (root : Nat)

def LeadsToDir (s : State) (names : List Str) : Prop :=
  ∃ sb ino, refWalk v (content v s) (marks v s) root names = some (sb, ino) ∧
    isDir (content v s sb ino).mode

/-- The name of the working directory is canonical, fits its buffer and leads to a
    directory. -/
def CwdOk (s : State) (d : Cwd) : Prop :=
  ∃ names, (∀ c ∈ names, Component c) ∧ d.cdirname = canonPath names ∧
    d.cdirname.length ≤ cwdMaxsiz - 1 ∧
    LeadsToDir v root s names

/-- The segments of the path never overrun the array of `path_canon`, and a canonical form
    too long for the buffer leads to no directory. -/
def Fits (s : State) (d : Cwd) (path : Option Str) : Prop :=
  ∀ p, path = some p → ∃ names, canonSegs (tokens [0x2f] (fullPath d.cdirname p)) [] = some names ∧
    (cwdMaxsiz ≤ (canonPath names).length → ¬ LeadsToDir v root s names)

def Supplied (s : State) (d : Cwd) (path : Option Str) (news : Nat → Nat) : Prop :=
  ∀ p, path = some p → Supply news s (2 * (p.length + d.cdirname.length) + 6)

def chdirs : Machine (State × Cwd) (Option Str × (Nat → Nat)) where
  legal x r := Fits v root x.1 x.2 r.1 ∧ Supplied x.1 x.2 r.1 r.2
  step x r := (fsysChdir v x.1 r.2 x.2 r.1).map fun y => (y.1, y.2.1)

end Directory

section Step
variable {v : Files} {root : Nat} {s t : State} {d d' : Cwd} {news : Nat → Nat}

theorem chdir_error {path : Option Str} {code : Int}
    (ran : fsysChdir v s news d path = some (t, d', code))
    (failed : code ≠ 0) : d' = d := by
  cases path with
  | none =>
    simp only [fsysChdir, Option.pure_def, Option.some.injEq, Prod.mk.injEq] at ran
    exact ran.2.1.symm
  | some p =>
    simp only [fsysChdir, Option.bind_eq_bind, Option.bind_eq_some_iff, Option.pure_def] at ran
    obtain ⟨r, -, pth, -, ⟨u, found⟩, -, ran⟩ := ran
    cases found with
    | none =>
      simp only [Option.some.injEq, Prod.mk.injEq] at ran
      exact ran.2.1.symm
    | some q =>
      simp only at ran
      split at ran
      · obtain ⟨w, -, ran⟩ := Option.bind_eq_some_iff.mp ran
        simp only [Option.some.injEq, Prod.mk.injEq] at ran
        exact absurd ran.2.2.symm failed
      · simp only [Option.some.injEq, Prod.mk.injEq] at ran
        exact ran.2.1.symm

theorem leadsToDir_congr (contents : ∀ sb ino, content v t sb ino = content v s sb ino)
    (names : List Str) :
    LeadsToDir v root t names ↔ LeadsToDir v root s names := by
  have same : content v t = content v s := by
    funext sb ino
    exact contents sb ino
  have same' : marks v t = marks v s := by
    funext sb ino
    simp only [marks, same]
  simp only [LeadsToDir, same, same']

theorem chdir_step (distinct : Function.Injective v.sDev) (order : InOrder v.sDev s)
    (mounted : v.rootMnt.bind v.mntSb = some root) {path : Option Str} (fits : Fits v root s d path)
    (supplied : Supplied s d path news) :
    ∃ t d' code, fsysChdir v s news d path = some (t, d', code) ∧ InOrder v.sDev t ∧
      (∀ sb ino, content v t sb ino = content v s sb ino) ∧
      (d' = d ∨ ∃ names, (∀ c ∈ names, Component c) ∧ d'.cdirname = canonPath names ∧
        (canonPath names).length ≤ cwdMaxsiz - 1 ∧ LeadsToDir v root s names) := by
  cases path with
  | none => exact ⟨s, d, eFault, rfl, order, fun _ _ => rfl, Or.inl rfl⟩
  | some p =>
    obtain ⟨names, stack, short⟩ := fits p rfl
    obtain ⟨canon, comps⟩ := pathCanon_eq stack
    have marked : ∀ sb ino, mountOn v (content v s sb ino) = marks v s sb ino := fun _ _ => rfl
    have size := canonSegs_weight stack
    have few := length_le_weight names
    obtain ⟨t, found, looked, outcome⟩ := lookup_refines distinct order marked mounted
      (fun c mc => (comps c mc).1) ((supplied p rfl).mono (by omega))
    cases walked : refWalk v (content v s) (marks v s) root names with
    | none =>
      rw [walked] at outcome
      obtain ⟨rfl, k, cur, q, there⟩ := outcome
      refine ⟨t, d, eNoent, ?_, there.order, there.contents, Or.inl rfl⟩
      simp only [fsysChdir, canon, looked, Option.bind_eq_bind, Option.bind_some, Option.pure_def]
    | some last =>
      rw [walked] at outcome
      obtain ⟨k, q, rfl, there⟩ := outcome
      have mode : (t.cache.inode q).mode = (content v s last.1 last.2).mode := by
        rw [← there.content_eq]
        rfl
      by_cases directory : isDir (content v s last.1 last.2).mode
      · obtain ⟨u, dropped, order', -, -, contents⟩ := drop_contents there.order there.member
        have leads : LeadsToDir v root s names := ⟨last.1, last.2, walked, directory⟩
        have fits' : (canonPath names).length ≤ cwdMaxsiz - 1 := by
          by_contra long
          apply short _ leads
          simp only [cwdMaxsiz] at long ⊢
          omega
        refine ⟨u, ⟨t.cache.inode q, canonPath names⟩, 0, ?_, order', ?_,
          Or.inr ⟨names, comps, rfl, fits', leads⟩⟩
        · simp only [fsysChdir, canon, looked, mode, directory, if_true, dropped,
            Option.bind_eq_bind,
            Option.bind_some, Option.pure_def]
        · intro sb ino
          rw [contents, there.contents]
      · refine ⟨t, d, eNotdir, ?_, there.order, there.contents, Or.inl rfl⟩
        simp only [fsysChdir, canon, looked, mode, directory, Option.bind_eq_bind, Option.bind_some,
          Option.pure_def]
        rfl

theorem cwdOk_congr (contents : ∀ sb ino, content v t sb ino = content v s sb ino) :
    CwdOk v root t d ↔ CwdOk v root s d := by
  simp only [CwdOk, leadsToDir_congr contents]

theorem chdir_keeps (distinct : Function.Injective v.sDev) (order : InOrder v.sDev s)
    (mounted : v.rootMnt.bind v.mntSb = some root) (ok : CwdOk v root s d) {path : Option Str}
    (fits : Fits v root s d path) (supplied : Supplied s d path news) :
    ∃ t d' code, fsysChdir v s news d path = some (t, d', code) ∧ InOrder v.sDev t ∧
    CwdOk v root t d' := by
  obtain ⟨t, d', code, ran, order', contents, moved⟩ :=
    chdir_step distinct order mounted fits supplied
  refine ⟨t, d', code, ran, order', (cwdOk_congr contents).mpr ?_⟩
  rcases moved with rfl | ⟨names, comps, named, short, leads⟩
  · exact ok
  · exact ⟨names, comps, named, named ▸ short, leads⟩

end Step

/-- In every run of calls that fit, the working directory is as it should be in every
    state, every such call returns, and no error changes it. -/
theorem cwd_invariant_when_fits (v : Files) (s₀ : State)
    (reach₀ : Reach (openMachine v.sDev) start s₀)
    (distinct : Function.Injective v.sDev) (root : Nat)
    (mounted : v.rootMnt.bind v.mntSb = some root)
    (directory : isDir (content v s₀ root (v.sRoot root)).mode) (cdir : Inode) (s : State) (d : Cwd)
    (reach : Reach (chdirs v root) (s₀, ⟨cdir, [0x2f]⟩) (s, d)) :
    CwdOk v root s d ∧
      (∀ path news, Fits v root s d path → Supplied s d path news →
        ∃ t d' code, fsysChdir v s news d path = some (t, d', code) ∧ CwdOk v root t d') ∧
      ∀ path news t d' code, fsysChdir v s news d path = some (t, d', code) →
      code ≠ 0 → d' = d := by
  have kept : InOrder v.sDev s ∧ CwdOk v root s d := by
    apply reach_invariant (fun x : State × Cwd => InOrder v.sDev x.1 ∧
      CwdOk v root x.1 x.2) _ _ reach
    · exact ⟨reach_order reach₀, [], by simp, rfl, by simp [cwdMaxsiz], root, v.sRoot root,
        rfl, directory⟩
    · rintro ⟨s, d⟩ ⟨path, news⟩ ⟨t, d'⟩ ⟨order, ok⟩ ⟨fits, supplied⟩ stepped
      obtain ⟨t₁, d₁, code, ran, order', ok'⟩ := chdir_keeps distinct order mounted ok fits supplied
      simp only [chdirs, ran, Option.map_some, Option.some.injEq, Prod.mk.injEq] at stepped
      obtain ⟨rfl, rfl⟩ := stepped
      exact ⟨order', ok'⟩
  refine ⟨kept.2, ?_, fun path news t d' code ran failed => chdir_error ran failed⟩
  intro path news fits supplied
  obtain ⟨t, d', code, ran, -, ok⟩ := chdir_keeps distinct kept.1 mounted kept.2 fits supplied
  exact ⟨t, d', code, ran, ok⟩

theorem cwd_after_chdir : ∃ s d, Reach (chdirs twoFs 1) (devMounted, ⟨Inode.zero, [0x2f]⟩) (s, d) ∧
    d.cdirname = [0x2f, 0x64] ∧ CwdOk twoFs 1 s d := by
  have fits : Fits twoFs 1 devMounted ⟨Inode.zero, [0x2f]⟩ (some [0x64]) := by
    intro p same
    cases same
    exact ⟨[[0x64]], by decide, fun long => absurd long (by decide)⟩
  have supplied : Supplied devMounted ⟨Inode.zero, [0x2f]⟩ (some [0x64]) (fun i => 32 + i) := by
    intro p same
    cases same
    exact devMounted_supply (by decide)
  have moved :
    ((chdirs twoFs 1).step (devMounted, ⟨Inode.zero, [0x2f]⟩) (some [0x64], fun i => 32 + i)).map
      (fun x => x.2.cdirname) = some [0x2f, 0x64] := by
    decide +kernel
  obtain ⟨⟨s, d⟩, stepped, named⟩ := Option.map_eq_some_iff.mp moved
  have reach : Reach (chdirs twoFs 1) (devMounted, ⟨Inode.zero, [0x2f]⟩) (s, d) :=
    ⟨[_], .cons ⟨fits, supplied⟩ stepped (.nil _)⟩
  exact ⟨s, d, reach, named,
    (cwd_invariant_when_fits twoFs devMounted devMounted_reach (fun _ _ same => same) 1 rfl
    (by decide +kernel) Inode.zero s d reach).1⟩

def longName : Files :=
  { twoFs with
    lookup := fun _ => some fun _ ino name =>
      if ino = 2 ∧ name = List.replicate 64 0x64 then 12 else noIno }

/-- Changing to it stores 66 bytes in the buffer; a path of 64 components overruns the
    segment array before any lookup. -/
theorem chdir_overruns_cdirname :
    (∃ t d, fsysChdir longName start (fun i => 32 + i) ⟨Inode.zero,
    [0x2f]⟩ (some (List.replicate 64 0x64)) =
        some (t, d, 0) ∧ d.cdirname.length = 65 ∧ ¬ CwdOk longName 1 t d) ∧
      fsysChdir longName start (fun i => 32 + i) ⟨Inode.zero, [0x2f]⟩
        (some (List.replicate 64 [0x61, 0x2f]).flatten) = none := by
  constructor
  · have moved : (fsysChdir longName start (fun i => 32 + i) ⟨Inode.zero, [0x2f]⟩
        (some (List.replicate 64 0x64))).map (fun x => (x.2.1.cdirname.length, x.2.2)) =
        some (65, 0) := by
      decide +kernel
    obtain ⟨⟨t, d, code⟩, ran, shape⟩ := Option.map_eq_some_iff.mp moved
    obtain ⟨long, rfl⟩ := Prod.mk.inj shape
    refine ⟨t, d, ran, long, ?_⟩
    rintro ⟨names, -, -, short, -⟩
    simp only [cwdMaxsiz] at short long
    omega
  · have overrun : (fsysChdir longName start (fun i => 32 + i) ⟨Inode.zero, [0x2f]⟩
        (some (List.replicate 64 [0x61, 0x2f]).flatten)).isNone = true := by
      decide +kernel
    exact Option.isNone_iff_eq_none.mp overrun

end Vfs
