import NoobOs.Fs.CallOutcomes

/-!
Every pointer that is called, in every state that the calls can lead to from boot.
-/
namespace FileCalls
open FileTable Runs Strings
open InodeCache (Inode)
open Vfs (Files InOrder content)

/-- The cache before the first system call: every fetch goes through `read_inode`. -/
def booting (v : Files) : Machine InodeCache.State InodeCache.Request where
  legal s r := Vfs.Allowed s r ∧ ∀ read sb ino new, r = .iget read sb ino new → read = v.read
  step := InodeCache.step v.sDev

section Runs
variable {v : Files} {k : Kernel} {x : Sys} {s t : InodeCache.State} {root : Nat}

theorem booting_kinds (source : ∀ sb, FromSource (v.read sb)) (order : InOrder v.sDev s)
    (kinds : ∀ p ∈ s.alive, Kind (s.cache.inode p)) {r : InodeCache.Request}
    (legal : (booting v).legal s r)
    (stepped : InodeCache.step v.sDev s r = some t) : ∀ p ∈ t.alive, Kind (t.cache.inode p) := by
  obtain ⟨allowed, through⟩ := legal
  cases r with
  | iget read sb ino new =>
    obtain rfl := through read sb ino new rfl
    cases sb with
    | none =>
      cases stepped
      exact kinds
    | some sb =>
      obtain ⟨u, p, taken, -, shape⟩ := Vfs.take_order order v.read sb ino allowed.1 allowed.2
      simp only [InodeCache.step, taken, Option.map_some, Option.some.injEq] at stepped
      subst stepped
      rcases shape with ⟨-, -, alive, bares⟩ | ⟨rfl, -, alive, mine, others⟩
      · intro q member
        exact (kinds q (alive ▸ member)).congr (bares q)
      · intro q member
        by_cases here : q = p
        · subst here
          exact (newNode_kind (source sb) ino).congr mine
        · rw [others q here]
          rw [alive, List.mem_cons] at member
          exact kinds q (member.resolve_left here)
  | iput p =>
    obtain ⟨u, dropped, -, alive, bares⟩ := Vfs.drop_order order allowed
    obtain rfl := Option.some.inj (dropped.symm.trans stepped)
    intro q member
    exact (kinds q (alive ▸ member)).congr (bares q)
  | imount p mnt =>
    cases stepped
    intro q member
    have kind := kinds q member
    by_cases here : q = p
    · subst here
      simpa [InodeCache.imount, InodeCache.Cache.setNode, Kind, DevDir, DevNode] using kind
    · simpa [InodeCache.imount, InodeCache.Cache.setNode, here] using kind
  | purgeLru =>
    obtain ⟨chains, idle, loose⟩ := order
    obtain ⟨c, ran, same, -⟩ := Vfs.purgeLru_loose loose
    simp only [InodeCache.step, ran, Option.bind_eq_bind, Option.bind_some, Option.pure_def,
      Option.some.injEq] at stepped
    subst stepped
    intro q member
    rw [same]
    exact kinds q (List.mem_of_mem_filter member)

theorem boot_inv (source : ∀ sb, FromSource (v.read sb))
    (reach : Reach (booting v) InodeCache.start s)
    (file : Nat → File) : Inv v ⟨s, FileTable.start file⟩ := by
  have kept : InOrder v.sDev s ∧ ∀ p ∈ s.alive, Kind (s.cache.inode p) := by
    refine reach_invariant (fun s => InOrder v.sDev s ∧ ∀ p ∈ s.alive, Kind (s.cache.inode p))
      ⟨Vfs.start_order v.sDev, by simp [InodeCache.start]⟩ ?_ reach
    intro s r t inv legal stepped
    obtain ⟨t', ran, order⟩ := Vfs.step_order inv.1 legal.1
    obtain rfl := Option.some.inj (ran.symm.trans stepped)
    exact ⟨order, booting_kinds source inv.1 inv.2 legal stepped⟩
  refine ⟨kept.1, ?_, ?_⟩
  · intro sb ino
    simp only [content, Vfs.fetch, Vfs.known]
    cases found : Vfs.find v.sDev s (some (v.sDev sb), ino) with
    | none => exact (newNode_kind (source sb) ino).congr rfl
    | some p => exact (kept.2 p ((Vfs.find_eq_some kept.1.unique).mp found).1).congr rfl
  · intro f held
    simp [FileTable.start] at held

theorem reach_inv (tame : Tame k) (distinct : Function.Injective v.sDev)
    (mounted : v.rootMnt.bind v.mntSb = some root)
    {x₀ : Sys} (initial : Inv v x₀) (reach : Reach (calls v (booted k)) x₀ x) : Inv v x := by
  refine reach_invariant (Inv v) initial ?_ reach
  intro x r y inv legal stepped
  have safe := exec_safe tame inv distinct mounted legal (Or.inr trivial : _ ∨ True)
  simp only [calls, Option.map_eq_some_iff] at stepped
  obtain ⟨⟨y', code⟩, ran, rfl⟩ := stepped
  cases result : exec v (booted k) x r with
  | error fault =>
    rw [result] at ran
    cases ran
  | ok z =>
    rw [result] at ran safe
    cases ran
    exact safe

end Runs

/-- From boot on, in every run of calls, every inode and open file is of a kind the source
    makes, and no further call that does not slip calls a null pointer or follows a null
    table; where its operation is missing, it gives an error code and leaves the state as it
    was, but for an `open` or a `close`, which goes on. -/
theorem indirect_calls_guarded (v : Files) (k : Kernel) (tame : Tame k)
    (source : ∀ sb, FromSource (v.read sb))
    (distinct : Function.Injective v.sDev) (root : Nat)
    (mounted : v.rootMnt.bind v.mntSb = some root)
    (s₀ : InodeCache.State) (boot : Reach (booting v) InodeCache.start s₀)
    (file : Nat → File) (x : Sys)
    (reach : Reach (calls v (booted k)) ⟨s₀, FileTable.start file⟩ x) :
    (∀ sb ino, Kind (content v x.cache sb ino)) ∧ Sound x.cache x.files ∧
      ∀ r, Supplied x r → ¬ Slips v (booted k) x r →
        exec v (booted k) x r ≠ .error .null ∧
          (Missing v (booted k) x r → Refused v x (exec v (booted k) x r)) ∧
          GoesOn v (booted k) x r := by
  have inv := reach_inv tame distinct mounted (boot_inv source boot file) reach
  refine ⟨inv.kinds, inv.sound, ?_⟩
  intro r supplied meets
  refine ⟨?_, exec_refused inv distinct mounted supplied meets,
    exec_goesOn inv distinct mounted supplied⟩
  intro null
  have safe := exec_safe tame inv distinct mounted supplied (Or.inl meets : _ ∨ False)
  rw [null] at safe
  exact safe

def bootFs : Files where
  sDev := fun sb => sb
  read := fun sb =>
    if sb = 2 then
      .dev ⟨⟨0o040766, 0, 0, 0, 0, 0, 0, 0, 1, some 2, some devOps, some devOps, none⟩, none,
        none, none, none⟩
        [some ⟨⟨0o020666, 0, 0, 1, 0, mkdev 1 1, 0, 0, 1, some 2, none, some devOps, none⟩, none,
          none, none, none⟩,
          some ⟨⟨0o060666, 0, 0, 4, 0, mkdev 8 0, 0, 0, 1, some 2, none, some devOps, none⟩, none,
          none, none, none⟩]
    else .ext2 fun ino => ⟨if ino = 13 then 0o100644 else 0o040755, 0, 0, 0,
      some ext2Ops, some ext2Ops⟩
  sRoot := fun sb => if sb = 2 then 0 else 2
  mntSb := fun m => some (m + 1)
  lookup := fun ops => some fun _ _ name =>
    if ops = ext2Ops ∧ name = [0x64, 0x65, 0x76] then 12
    else if ops = ext2Ops ∧ name = [0x66] then 13
    else if ops = devOps ∧ name = [0x6e, 0x75, 0x6c, 0x6c] then 1
    else if ops = devOps ∧ name = [0x73, 0x64, 0x61] then 4
    else Vfs.noIno
  rootMnt := some 0

def superuser : Kernel where
  iops := fun _ => ⟨none, none, none⟩
  fops := fun _ => ⟨none, none, none, none, none, none⟩
  inode := fun _ => Inode.zero
  chrdevTab := fun _ _ => none
  blkdev := fun _ => none
  cred := ⟨0, 0⟩
  sDev := fun sb => sb
  perform := fun _ s => (s, 0)

def bootFetched : InodeCache.State :=
  (InodeCache.step bootFs.sDev InodeCache.start (.iget bootFs.read (some 1) 12 16)).get
    (by decide +kernel)

def bootCache : InodeCache.State :=
  (InodeCache.step bootFs.sDev bootFetched (.imount 16 1)).get (by decide +kernel)

def bootSys : Sys := ⟨bootCache, FileTable.start fun _ => ⟨none, 0, 0, 0, 0, none⟩⟩

def slash : Str := [0x2f]
def devNull : Str := [0x2f, 0x64, 0x65, 0x76, 0x2f, 0x6e, 0x75, 0x6c, 0x6c]
def devSda : Str := [0x2f, 0x64, 0x65, 0x76, 0x2f, 0x73, 0x64, 0x61]

def opens (path : Str) : Req := .open' slash path 2 (fun i => 32 + i) 200

def nullOpened : Sys :=
  ((calls bootFs (booted superuser)).step bootSys (opens devNull)).get (by decide +kernel)
def sdaOpened : Sys :=
  ((calls bootFs (booted superuser)).step bootSys (opens devSda)).get (by decide +kernel)

theorem bootCache_reach : Reach (booting bootFs) InodeCache.start bootCache := by
  have fetch' : (booting bootFs).legal InodeCache.start (.iget bootFs.read (some 1) 12 16) := by
    refine ⟨⟨by simp [InodeCache.start], by decide, by decide⟩, ?_⟩
    intro read sb ino new same
    exact (InodeCache.Request.iget.inj same).1.symm
  have mount' : (booting bootFs).legal bootFetched (.imount 16 1) := by
    refine ⟨?_, by simp⟩
    change 16 ∈ bootFetched.alive
    decide +kernel
  exact ⟨[.iget bootFs.read (some 1) 12 16, .imount 16 1],
    .cons fetch' (Option.some_get _).symm (.cons mount' (Option.some_get _).symm (.nil _))⟩

theorem bootFs_source (sb : Nat) : FromSource (bootFs.read sb) := by
  unfold bootFs
  simp only
  split
  · refine ⟨⟨rfl, rfl, rfl, rfl⟩, ?_⟩
    intro e member
    simp only [List.mem_cons, List.not_mem_nil, or_false, Option.some.injEq] at member
    rcases member with rfl | rfl
    · exact ⟨Or.inl ⟨rfl, by decide⟩, rfl, rfl⟩
    · exact ⟨Or.inr ⟨rfl, rfl⟩, rfl, rfl⟩
  · exact fun _ => ⟨rfl, rfl⟩

theorem bootSys_supply {n : Nat} (small : n ≤ 100) :
    Vfs.Supply (fun i => 32 + i) bootSys.cache n := by
  have only : bootSys.cache.alive = [16] := by decide +kernel
  intro i less
  rw [only]
  simp only [List.mem_singleton, InodeCache.ilru]
  refine ⟨by omega, ⟨by omega, by omega⟩, by omega⟩

theorem opens_legal {path : Str} (short : path.length ≤ 9) :
    (calls bootFs (booted superuser)).legal bootSys (opens path) := by
  refine bootSys_supply ?_
  simp only [slash, List.length_cons, List.length_nil]
  omega

theorem nullOpened_reach : Reach (calls bootFs (booted superuser)) bootSys nullOpened :=
  ⟨[opens devNull], .cons (opens_legal (by decide)) (Option.some_get _).symm (.nil _)⟩

theorem nullOpened_lacks : LacksAt (booted superuser) nullOpened 0 FileOps.ioctl := by
  have held : slot nullOpened.files 0 = some (some 200) ∧
    (nullOpened.files.file 200).inode = some 35 ∧
      (nullOpened.files.file 200).fops = some devOps ∧
        (nullOpened.cache.cache.inode 35).mode = 0o020666 ∧
      (nullOpened.cache.cache.inode 35).rdev = mkdev 1 1 := by
    decide +kernel
  obtain ⟨here, inode, fops, mode, rdev⟩ := held
  refine ⟨200, 35, here, inode, ?_⟩
  intro t fn table pointer
  rw [fops] at table
  cases table
  rw [booted_devFops] at pointer
  cases pointer
  refine ⟨DevOps.ioctl, rfl, ?_⟩
  intro d device
  have null : getdev (booted superuser) (nullOpened.cache.cache.inode 35) = some nulldev := by
    simp [getdev, mode, rdev, booted, isBlk, mkdev, major, minor]
  cases null.symm.trans device
  rfl

theorem null_ioctl_refused : Missing bootFs (booted superuser) nullOpened (.ioctl 0 true) ∧
    Refused bootFs nullOpened (exec bootFs (booted superuser) nullOpened (.ioctl 0 true)) := by
  obtain ⟨-, -, guards⟩ :=
    indirect_calls_guarded bootFs superuser (fun _ s => Same.refl s) bootFs_source
    (fun _ _ same => same) 1 rfl bootCache bootCache_reach _ nullOpened nullOpened_reach
  obtain ⟨-, refused, -⟩ := guards (.ioctl 0 true) trivial id
  exact ⟨nullOpened_lacks, refused nullOpened_lacks⟩

theorem null_of_isNull {r : Except Fault (Sys × Int)} (null : (match r with
    | .error .null => true
    | _ => false) = true) : r = .error .null := by
  split at null
  · rfl
  · cases null

/-- A file without an `open` is opened; a write to `/dev/sda` calls its null `write`, and
    `creat` below `/dev/null` follows its null table. -/
theorem hooks_optional_and_null_called :
    ((∃ y, exec bootFs (booted superuser) bootSys (opens [0x2f, 0x66]) = .ok (y, 0) ∧
        (y.files.file 200).fops = some ext2Ops) ∧ ((booted superuser).fops ext2Ops).open' = none) ∧
      (Reach (calls bootFs (booted superuser)) bootSys sdaOpened ∧
        exec bootFs (booted superuser) sdaOpened (.write 0 1) = .error .null) ∧
      exec bootFs (booted superuser) bootSys
      (.creat slash (some (devNull ++ [0x2f, 0x78])) fun i => 32 + i) =
        .error .null := by
  refine ⟨⟨?_, by rw [booted_ext2Fops]; rfl⟩, ⟨?_, ?_⟩, ?_⟩
  · have ran : (exec bootFs (booted superuser) bootSys (opens [0x2f, 0x66])).toOption.map
        (fun r => (r.2, (r.1.files.file 200).fops)) = some (0, some ext2Ops) := by
      decide +kernel
    obtain ⟨⟨y, code⟩, result, shape⟩ := Option.map_eq_some_iff.mp ran
    simp only [Prod.mk.injEq] at shape
    cases found : exec bootFs (booted superuser) bootSys (opens [0x2f, 0x66]) with
    | error fault =>
      rw [found] at result
      cases result
    | ok r =>
      rw [found] at result
      cases result
      exact ⟨y, by rw [shape.1], shape.2⟩
  · exact ⟨[opens devSda], .cons (opens_legal (by decide)) (Option.some_get _).symm (.nil _)⟩
  · exact null_of_isNull (by decide +kernel)
  · exact null_of_isNull (by decide +kernel)

end FileCalls
