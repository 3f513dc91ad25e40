import NoobOs.Ext2.DirectoryScans
import NoobOs.Fs.IndirectCalls

/-!
The commands of `shell.c` that open files, `rm`, `touch`, `cd`, `cat`, `ls` and `stat`, with
`nlsdir` and `flstat` of `vfs.c`, over the system calls of the kernel. What they print is left
out, and so is the walk of `nlsdir` over the records, which calls nothing. `run` takes the scans
of directories for ones that end; whether they do is read off the blocks of the directories.
-/
namespace Shell
open FileTable FileCalls Strings
open InodeCache (Inode)
open Vfs (Files Cwd fsysChdir lookupVfs lookBs)

def oRdonly : Nat := 0
def oCreat : Nat := 0o100

/-- What a command finds around it: the addresses `malloc` returns for inodes and for the open
    file, the descriptor of the terminal, and the block size of each superblock. -/
structure Env where
  news : Nat → Nat
  new : Nat
  stdout : Int
  sBlocksize : Option Nat → Nat

/-- The ext2 volume behind the lookups: the disk, and the directory with a number on a
    superblock. -/
structure Volume (v : Files) where
  disk : ByteMemory.Mem
  directory : Option Nat → Nat → Ext2.Directory
  small : ∀ sb ino, (directory sb ino).sb.sBlocksize.toNat ≤ 2 ^ 31
  lookup : ∀ lookup, v.lookup ext2Ops = some lookup → ∀ sb ino name found,
    Ext2.ext2Lookup disk (directory sb ino) name = some found → lookup sb ino name = found

/-- `syscall` stores the code of an error in `errno`. -/
def returned (code : Int) : Int := if code < 0 then -1 else code

def withFile (x : Sys) (c : InodeCache.State) (p flags new : Nat) : Sys :=
  ⟨c,
    setSlot
    { setFile x.files new ⟨some p, (c.cache.inode p).mode, 0, 1, flags ||| fUsed,
    (c.cache.inode p).fops⟩ with
    alive := new :: x.files.alive } (findfreefd x.files) (some new)⟩

section Commands
variable (v : Files) (k : Kernel) (env : Env)

def syscall (x : Sys) (r : Req) : Except Fault (Sys × Int) := do
  let (y, code) ← exec v k x r
  return (y, returned code)

/-- A call on a descriptor. `u_ofile[-1]` is `cred.ngroups`, which is 0 in every process, so the
    calls find a null pointer there. -/
def onFd (x : Sys) (fd : Int) (r : Req) : Except Fault (Sys × Int) :=
  if fd = -1 then .ok (x, -1) else syscall v k x r

def read (x : Sys) (fd : Int) (count : Nat) : Except Fault (Sys × Int) :=
  if fd = -1 ∧ count = 0 then .ok (x, 0) else onFd v k x fd (.read fd count)

def write (x : Sys) (fd : Int) (count : Nat) : Except Fault (Sys × Int) :=
  if fd = -1 ∧ count = 0 then .ok (x, 0) else onFd v k x fd (.write fd count)

def openFile (x : Sys) (d : Cwd) (path : Str) (flags : Nat) : Except Fault (Sys × Int) :=
  syscall v k x (.open' d.cdirname path flags env.news env.new)

def close (x : Sys) (fd : Int) : Except Fault (Sys × Int) := onFd v k x fd (.close fd)

def cRm (x : Sys) (d : Cwd) : List Str → Except Fault (Sys × Int)
  | [] => .ok (x, 2)
  | path :: _ => do
    let (x, _) ← syscall v k x (.unlink d.cdirname (some path) env.news)
    return (x, 0)

def cTouch (x : Sys) (d : Cwd) : List Str → Except Fault (Sys × Int)
  | [] => .ok (x, 2)
  | path :: _ => do
    let (x, fd) ← openFile v k env x d path oCreat
    if fd = -1 then return (x, 1)
    let (x, _) ← close v k x fd
    return (x, 0)

def cCd (x : Sys) (d : Cwd) : List Str → Except Fault (Sys × Cwd × Int)
  | [] => .ok (x, d, 0)
  | path :: _ =>
    match fsysChdir v x.cache env.news d (some path) with
    | none => .error .outside
    | some (c, d, code) =>
      -- `strcpy` to `u_cdirname`
      if code = 0 ∧ Vfs.cwdMaxsiz ≤ d.cdirname.length then .error .outside
      else .ok ({ x with cache := c }, d, if returned code = 0 then 0 else 1)

def stBlksize (x : Sys) (fd : Int) : Nat :=
  match (slot x.files fd).join.bind fun f => (x.files.file f).inode with
  | none => 0
  | some a => env.sBlocksize (x.cache.cache.inode a).sb

/-- The loop of `printfile` and its exit code; `none` is a loop still running. -/
def catLoop (fd : Int) (count : Nat) : Nat → Sys → Except Fault (Option (Sys × Int))
  | 0, _ => .ok none
  | fuel + 1, x => do
    let (x, r) ← read v k x fd count
    if r > 0 then
      let (x, w) ← write v k x env.stdout r.toNat
      if w = -1 then return some (x, 1)
      catLoop fd count fuel x
    else return some (x, 0)

def printfile (fuel : Nat) (x : Sys) (d : Cwd) (path : Str) : Except Fault (Option (Sys × Int)) :=
  do
  let (x, fd) ← openFile v k env x d path oRdonly
  if fd = -1 then return some (x, 1)
  let _ ← fsysFstat (k.withCache x.cache) x.files fd
  match ← catLoop v k env fd (stBlksize env x fd) fuel x with
  | none => return none
  | some (x, code) =>
    let (x, _) ← close v k x fd
    return some (x, code)

/-- A failing `getdents` is returned from at once. -/
def nlsdir (x : Sys) (d : Cwd) (path : Str) : Except Fault (Sys × Int) := do
  let (x, fd) ← openFile v k env x d path oRdonly
  let (x, nread) ← onFd v k x fd (.getdents fd 1024)
  if nread = -1 then return (x, 2)
  let (x, _) ← close v k x fd
  return (x, 0)

def flstat (x : Sys) (d : Cwd) (path : Str) : Except Fault (Sys × Int) := do
  let (x, fd) ← openFile v k env x d path oRdonly
  if fd < 0 then return (x, 1)
  let _ ← fsysFstat (k.withCache x.cache) x.files fd
  let (x, _) ← close v k x fd
  return (x, 0)

inductive Command where
  | rm
  | touch
  | cd
  | cat
  | ls
  | stat
  deriving DecidableEq

abbrev Outcome := Except Fault (Option (Sys × Cwd × Int))

def inPlace (d : Cwd) (r : Except Fault (Sys × Int)) : Outcome := do
  let (x, code) ← r
  return some (x, d, code)

def run (fuel : Nat) (x : Sys) (d : Cwd) : Command → List Str → Outcome
  | .rm, args => inPlace d (cRm v k env x d args)
  | .touch, args => inPlace d (cTouch v k env x d args)
  | .cd, args => do
    let y ← cCd v env x d args
    return some y
  | .cat, [] => .ok (some (x, d, 2))
  | .cat, path :: _ => do
    let y ← printfile v k env fuel x d path
    return y.map fun (x, code) => (x, d, code)
  | .ls, [] => inPlace d (nlsdir v k env x d [0x2e])
  | .ls, path :: _ => inPlace d (nlsdir v k env x d path)
  | .stat, [] => .ok (some (x, d, 0))
  | .stat, path :: _ => inPlace d (flstat v k env x d path)

/-- All components that the walk of `lookup_vfs_i` looks up are `ok` in their directories. -/
def AlongWalk (ok : Inode → Str → Prop) (mdepth : Nat) :
    List Str → Nat → InodeCache.State → Nat → Prop
  | [], _, _, _ => True
  | tok :: toks, depth, s, p =>
    ok (s.cache.inode p) tok ∧
      ∀ s' q, Vfs.walkStep v s env.news (2 * depth + 1) p tok = some (s', some q) →
        depth + 1 ≠ mdepth → AlongWalk ok mdepth toks (depth + 1) s' q

def AlongPath (ok : Inode → Str → Prop) (s : InodeCache.State) (pth : Str) : Prop :=
  ∀ sb s' p, v.rootMnt.bind v.mntSb = some sb →
    InodeCache.take v.sDev s v.read (some sb) (v.sRoot sb) (env.news 0) = some (s', some p) →
    AlongWalk v env ok (pth.count 0x2f) (tokens [0x2f] pth) 0 s' p

/-- The path that a command walks down; `look_bs` cuts it behind the parent. -/
def walked (d : Cwd) : Command → List Str → Option Str
  | .rm, path :: _ => do
    let tmp ← (Vfs.pathCanon d.cdirname path).join
    if tmp = [0x2f] then return [0x2f]
    let (b, _) ← Vfs.getComps tmp
    return if b = [] then [0x2f] else b
  | .ls, args => (Vfs.pathCanon d.cdirname (args.headD [0x2e])).join
  | .touch, path :: _ | .cd, path :: _ | .cat, path :: _ | .stat, path :: _ =>
    (Vfs.pathCanon d.cdirname path).join
  | _, [] => none

/-- What holds of each directory that a command looks a name up in, and of the one `ls` opens. -/
structure Scanned (found : Inode → Str → Prop) (listed : Inode → Prop) (x : Sys) (d : Cwd)
    (command : Command) (args : List Str) : Prop where
  walk : ∀ pth, walked d command args = some pth → AlongPath v env found x.cache pth
  list : command = .ls → ∀ c p,
    lookupVfs v x.cache env.news d.cdirname (args.headD [0x2e]) = some (c, some p) →
    findfreefd x.files ≠ -1 → listed (c.cache.inode p)

/-- With its scans ended, the command returns with the descriptors as they were. -/
def Ends (x : Sys) (d : Cwd) (c : Command) (args : List Str) : Prop :=
  ∃ fuel y d' code, run v k env fuel x d c args = .ok (some (y, d', code)) ∧
    y.files.ofile = x.files.ofile

section Returning
variable (vol : Volume v)

/-- The scans of the directories end: `ext2_lookup` for each name, and `ext2_readdir`. -/
def Scans : Sys → Cwd → Command → List Str → Prop :=
  Scanned v env
    (fun n tok => Vfs.isDir n.mode → n.ops = some ext2Ops →
      Ext2.ext2Lookup vol.disk (vol.directory n.sb n.ino) tok ≠ none)
    (fun n => Vfs.isDir n.mode → n.fops = some ext2Ops →
      Ext2.ext2Readdir vol.disk (vol.directory n.sb n.ino) Ext2.zeroed 1024 ≠ none)

/-- The blocks of these directories: no entry of length 0 stands before the name that is looked
    for, or, not in use, before the first 1024 bytes that are listed. -/
def Sound : Sys → Cwd → Command → List Str → Prop :=
  Scanned v env
    (fun n tok => Vfs.isDir n.mode → n.ops = some ext2Ops →
      Ext2.Searchable vol.disk (vol.directory n.sb n.ino).sb tok (vol.directory n.sb n.ino).blocks)
    (fun n => Vfs.isDir n.mode → n.fops = some ext2Ops →
      Ext2.Listable vol.disk (vol.directory n.sb n.ino).sb 1024 (vol.directory n.sb n.ino).blocks 0)

theorem scans_iff_sound (x : Sys) (d : Cwd) (command : Command) (args : List Str) :
    Scans v env vol x d command args ↔ Sound v env vol x d command args := by
  have few : (1024 : UInt32).toNat ≤ 2 ^ 31 := by decide
  unfold Scans Sound
  simp only [Ext2.ext2Lookup_returns_iff _ (vol.small _ _),
    Ext2.ext2Readdir_returns_iff _ (vol.small _ _) few]
  rfl

/-- The command returns, its scans included, with the descriptors as they were. -/
def Restores (x : Sys) (d : Cwd) (c : Command) (args : List Str) : Prop :=
  Scans v env vol x d c args ∧ Ends v k env x d c args

theorem alongWalk_of_all {ok : Inode → Str → Prop} (all : ∀ n tok, ok n tok) (mdepth : Nat) :
    ∀ toks depth s p, AlongWalk v env ok mdepth toks depth s p
  | [], _, _, _ => trivial
  | _ :: toks, depth, _, _ =>
    ⟨all _ _, fun s' q _ _ => alongWalk_of_all all mdepth toks (depth + 1) s' q⟩

variable {v env vol}

theorem sound_of_wellFormed (vol : Volume v)
    (wellFormed : ∀ sb ino, ∃ es, Ext2.WellFormed vol.disk (vol.directory sb ino) es) (x : Sys)
    (d : Cwd) (command : Command) (args : List Str) : Sound v env vol x d command args := by
  rw [← scans_iff_sound]
  constructor
  · intro pth _ sb s' p _ _
    apply alongWalk_of_all
    intro n tok _ _
    obtain ⟨es, well⟩ := wellFormed n.sb n.ino
    rw [Ext2.ext2Lookup_eq well]
    exact Option.some_ne_none _
  · intro _ c p _ _ _ _
    obtain ⟨es, well⟩ := wellFormed (c.cache.inode p).sb (c.cache.inode p).ino
    obtain ⟨dirp, ran, -⟩ := Ext2.ext2Readdir_eq well Ext2.zeroed 1024
    rw [ran]
    exact Option.some_ne_none _

end Returning

/-! ## When they do -/

def Fits (d : Cwd) (path : Str) : Prop := Vfs.pathCanon d.cdirname path ≠ none

/-- The canonical form of a path that leads to a directory fits `u_cdirname`. -/
def Enterable (x : Sys) (d : Cwd) (path : Str) : Prop :=
  ∀ pth c p, Vfs.pathCanon d.cdirname path = some (some pth) →
    lookupVfs v x.cache env.news d.cdirname path = some (c, some p) →
      Vfs.isDir (c.cache.inode p).mode →
      pth.length < Vfs.cwdMaxsiz

/-- If the path leads to an inode and a descriptor is free for it, it is a directory of ext2. -/
def Listable (x : Sys) (d : Cwd) (path : Str) : Prop :=
  ∀ c p, lookupVfs v x.cache env.news d.cdirname path = some (c, some p) → findfreefd x.files ≠ -1 →
    Vfs.isDir (c.cache.inode p).mode ∧ (c.cache.inode p).fops = some ext2Ops

/-- Finitely many reads come to the end of the file or to a write that the terminal refuses. -/
inductive Drains (fd : Int) (count : Nat) : Sys → Prop
  | last {x y : Sys} {r : Int} (got : read v k x fd count = .ok (y, r)) (end' : r ≤ 0) :
  Drains fd count x
  | refused {x y z : Sys} {r : Int} (got : read v k x fd count = .ok (y, r)) (some' : 0 < r)
      (put : write v k y env.stdout r.toNat = .ok (z, -1)) : Drains fd count x
  | more {x y z : Sys} {r w : Int} (got : read v k x fd count = .ok (y, r)) (some' : 0 < r)
      (put : write v k y env.stdout r.toNat = .ok (z, w)) (taken : w ≠ -1)
        (rest : Drains fd count z) : Drains fd count x

/-- If the path leads to an inode and a descriptor is free for it, the new file drains. -/
def Readable (x : Sys) (d : Cwd) (path : Str) : Prop :=
  ∀ c p, lookupVfs v x.cache env.news d.cdirname path = some (c, some p) → findfreefd x.files ≠ -1 →
    let y := withFile x c p oRdonly env.new
    let fd := findfreefd x.files
    Drains v k env fd (stBlksize env y fd) y

def Tidy (x : Sys) (d : Cwd) : Command → List Str → Prop
  | .rm, path :: _ => Fits d path ∧ ¬ Slips v k x (.unlink d.cdirname (some path) env.news)
  | .cd, path :: _ => Fits d path ∧ Enterable v env x d path
  | .cat, path :: _ => Fits d path ∧ Readable v k env x d path
  | .ls, args => Fits d (args.headD [0x2e]) ∧ Listable v env x d (args.headD [0x2e])
  | .touch, path :: _ | .stat, path :: _ => Fits d path
  | _, [] => True

end Commands

/-! ## One call -/

/-- The functions behind the pointers move file positions at most, and where `ext2_readdir`
    returns, it is a number of bytes. -/
structure Behaved (k : Kernel) : Prop where
  tame : Tame k
  readdir : ∀ s, 0 ≤ (k.perform .ext2Readdir s).2

/-- A slot is empty or has a file in use. -/
structure Slots (s : State) : Prop where
  size : s.ofile.length = nofile
  used : ∀ o ∈ s.ofile, inUse s o = o.isSome

structure Ready (v : Files) (root : Nat) (x : Sys) : Prop where
  inv : FileCalls.Inv v x
  table : Slots x.files
  distinct : Function.Injective v.sDev
  mounted : v.rootMnt.bind v.mntSb = some root

section Calls
variable {v : Files} {k : Kernel} {env : Env} {x y : Sys} {d : Cwd} {c : InodeCache.State}
  {n : Inode} {root : Nat}
  {path : Str} {fd : Int}

theorem returned_negative {code : Int} : returned code = -1 ↔ code < 0 := by
  unfold returned
  split <;> omega

theorem returned_same {code : Int} (positive : 0 ≤ code) : returned code = code := by
  rw [returned, if_neg (by omega)]

theorem syscall_ok {r : Req} {code : Int} (ran : exec v k x r = .ok (y, code)) :
    syscall v k x r = .ok (y, returned code) := by
  simp only [syscall, ran]
  rfl

theorem syscall_error {r : Req} {fault : Fault} (ran : exec v k x r = .error fault) :
    syscall v k x r = .error fault := by
  simp only [syscall, ran]
  rfl

theorem onFd_inside (inside : fd ≠ -1) (r : Req) : onFd v k x fd r = syscall v k x r := by
  rw [onFd, if_neg inside]

theorem getdev_no_open {dev : DevOps} (found : getdev (booted k) n = some dev) :
    dev.open' = none := by
  simp only [getdev, booted] at found
  split at found
  · split at found
    · cases found
      rfl
    · cases found
  · split at found
    · cases found
      rfl
    · split at found
      · cases found
        rfl
      · cases found

theorem lacks_open (kind : Kind n) : Lacks (booted k) n n.fops FileOps.open' := by
  intro t fn table pointer
  rcases kind.fops with none' | here | here
  · cases none'.symm.trans table
  · cases here.symm.trans table
    rw [booted_ext2Fops] at pointer
    cases pointer
  · cases here.symm.trans table
    rw [booted_devFops] at pointer
    cases pointer
    exact ⟨DevOps.open', rfl, fun dev => getdev_no_open⟩

theorem open_overruns (overrun : ¬ Fits d path) (flags : Nat) (valid : flags &&& 3 ≠ 3) :
    openFile v (booted k) env x d path flags = .error .outside := by
  have canon : Vfs.pathCanon d.cdirname path = none := by simpa [Fits] using overrun
  apply syscall_error
  simp [exec, openPath, valid, lookupVfs, canon]

theorem open_cases (behaved : Behaved k) (ready : Ready v root x)
    (supply : Vfs.Supply env.news x.cache (2 * (path.length + d.cdirname.length) + 10))
    (fits : Fits d path) (flags : Nat)
    (valid : flags &&& 3 ≠ 3) :
    (∃ y, openFile v (booted k) env x d path flags = .ok (y, -1) ∧ y.files.ofile = x.files.ofile ∧
      ∀ c p, lookupVfs v x.cache env.news d.cdirname path = some (c, some p) →
      findfreefd x.files = -1) ∨
    ∃ c p, lookupVfs v x.cache env.news d.cdirname path = some (c, some p) ∧
    findfreefd x.files ≠ -1 ∧
      Kind (c.cache.inode p) ∧ FileCalls.Inv v (withFile x c p flags env.new) ∧
      openFile v (booted k) env x d path flags = .ok
      (withFile x c p flags env.new, findfreefd x.files) := by
  obtain ⟨inv, table, distinct, mounted⟩ := ready
  have safe : Safe False v (exec v (booted k) x (.open' d.cdirname path flags env.news env.new)) :=
    exec_safe behaved.tame inv distinct mounted supply (Or.inl id)
  obtain ⟨c, found, looked, grown, member⟩ :=
    lookupVfs_returns distinct inv.order mounted supply fits
  cases found with
  | none =>
    have ran : exec v (booted k) x (.open' d.cdirname path flags env.news env.new) =
        .ok (⟨c, x.files⟩, eNoent) := by
      simp [exec, openPath, valid, looked]
    refine Or.inl ⟨⟨c, x.files⟩, syscall_ok ran, rfl, ?_⟩
    intro c' p same
    rw [looked] at same
    cases same
  | some p =>
    have inv' := inv.next grown (inv.sound.grown grown)
    have kind := kind_of_alive inv'.order inv'.kinds (member p rfl)
    by_cases full : findfreefd x.files = -1
    · -- the reference of the inode goes
      have logged : Logged c x.files { x.files with log := x.files.log ++ [.iput p] } := by
        refine ⟨[.iput p], rfl, ?_⟩
        intro e given
        exact Or.inl ⟨p, member p rfl, List.mem_singleton.mp given⟩
      obtain ⟨c', settled, -⟩ := onTable_eq (k := booted k) grown.order logged eNfile
      have ran : exec v (booted k) x (.open' d.cdirname path flags env.news env.new) =
          .ok (⟨c', { x.files with log := x.files.log ++ [.iput p] }⟩, eNfile) := by
        simp only [exec, openPath, if_neg valid, looked, full, if_true, fsysOpen, bind, Except.bind]
        exact settled
      exact Or.inl ⟨_, syscall_ok ran, rfl, fun _ _ _ => full⟩
    · have ran : exec v (booted k) x (.open' d.cdirname path flags env.news env.new) =
          .ok (withFile x c p flags env.new, findfreefd x.files) := by
        simp only [exec, openPath, if_neg valid, looked, if_neg full,
          openHook_lacks kind (lacks_open kind), fsysOpen, bind, Except.bind]
        simp [onTable, settle, setSlot, setFile, withFile]
      have free : 0 ≤ findfreefd x.files := by
        rcases findfreefd_first table.used with ⟨none', -⟩ | ⟨i, -, here, -⟩
        · exact absurd none' full
        · omega
      rw [ran] at safe
      have done := syscall_ok ran
      rw [returned_same free] at done
      exact Or.inr ⟨c, p, looked, full, kind, safe, done⟩

section Opened
variable (table : Slots x.files) (free : findfreefd x.files ≠ -1) (c : InodeCache.State)
  (p flags new : Nat)
include table free

theorem free_slot : InTable (findfreefd x.files) ∧ x.files.ofile[(findfreefd x.files).toNat]? =
    some none := by
  rcases findfreefd_first table.used with ⟨full, -⟩ | ⟨i, bound, here, empty, -⟩
  · exact absurd full free
  · have size := table.size
    rw [here]
    refine ⟨⟨by omega, by omega⟩, ?_⟩
    rw [Int.toNat_natCast, List.getElem?_eq_getElem bound, empty]

theorem withFile_slot : slot (withFile x c p flags new).files (findfreefd x.files) = some
    (some new) := by
  obtain ⟨inside, empty⟩ := free_slot table free
  obtain ⟨bound, -⟩ := List.getElem?_eq_some_iff.mp empty
  rw [slot, if_pos inside.1]
  exact List.getElem?_set_self bound

theorem withFile_cleared :
    (withFile x c p flags new).files.ofile.set (findfreefd x.files).toNat none = x.files.ofile := by
  obtain ⟨-, empty⟩ := free_slot table free
  obtain ⟨bound, here⟩ := List.getElem?_eq_some_iff.mp empty
  rw [withFile, setSlot, List.set_set]
  conv_rhs => rw [← List.set_getElem_self bound]
  rw [here]
  rfl

theorem withFile_changes : (withFile x c p flags new).files.ofile ≠ x.files.ofile := by
  intro same
  have held := withFile_slot table free c p flags new
  obtain ⟨inside, empty⟩ := free_slot table free
  rw [slot, if_pos inside.1, same, empty] at held
  cases held

end Opened

theorem close_clears (inv : FileCalls.Inv v y) (inside : InTable fd) {f : Nat}
    (held : slot y.files fd = some (some f)) :
    ∃ z, close v (booted k) y fd = .ok (z, 0) ∧
    z.files.ofile = y.files.ofile.set fd.toNat none := by
  obtain ⟨t, closed, cleared⟩ := fsysClose_held (hooks (booted k)) inside held
  obtain ⟨c, settled, -⟩ :=
    onTable_eq (k := booted k) inv.order (fsysClose_within inv.sound closed).2 0
  have ran : exec v (booted k) y (.close fd) = .ok (⟨c, t⟩, 0) := by
    simp only [exec, closed]
    exact settled
  refine ⟨⟨c, t⟩, ?_, cleared⟩
  have low := inside.1
  rw [close, onFd_inside (by omega)]
  exact syscall_ok ran

/-! ## Reads and writes -/

/-- The call moves file positions at most. -/
structure Kept (x y : Sys) : Prop where
  cache : y.cache = x.cache
  files : Same y.files x.files

theorem Kept.refl (x : Sys) : Kept x x := ⟨rfl, Same.refl x.files⟩

theorem Kept.trans {z : Sys} (first : Kept x y) (second : Kept y z) : Kept x z := by
  obtain ⟨cache, ofile, alive, log, inode, fops⟩ := first
  obtain ⟨cache', ofile', alive', log', inode', fops'⟩ := second
  exact ⟨cache'.trans cache, ofile'.trans ofile, alive'.trans alive, log'.trans log,
    fun g => (inode' g).trans (inode g), fun g => (fops' g).trans (fops g)⟩

theorem Kept.inv (kept : Kept x y) (inv : FileCalls.Inv v x) : FileCalls.Inv v y := by
  obtain ⟨c, s⟩ := y
  obtain ⟨rfl, same⟩ := kept
  exact inv.next (Grown.refl inv.order) (inv.sound.within same.within)

theorem syscall_kept {r : Req} {t : Except Fault (State × Int)} {code : Int}
    (called : exec v k x r = onFile x t)
    (fine : Fine True x.files t) (ran : syscall v k x r = .ok (y, code)) : Kept x y := by
  cases t with
  | error fault =>
    rw [syscall_error called] at ran
    cases ran
  | ok u =>
    rw [syscall_ok called] at ran
    cases ran
    exact ⟨rfl, fine⟩

theorem onFd_kept {r : Req} {code : Int} (kept : ∀ code, syscall v k x r = .ok (y, code) → Kept x y)
    (ran : onFd v k x fd r = .ok (y, code)) : Kept x y := by
  unfold onFd at ran
  split at ran
  · cases ran
    exact Kept.refl x
  · exact kept code ran

theorem read_kept (behaved : Behaved k) (inv : FileCalls.Inv v x) {count : Nat} {r : Int}
    (ran : read v (booted k) x fd count = .ok (y, r)) : Kept x y := by
  unfold read at ran
  split at ran
  · cases ran
    exact Kept.refl x
  · apply onFd_kept (fun code => syscall_kept rfl ?_) ran
    exact transfer_cases (fun _ _ => Same.refl x.files) (fun _ => trivial)
      (fun _ => Same.refl x.files)
      (descriptor_fine behaved.tame inv (by decide) (by decide))

theorem write_kept (behaved : Behaved k) (inv : FileCalls.Inv v x) {count : Nat} {w : Int}
    (ran : write v (booted k) x fd count = .ok (y, w)) : Kept x y := by
  unfold write at ran
  split at ran
  · cases ran
    exact Kept.refl x
  · have meets : ¬ Slips v (booted k) x (.write fd count) ∨ True := Or.inr trivial
    apply onFd_kept (fun code => syscall_kept rfl ?_) ran
    exact transfer_cases (fun _ _ => Same.refl x.files) (fun _ => trivial)
      (fun _ => Same.refl x.files)
      (write_fine behaved.tame inv meets)

/-! The loop of `cat`. -/

section Loop
variable {z : Sys} {count fuel : Nat} {code : Int}

theorem catLoop_turn (ran : catLoop v k env fd count (fuel + 1) x = .ok (some (z, code))) :
    ∃ y r, read v k x fd count = .ok (y, r) ∧ ((r ≤ 0 ∧ z = y) ∨ (0 < r ∧
      ∃ u w, write v k y env.stdout r.toNat = .ok (u, w) ∧
        ((w = -1 ∧ z = u) ∨ (w ≠ -1 ∧
        catLoop v k env fd count fuel u = .ok (some (z, code)))))) := by
  simp only [catLoop] at ran
  cases got : read v k x fd count with
  | error fault =>
    rw [got] at ran
    cases ran
  | ok y =>
    obtain ⟨y, r⟩ := y
    refine ⟨y, r, rfl, ?_⟩
    simp only [got, bind, Except.bind] at ran
    split at ran
    · next some' =>
      refine Or.inr ⟨some', ?_⟩
      cases put : write v k y env.stdout r.toNat with
      | error fault =>
        rw [put] at ran
        cases ran
      | ok u =>
        obtain ⟨u, w⟩ := u
        refine ⟨u, w, rfl, ?_⟩
        simp only [put] at ran
        split at ran
        · next refused =>
          cases ran
          exact Or.inl ⟨refused, rfl⟩
        · next taken => exact Or.inr ⟨taken, ran⟩
    · next end' =>
      cases ran
      exact Or.inl ⟨by omega, rfl⟩

theorem drains_of_catLoop (ran : catLoop v k env fd count fuel x = .ok (some (z, code))) :
    Drains v k env fd count x := by
  induction fuel generalizing x with
  | zero => cases ran
  | succ fuel ih =>
    obtain ⟨y, r, got, ⟨end', -⟩ | ⟨some', u, w, put, ⟨rfl, -⟩ | ⟨taken, rest⟩⟩⟩ := catLoop_turn ran
    · exact .last got end'
    · exact .refused got some' put
    · exact .more got some' put taken (ih rest)

theorem catLoop_of_drains (drains : Drains v k env fd count x) :
    ∃ fuel z code, catLoop v k env fd count fuel x = .ok (some (z, code)) := by
  induction drains with
  | @last x y r got end' =>
    refine ⟨1, y, 0, ?_⟩
    simp only [catLoop, got, bind, Except.bind, gt_iff_lt, if_neg (Int.not_lt.mpr end')]
    rfl
  | @refused x y z r got some' put =>
    refine ⟨1, z, 1, ?_⟩
    simp only [catLoop, got, bind, Except.bind, gt_iff_lt, if_pos some', put, if_true]
    rfl
  | more got some' put taken _ ih =>
    obtain ⟨fuel, z, code, ran⟩ := ih
    refine ⟨fuel + 1, z, code, ?_⟩
    simp only [catLoop, got, bind, Except.bind, gt_iff_lt, if_pos some', put, if_neg taken]
    exact ran

theorem catLoop_kept (behaved : Behaved k) (inv : FileCalls.Inv v x)
    (ran : catLoop v (booted k) env fd count fuel x = .ok (some (z, code))) : Kept x z := by
  induction fuel generalizing x with
  | zero => cases ran
  | succ fuel ih =>
    obtain ⟨y, r, got, turn⟩ := catLoop_turn ran
    have kept := read_kept behaved inv got
    obtain ⟨-, rfl⟩ | ⟨-, u, w, put, last⟩ := turn
    · exact kept
    · have kept' := kept.trans (write_kept behaved (kept.inv inv) put)
      obtain ⟨-, rfl⟩ | ⟨-, rest⟩ := last
      · exact kept'
      · exact kept'.trans (ih (kept'.inv inv) rest)

end Loop

theorem close_restores (table : Slots x.files) (free : findfreefd x.files ≠ -1) {p flags new : Nat}
    (inv : FileCalls.Inv v y) (same : y.files.ofile = (withFile x c p flags new).files.ofile) :
    ∃ z, close v (booted k) y (findfreefd x.files) = .ok (z, 0) ∧
    z.files.ofile = x.files.ofile := by
  have held : slot y.files (findfreefd x.files) = some (some new) := by
    rw [← withFile_slot table free c p flags new, slot, slot, same]
  obtain ⟨z, closed, cleared⟩ := close_clears (k := k) inv (free_slot table free).1 held
  exact ⟨z, closed, by rw [cleared, same, withFile_cleared table free]⟩

/-! ## The commands -/

theorem fstat_returns (k : Kernel) {o : Option Nat} (held : slot x.files fd = some o) :
    ∃ stat, fsysFstat (k.withCache x.cache) x.files fd = .ok stat := by
  unfold fsysFstat
  split
  · exact ⟨_, rfl⟩
  · rw [held]
    simp only [inside, bind, Except.bind]
    split
    · exact ⟨_, rfl⟩
    · exact ⟨_, rfl⟩

section Listing
variable (behaved : Behaved k) (table : Slots x.files)
  (free : findfreefd x.files ≠ -1) (p new : Nat)
include table free

theorem getdents_opened : fsysGetdents ((booted k).withCache c) (withFile x c p oRdonly new).files
    (findfreefd x.files) 1024 =
    if Vfs.isDir (c.cache.inode p).mode then
      guarded ((booted k).withCache c) (withFile x c p oRdonly new).files (c.cache.inode p)
      (c.cache.inode p).fops
        FileOps.readdir
    else .ok ((withFile x c p oRdonly new).files, eNotdir) := by
  have held := withFile_slot table free c p oRdonly new
  have below : ¬ (nofile : Int) < findfreefd x.files := by
    have := (free_slot table free).1.2
    omega
  have file : (withFile x c p oRdonly new).files.file new =
      ⟨some p, (c.cache.inode p).mode, 0, 1, oRdonly ||| fUsed, (c.cache.inode p).fops⟩ := by
    simp [withFile, setSlot, setFile]
  have used : ¬ (oRdonly ||| fUsed) &&& fUsed = 0 := by decide
  have checked : checkFd (withFile x c p oRdonly new).files (findfreefd x.files) =
      some (0, some new) := by
    simp [checkFd, below, held, file, used]
  have found : opened ((booted k).withCache c) (withFile x c p oRdonly new).files (some new) =
      .ok ((withFile x c p oRdonly new).files.file new, c.cache.inode p) := by
    simp [opened, file, used, Kernel.withCache]
  simp only [fsysGetdents, checked, inside, bind, Except.bind, found, file]
  cases Vfs.isDir (c.cache.inode p).mode
  · rfl
  · rfl

include behaved

theorem getdents_codes (kind : Kind (c.cache.inode p)) :
    ∃ t code, fsysGetdents ((booted k).withCache c) (withFile x c p oRdonly new).files
    (findfreefd x.files) 1024 =
        .ok (t, code) ∧ Same t (withFile x c p oRdonly new).files ∧
      (0 ≤ code ↔ Vfs.isDir (c.cache.inode p).mode ∧ (c.cache.inode p).fops = some ext2Ops) := by
  rw [getdents_opened table free]
  generalize (withFile x c p oRdonly new).files = s
  by_cases directory : Vfs.isDir (c.cache.inode p).mode
  · simp only [directory, if_true, true_and]
    rcases kind.fops with none' | here | here
    · refine ⟨s, eNosys, ?_, Same.refl s, ?_⟩
      · rw [none']
        rfl
      · simp [none', eNosys]
    · refine ⟨(k.perform .ext2Readdir s).1, (k.perform .ext2Readdir s).2, ?_, behaved.tame _ s, ?_⟩
      · simp only [here, guarded, Kernel.withCache, booted_ext2Fops, ext2Fops]
        rfl
      · simp [here, behaved.readdir]
    · refine ⟨s, eNosys, ?_, Same.refl s, ?_⟩
      · simp [here, guarded, Kernel.withCache, devFops]
      · simp [here, eNosys, devOps, ext2Ops]
  · simp only [directory]
    exact ⟨s, eNotdir, rfl, Same.refl s, by simp [eNotdir]⟩

theorem getdents_fails (kind : Kind (c.cache.inode p)) :
    ∃ z code, onFd v (booted k) (withFile x c p oRdonly new) (findfreefd x.files)
    (.getdents (findfreefd x.files) 1024) =
        .ok (z, code) ∧ Kept (withFile x c p oRdonly new) z ∧
      (code ≠ -1 ↔ Vfs.isDir (c.cache.inode p).mode ∧ (c.cache.inode p).fops = some ext2Ops) := by
  obtain ⟨t, code, listed, same, success⟩ := getdents_codes behaved table free p new kind
  refine ⟨⟨c, t⟩, returned code, ?_, ⟨rfl, same⟩, ?_⟩
  · rw [onFd_inside free]
    apply syscall_ok
    simp only [exec, onFile, withFile] at listed ⊢
    rw [listed]
    rfl
  · rw [← success, ne_eq, returned_negative, Int.not_lt]

end Listing

section Paths
variable (behaved : Behaved k) (ready : Ready v root x)
  (supply : Vfs.Supply env.news x.cache (2 * (path.length + d.cdirname.length) + 10))
include behaved ready supply

theorem touch_restores (rest : List Str) :
    (∃ y code, cTouch v (booted k) env x d (path :: rest) = .ok (y, code) ∧
    y.files.ofile = x.files.ofile) ↔
      Fits d path := by
  simp only [cTouch]
  by_cases fits : Fits d path
  · refine iff_of_true ?_ fits
    rcases open_cases behaved ready supply fits oCreat (by decide) with
      ⟨y, ran, same, -⟩ | ⟨c, p, -, free, -, inv, ran⟩
    · refine ⟨y, 1, ?_, same⟩
      rw [ran]
      rfl
    · obtain ⟨z, closed, same⟩ := close_restores (k := k) ready.table free inv rfl
      refine ⟨z, 0, ?_, same⟩
      simp only [ran, bind, Except.bind, if_neg free, closed]
      rfl
  · refine iff_of_false ?_ fits
    simp [open_overruns fits oCreat (by decide), bind, Except.bind]

theorem flstat_restores :
    (∃ y code, flstat v (booted k) env x d path = .ok (y, code) ∧ y.files.ofile = x.files.ofile) ↔
    Fits d path := by
  unfold flstat
  by_cases fits : Fits d path
  · refine iff_of_true ?_ fits
    rcases open_cases behaved ready supply fits oRdonly (by decide) with
      ⟨y, ran, same, -⟩ | ⟨c, p, -, free, -, inv, ran⟩
    · refine ⟨y, 1, ?_, same⟩
      rw [ran]
      rfl
    · obtain ⟨stat, stated⟩ :=
        fstat_returns (booted k) (withFile_slot ready.table free c p oRdonly env.new)
      obtain ⟨z, closed, same⟩ := close_restores (k := k) ready.table free inv rfl
      have low := (free_slot ready.table free).1.1
      refine ⟨z, 0, ?_, same⟩
      simp only [ran, bind, Except.bind, if_neg (Int.not_lt.mpr low), stated, closed]
      rfl
  · refine iff_of_false ?_ fits
    simp [open_overruns fits oRdonly (by decide), bind, Except.bind]

theorem nlsdir_restores :
    (∃ y code, nlsdir v (booted k) env x d path = .ok (y, code) ∧ y.files.ofile = x.files.ofile) ↔
    Fits d path ∧ Listable v env x d path := by
  unfold nlsdir
  by_cases fits : Fits d path
  · rw [and_iff_right fits]
    rcases open_cases behaved ready supply fits oRdonly (by decide) with
      ⟨y, ran, same, full⟩ | ⟨c, p, looked, free, kind, inv, ran⟩
    · refine iff_of_true ⟨y, 2, ?_, same⟩ (fun c p looked free => absurd (full c p looked) free)
      rw [ran]
      rfl
    · obtain ⟨z, code, listed, kept, success⟩ :=
        getdents_fails (v := v) behaved ready.table free p env.new kind
      simp only [ran, bind, Except.bind, listed]
      by_cases failed : code = -1
      · -- the early return leaves the file in its slot
        rw [if_pos failed]
        apply iff_of_false
        · rintro ⟨y, r, same, restored⟩
          cases same
          exact withFile_changes ready.table free c p oRdonly env.new
            (kept.files.ofile.symm.trans restored)
        · intro listable
          exact success.mpr (listable c p looked free) failed
      · obtain ⟨w, closed, same⟩ :=
          close_restores (k := k) ready.table free (kept.inv inv) kept.files.ofile
        rw [if_neg failed]
        refine iff_of_true ⟨w, 0, ?_, same⟩ ?_
        · rw [closed]
          rfl
        · intro c' p' looked' _
          cases looked.symm.trans looked'
          exact success.mp failed
  · refine iff_of_false ?_ (fun both => fits both.1)
    simp [open_overruns fits oRdonly (by decide), bind, Except.bind]

theorem printfile_restores :
    (∃ fuel y code, printfile v (booted k) env fuel x d path = .ok (some (y, code)) ∧
    y.files.ofile = x.files.ofile) ↔
      Fits d path ∧ Readable v (booted k) env x d path := by
  unfold printfile
  by_cases fits : Fits d path
  · rw [and_iff_right fits]
    rcases open_cases behaved ready supply fits oRdonly (by decide) with
      ⟨y, ran, same, full⟩ | ⟨c, p, looked, free, -, inv, ran⟩
    · refine iff_of_true ⟨0, y, 1, ?_, same⟩ (fun c p looked free => absurd (full c p looked) free)
      rw [ran]
      rfl
    · obtain ⟨stat, stated⟩ :=
        fstat_returns (booted k) (withFile_slot ready.table free c p oRdonly env.new)
      simp only [ran, bind, Except.bind, if_neg free, stated]
      constructor
      · rintro ⟨fuel, y, code, returned, -⟩ c' p' looked' _
        cases looked.symm.trans looked'
        split at returned
        · cases returned
        · next ended =>
          split at returned
          · cases returned
          · exact drains_of_catLoop ended
      · intro readable
        obtain ⟨fuel, z, code, ended⟩ := catLoop_of_drains (readable c p looked free)
        have kept := catLoop_kept behaved inv ended
        obtain ⟨w, closed, same⟩ :=
          close_restores (k := k) ready.table free (kept.inv inv) kept.files.ofile
        refine ⟨fuel, w, code, ?_, same⟩
        simp only [ended, closed]
        rfl
  · refine iff_of_false ?_ (fun both => fits both.1)
    simp [open_overruns fits oRdonly (by decide), bind, Except.bind]

end Paths

section Directories
variable (ready : Ready v root x)
  (supply : Vfs.Supply env.news x.cache (2 * (path.length + d.cdirname.length) + 10))
  (rest : List Str)
include ready supply

theorem chdir_cases (fits : Fits d path) :
    (∃ c code, fsysChdir v x.cache env.news d (some path) = some (c, d, code) ∧ code ≠ 0 ∧
      ∀ c p, lookupVfs v x.cache env.news d.cdirname path = some (c, some p) →
      ¬ Vfs.isDir (c.cache.inode p).mode) ∨
    ∃ pth c p e, Vfs.pathCanon d.cdirname path = some (some pth) ∧
      lookupVfs v x.cache env.news d.cdirname path = some (c, some p) ∧
      Vfs.isDir (c.cache.inode p).mode ∧
      fsysChdir v x.cache env.news d (some path) = some (e, ⟨c.cache.inode p, pth⟩, 0) := by
  obtain ⟨c, found, looked, grown, member⟩ :=
    lookupVfs_returns ready.distinct ready.inv.order ready.mounted supply fits
  obtain ⟨r, canon⟩ := Option.ne_none_iff_exists'.mp fits
  obtain ⟨names, -, rfl, -⟩ := Vfs.pathCanon_stack canon
  have walked := (Vfs.lookupVfs_eq canon).symm.trans looked
  cases found with
  | none =>
    refine Or.inl ⟨c, Vfs.eNoent, ?_, by decide, ?_⟩
    · simp [fsysChdir, canon, walked]
    · intro c' p same
      cases looked.symm.trans same
  | some p =>
    by_cases directory : Vfs.isDir (c.cache.inode p).mode
    · obtain ⟨e, dropped, -⟩ := drop_grown grown.order (member p rfl)
      refine Or.inr ⟨Vfs.canonPath names, c, p, e, canon, looked, directory, ?_⟩
      simp [fsysChdir, canon, walked, directory, dropped]
    · refine Or.inl ⟨c, Vfs.eNotdir, ?_, by decide, ?_⟩
      · simp [fsysChdir, canon, walked, directory]
      · intro c' p' same
        cases looked.symm.trans same
        exact directory

theorem cd_restores : (∃ y d' code, cCd v env x d (path :: rest) = .ok (y, d', code) ∧
    y.files.ofile = x.files.ofile) ↔
    Fits d path ∧ Enterable v env x d path := by
  simp only [cCd]
  by_cases fits : Fits d path
  · rcases chdir_cases ready supply fits with ⟨c, code, ran, failed, nowhere⟩
      | ⟨pth, c, p, e, canon, looked, directory, ran⟩
    · simp only [ran, failed, false_and, if_false]
      refine iff_of_true ⟨_, _, _, rfl, rfl⟩ ⟨fits, ?_⟩
      intro pth c p _ looked directory
      exact absurd directory (nowhere c p looked)
    · simp only [ran, true_and]
      by_cases long : Vfs.cwdMaxsiz ≤ pth.length
      · rw [if_pos long]
        refine iff_of_false (by simp) ?_
        rintro ⟨-, enterable⟩
        have := enterable pth c p canon looked directory
        omega
      · rw [if_neg long]
        refine iff_of_true ⟨_, _, _, rfl, rfl⟩ ⟨fits, ?_⟩
        intro pth' c' p' canon' _ _
        cases canon.symm.trans canon'
        omega
  · have canon : Vfs.pathCanon d.cdirname path = none := by simpa [Fits] using fits
    refine iff_of_false ?_ (fun both => fits both.1)
    simp [fsysChdir, canon]

theorem rm_restores : (∃ y code, cRm v (booted k) env x d (path :: rest) = .ok (y, code) ∧
    y.files.ofile = x.files.ofile) ↔
    Fits d path ∧ ¬ Slips v (booted k) x (.unlink d.cdirname (some path) env.news) := by
  have supplied : ∀ p, some path = some p →
      Vfs.Supply env.news x.cache (2 * (p.length + d.cdirname.length) + 10) := by
    rintro p ⟨⟩
    exact supply
  have fits : Fits d path ↔ lookBs v x.cache env.news d.cdirname (some path) ≠ none := by
    constructor
    · intro fits
      obtain ⟨c, found, name, looked, -⟩ :=
        lookBs_returns ready.distinct ready.inv.order ready.mounted supply fits
      simp [looked]
    · intro returns overrun
      exact returns (lookBs_overrun overrun)
  have called : exec v (booted k) x (.unlink d.cdirname (some path) env.news) =
      onParent v (booted k) x unlinkFs d.cdirname (some path) env.news := rfl
  rw [fits]
  simp only [cRm]
  rcases onParent_cases (k := k) ready.inv ready.distinct ready.mounted supplied
    (fun _ _ => unlinkFs_follows)
      (fun _ _ => unlinkFs_refuses) with
    ⟨overrun, ran⟩ | ⟨c, name, looked, -, ran⟩ | ⟨c, p, name, looked, bare, ran⟩
      | ⟨c, p, name, e, looked, table, -, -, ran⟩
  · refine iff_of_false ?_ (fun both => both.1 overrun)
    simp [syscall_error (called.trans ran), bind, Except.bind]
  · refine iff_of_true ⟨⟨c, x.files⟩, 0, by rw [syscall_ok (called.trans ran)]; rfl,
      rfl⟩ ⟨by simp [looked], ?_⟩
    rintro ⟨c', p', name', looked', -⟩
    cases looked.symm.trans looked'
  · refine iff_of_false ?_ (fun both => both.2 ⟨c, p, name, looked, bare⟩)
    simp [syscall_error (called.trans ran), bind, Except.bind]
  · refine iff_of_true ⟨⟨e, x.files⟩, 0, by rw [syscall_ok (called.trans ran)]; rfl,
      rfl⟩ ⟨by simp [looked], ?_⟩
    rintro ⟨c', p', name', looked', bare⟩
    cases looked.symm.trans looked'
    exact table bare

end Directories

theorem inPlace_eq {r : Except Fault (Sys × Int)} {d' : Cwd} {code : Int} :
    inPlace d r = .ok (some (y, d', code)) ↔ r = .ok (y, code) ∧ d' = d := by
  cases r with
  | error fault => simp [inPlace, bind, Except.bind]
  | ok u =>
    obtain ⟨z, code'⟩ := u
    simp only [inPlace, bind, Except.bind, pure, Except.pure, Except.ok.injEq,
      Option.some.injEq, Prod.mk.injEq]
    grind

theorem ends_inPlace {command : Command} {args : List Str} {r : Except Fault (Sys × Int)}
    (body : ∀ fuel, run v k env fuel x d command args = inPlace d r) :
    Ends v k env x d command args ↔ ∃ y code, r = .ok (y, code) ∧
    y.files.ofile = x.files.ofile := by
  simp only [Ends, body, inPlace_eq]
  constructor
  · rintro ⟨fuel, y, d', code, ⟨ran, -⟩, same⟩
    exact ⟨y, code, ran, same⟩
  · rintro ⟨y, code, ran, same⟩
    exact ⟨0, y, d, code, ⟨ran, rfl⟩, same⟩

theorem ends_cat {rest : List Str} : Ends v k env x d .cat (path :: rest) ↔
    ∃ fuel y code, printfile v k env fuel x d path = .ok (some (y, code)) ∧
    y.files.ofile = x.files.ofile := by
  simp only [Ends, run]
  constructor
  · rintro ⟨fuel, y, d', code, ran, same⟩
    cases printed : printfile v k env fuel x d path with
    | error fault =>
      rw [printed] at ran
      cases ran
    | ok u =>
      rw [printed] at ran
      cases u with
      | none => cases ran
      | some u =>
        obtain ⟨z, code'⟩ := u
        cases ran
        exact ⟨fuel, z, code', printed, same⟩
  · rintro ⟨fuel, y, code, printed, same⟩
    refine ⟨fuel, y, d, code, ?_, same⟩
    rw [printed]
    rfl

theorem ends_cd {rest : List Str} : Ends v k env x d .cd (path :: rest) ↔
    ∃ y d' code, cCd v env x d (path :: rest) = .ok (y, d', code) ∧
    y.files.ofile = x.files.ofile := by
  simp only [Ends, run]
  constructor
  · rintro ⟨fuel, y, d', code, ran, same⟩
    cases moved : cCd v env x d (path :: rest) with
    | error fault =>
      rw [moved] at ran
      cases ran
    | ok u =>
      rw [moved] at ran
      cases ran
      exact ⟨y, d', code, rfl, same⟩
  · rintro ⟨y, d', code, moved, same⟩
    refine ⟨0, y, d', code, ?_, same⟩
    rw [moved]
    rfl

end Calls

theorem ends_iff (v : Files) (k : Kernel) (env : Env) (root : Nat) (x : Sys) (d : Cwd)
    (command : Command)
    (args : List Str) (behaved : Behaved k) (ready : Ready v root x)
    (supply : Vfs.Supply env.news x.cache
    (2 * ((args.headD [0x2e]).length + d.cdirname.length) + 10)) :
    Ends v (booted k) env x d command args ↔ Tidy v (booted k) env x d command args := by
  cases command with
  | rm =>
    rw [ends_inPlace fun _ => rfl]
    cases args with
    | nil => exact iff_of_true ⟨x, 2, rfl, rfl⟩ trivial
    | cons path rest => exact rm_restores ready supply rest
  | touch =>
    rw [ends_inPlace fun _ => rfl]
    cases args with
    | nil => exact iff_of_true ⟨x, 2, rfl, rfl⟩ trivial
    | cons path rest => exact touch_restores behaved ready supply rest
  | cd =>
    cases args with
    | nil => exact iff_of_true ⟨0, x, d, 0, rfl, rfl⟩ trivial
    | cons path rest => exact ends_cd.trans (cd_restores ready supply rest)
  | cat =>
    cases args with
    | nil => exact iff_of_true ⟨0, x, d, 2, rfl, rfl⟩ trivial
    | cons path rest => exact ends_cat.trans (printfile_restores behaved ready supply)
  | ls =>
    cases args with
    | nil =>
      rw [ends_inPlace fun _ => rfl]
      exact nlsdir_restores behaved ready supply
    | cons path rest =>
      rw [ends_inPlace fun _ => rfl]
      exact nlsdir_restores behaved ready supply
  | stat =>
    cases args with
    | nil => exact iff_of_true ⟨0, x, d, 0, rfl, rfl⟩ trivial
    | cons path rest =>
      rw [ends_inPlace fun _ => rfl]
      exact flstat_restores behaved ready supply

def bootEnv : Env := ⟨fun i => 32 + i, 200, 1, fun _ => 1024⟩
def atRoot : Cwd := ⟨Inode.zero, slash⟩
def dev : Str := [0x2f, 0x64, 0x65, 0x76]

theorem superuser_behaved : Behaved superuser := ⟨fun _ s => Same.refl s, fun _ => Int.le_refl 0⟩

theorem bootSys_ready : Ready bootFs 1 bootSys := by
  refine ⟨boot_inv bootFs_source bootCache_reach _, ⟨rfl, ?_⟩, fun _ _ same => same, rfl⟩
  intro o member
  rw [List.eq_of_mem_replicate member]
  rfl

def bootEntries : List Ext2.Direntry :=
  [⟨12, 12, 2, [0x64, 0x65, 0x76]⟩, ⟨13, 1012, 1, [0x66]⟩]

def bootDisk : ByteMemory.Mem :=
  ByteMemory.storeBytes Ext2.zeroed 1024
    [12, 0, 0, 0, 12, 0, 3, 2, 0x64, 0x65, 0x76, 0, 13, 0, 0, 0, 0xf4, 3, 1, 1, 0x66]

theorem bootDir_wellFormed : Ext2.WellFormed bootDisk Ext2.smallDir bootEntries := by
  have blocks : Ext2.smallDir.blocks = 1 :: List.replicate 11 0 := rfl
  have block : Ext2.Records (Ext2.blockBytes bootDisk Ext2.smallDir.sb 1) 1024 0 bootEntries := by
    refine Ext2.Records.step (by decide +kernel) (by decide) (by decide) (by decide) rfl ?_
    exact Ext2.Records.step (by decide +kernel) (by decide) (by decide) (by decide) rfl
      Ext2.Records.done
  have listing := Ext2.Listing.block (by decide) block
    (Ext2.listing_holes bootDisk Ext2.smallDir.sb 11)
  rwa [List.append_nil, ← blocks] at listing

def bootVolume : Volume bootFs where
  disk := bootDisk
  directory _ _ := Ext2.smallDir
  small _ _ := by decide
  lookup := by
    intro lookup same sb ino name found ran
    cases same
    rw [Ext2.ext2Lookup_eq bootDir_wellFormed, Option.some.injEq] at ran
    rw [← ran]
    have other : ext2Ops ≠ devOps := by decide
    simp only [true_and, other, false_and, if_false, bootEntries, Ext2.named_cons, eq_comm]
    by_cases first : name = [0x64, 0x65, 0x76]
    · simp [first]
    · by_cases second : name = [0x66]
      · simp [second]
      · simp only [first, second, and_false, if_false]
        rfl

theorem bootVolume_sound (command : Command) (args : List Str) :
    Sound bootFs bootEnv bootVolume bootSys atRoot command args :=
  sound_of_wellFormed bootVolume (fun _ _ => ⟨bootEntries, bootDir_wellFormed⟩) _ _ _ _

end Shell
