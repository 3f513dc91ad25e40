import NoobOs.Fs.FileCalls
import NoobOs.Fs.WorkingDirectory

/-!
The file system calls over the inode cache and the descriptor table together, with the
operation tables as the source fills them, and what a call through one pointer can do.
-/
namespace FileCalls
open FileTable Strings
open InodeCache (Inode ReadInode newNode drop)
open Vfs (Files lookupVfs lookBs bare)

/-! ## The tables of the source -/

def ext2Ops : Nat := 0
def devOps : Nat := 1

def ext2Iops : InodeOps := ⟨some .ext2Lookup, none, none⟩
def devIops : InodeOps := ⟨some .lookupDev, none, none⟩

def ext2Fops : FileOps := ⟨none, none, some .ext2Lread, none, some .ext2Readdir, none⟩
def devFops : FileOps :=
  ⟨some .openDevfs, none, some .readDevfs, some .writeDevfs, none, some .ioctlDevfs⟩

def nulldev : DevOps := ⟨some .readNull, some .writeNull, none, none, none⟩
def vgdev : DevOps := ⟨some .readTty, some .writeTty, none, none, some .ioctlTty⟩
def ataDev : DevOps := ⟨some .ataDevread, none, none, none, none⟩

def mkdev (maj min : Nat) : Nat :=
  (maj &&& 0xfff) <<< 8 ||| min &&& 0xff ||| (min / 0x100 * 0x100) <<< 12

/-- The tables and the devices of `init_devs`, `ata_init` and `vgatext_init`; what lies at
    other addresses stays. -/
def booted (k : Kernel) : Kernel where
  iops := Function.update (Function.update k.iops ext2Ops ext2Iops) devOps devIops
  fops := Function.update (Function.update k.fops ext2Ops ext2Fops) devOps devFops
  inode := k.inode
  chrdevTab maj min :=
    if maj = 1 ∧ (min = 1 ∨ min = 2 ∨ min = 3) then some nulldev
    else if maj = 4 ∧ min = 0 then some vgdev else none
  blkdev dev := if dev = mkdev 8 0 then some ataDev else none
  cred := k.cred
  sDev := k.sDev
  perform := k.perform

def DevDir (n : Inode) : Prop :=
  n.mode = 0o040766 ∧ n.rdev = 0 ∧ n.ops = some devOps ∧ n.fops = some devOps

/-- A node of `creat_devfs` (`null`, `zero`, `random`, `tty`) or `creat_blockdev` (`sda`):
    `ops` is not set. -/
def DevNode (n : Inode) : Prop :=
  ((n.mode = 0o020666 ∧ n.rdev ∈ [mkdev 1 1, mkdev 1 2, mkdev 1 3, mkdev 4 0]) ∨
    (n.mode = 0o060666 ∧ n.rdev = mkdev 8 0)) ∧ n.ops = none ∧ n.fops = some devOps

/-- `ext2_inoder` sets both tables; `dev_inoder` copies the nodes of the device directory. -/
def FromSource : ReadInode → Prop
  | .absent => True
  | .ext2 disk => ∀ ino, (disk ino).ops = some ext2Ops ∧ (disk ino).fops = some ext2Ops
  | .dev devnode entry => DevDir devnode.node ∧ ∀ e, some e ∈ entry → DevNode e.node

/-- What an inode of the cache can be; a number that no device has leaves it without tables. -/
def Kind (n : Inode) : Prop :=
  (n.ops = some ext2Ops ∧ n.fops = some ext2Ops) ∨ DevDir n ∨ DevNode n ∨
    (n.ops = none ∧ n.fops = none)

theorem newNode_kind {sDev : Nat → Nat} {read : Nat → ReadInode} {sb : Nat}
    (source : FromSource (read sb)) (ino : Nat) :
    Kind (newNode ⟨sDev, read⟩ sb ino) := by
  unfold Kind newNode
  simp only
  cases kind : read sb with
  | absent => simp [ReadInode.call, Inode.zero]
  | ext2 disk =>
    rw [kind] at source
    simp [ReadInode.call, InodeCache.ext2Inoder, source ino]
  | dev devnode entry =>
    rw [kind] at source
    simp only [ReadInode.call, InodeCache.devInoder]
    split
    · exact Or.inr (Or.inl source.1)
    · split
      · next e found =>
          exact Or.inr (Or.inr (Or.inl (source.2 e (List.mem_of_find?_eq_some found))))
      · simp [Inode.zero]

theorem Kind.congr {m n : Inode} (same : bare m = bare n) (kind : Kind n) : Kind m := by
  have mode : m.mode = n.mode := Vfs.eq_of_bare Inode.mode (fun _ => rfl) same
  have rdev : m.rdev = n.rdev := Vfs.eq_of_bare Inode.rdev (fun _ => rfl) same
  have ops : m.ops = n.ops := Vfs.eq_of_bare Inode.ops (fun _ => rfl) same
  have fops : m.fops = n.fops := Vfs.eq_of_bare Inode.fops (fun _ => rfl) same
  unfold Kind DevDir DevNode at kind ⊢
  rw [mode, rdev, ops, fops]
  exact kind

theorem Kind.fops {n : Inode} (kind : Kind n) : n.fops = none ∨ n.fops = some ext2Ops ∨
    n.fops = some devOps := by
  rcases kind with ext2 | dir | node | bare
  · exact Or.inr (Or.inl ext2.2)
  · exact Or.inr (Or.inr dir.2.2.2)
  · exact Or.inr (Or.inr node.2.2)
  · exact Or.inl bare.2

theorem Kind.ops {n : Inode} (kind : Kind n) : n.ops = none ∨ n.ops = some ext2Ops ∨
    n.ops = some devOps := by
  rcases kind with ext2 | dir | node | bare
  · exact Or.inr (Or.inl ext2.1)
  · exact Or.inr (Or.inr dir.2.2.1)
  · exact Or.inl node.2.1
  · exact Or.inl bare.1

section Tables
variable (k : Kernel)

@[simp] theorem booted_ext2Iops : (booted k).iops ext2Ops = ext2Iops := by
  simp [booted, ext2Ops, devOps]
@[simp] theorem booted_devIops : (booted k).iops devOps = devIops := by simp [booted]
@[simp] theorem booted_ext2Fops : (booted k).fops ext2Ops = ext2Fops := by
  simp [booted, ext2Ops, devOps]
@[simp] theorem booted_devFops : (booted k).fops devOps = devFops := by simp [booted]

end Tables

/-! ## The calls -/

structure Sys where
  cache : InodeCache.State
  files : State

def Kernel.withCache (k : Kernel) (c : InodeCache.State) : Kernel :=
  { k with inode := c.cache.inode }

inductive Req where
  | open' (cwd path : Str) (flags : Nat) (news : Nat → Nat) (new : Nat)
  | close (fd : Int)
  | dup (oldfd : Int)
  | dup2 (oldfd newfd : Int)
  | read (fd : Int) (count : Nat)
  | write (fd : Int) (count : Nat)
  | ioctl (fd : Int) (arg : Bool)
  | getdents (fd : Int) (count : Nat)
  | creat (cwd : Str) (path : Option Str) (news : Nat → Nat)
  | unlink (cwd : Str) (path : Option Str) (news : Nat → Nat)

section Calls
variable (v : Files) (k : Kernel) (x : Sys)

/-- The end of the files that the descriptor table gave up: their `close`, if there is
    one, and the reference of their inode. -/
def settle : Sys → List Event → Except Fault Sys
  | x, [] => .ok x
  | x, .close f :: rest =>
    match (x.files.file f).inode with
    | none => .error .null
    | some a => do
      let (t, _) ← callPtr (k.withCache x.cache) x.files (x.cache.cache.inode a)
        ((x.files.file f).fops.bind fun t => (k.fops t).close)
      settle ⟨x.cache, t⟩ rest
  | x, .iput a :: rest =>
    match drop x.cache a with
    | none => .error .null
    | some c => settle ⟨c, x.files⟩ rest
  | x, .free _ :: rest => settle x rest

def onTable (before : List Event) (c : InodeCache.State) (t : State) (code : Int) :
    Except Fault (Sys × Int) := do
  let y ← settle k ⟨c, t⟩ (t.log.drop before.length)
  return (y, code)

def onFile (r : Except Fault (State × Int)) : Except Fault (Sys × Int) := do
  let (t, code) ← r
  return (⟨x.cache, t⟩, code)

def openHook (n : Inode) : Except Fault (State × Int) :=
  match n.fops with
  | none => .ok (x.files, 0)
  | some t => if (k.fops t).open' = none then .ok (x.files, 0)
    else callPtr k x.files n (k.fops t).open'

def openPath (cwd path : Str) (flags : Nat) (news : Nat → Nat) (new : Nat) :
    Except Fault (Sys × Int) :=
  if flags &&& 3 = 3 then .ok (x, eInval)
  else
    match lookupVfs v x.cache news cwd path with
    -- the array of `path_canon` is overrun
    | none => .error .outside
    | some (c, none) => .ok ({ x with cache := c }, eNoent)
    | some (c, some p) => do
      let n := c.cache.inode p
      -- without a free descriptor the hook is not reached
      let (files, hooked) ← if findfreefd x.files = -1 then .ok (x.files, 0)
        else openHook (k.withCache c) x n
      let (t, code) := fsysOpen (hooks k) files flags (some ⟨p, n.fops, n.mode⟩) new hooked
      onTable k files.log c t code

/-- `fsys_creat` and `fsys_unlink` differ in the operation on the parent. -/
def onParent (op : Kernel → State → Inode → Except Fault (State × Int)) (cwd : Str)
    (path : Option Str) (news : Nat → Nat) : Except Fault (Sys × Int) :=
  match lookBs v x.cache news cwd path with
  | none => .error .outside
  | some (c, none, _) => .ok ({ x with cache := c }, eFault)
  | some (c, some p, _) => do
    let (files, code) ← op (k.withCache c) x.files (c.cache.inode p)
    match drop c p with
    | none => .error .null
    | some c => return (⟨c, files⟩, code)

def exec : Req → Except Fault (Sys × Int)
  | .open' cwd path flags news new => openPath v k x cwd path flags news new
  | .close fd => do
    let (t, code) ← inside (fsysClose (hooks k) x.files fd)
    onTable k x.files.log x.cache t code
  | .dup oldfd => do
    let (t, code) ← inside (fsysDup (hooks k) x.files oldfd)
    onTable k x.files.log x.cache t code
  | .dup2 oldfd newfd => do
    let (t, code) ← inside (fsysDup2 (hooks k) x.files oldfd newfd)
    onTable k x.files.log x.cache t code
  | .read fd count => onFile x (fsysRead (k.withCache x.cache) x.files fd count)
  | .write fd count => onFile x (fsysWrite (k.withCache x.cache) x.files fd count)
  | .ioctl fd arg => onFile x (fsysIoctl (k.withCache x.cache) x.files fd arg)
  | .getdents fd count => onFile x (fsysGetdents (k.withCache x.cache) x.files fd count)
  | .creat cwd path news => onParent v k x createFs cwd path news
  | .unlink cwd path news => onParent v k x unlinkFs cwd path news

end Calls

/-! ## One call -/

structure Same (t s : State) : Prop where
  ofile : t.ofile = s.ofile
  alive : t.alive = s.alive
  log : t.log = s.log
  inode : ∀ g, (t.file g).inode = (s.file g).inode
  fops : ∀ g, (t.file g).fops = (s.file g).fops

/-- The functions behind the pointers move file positions at most. -/
def Tame (k : Kernel) : Prop := ∀ f s, Same (k.perform f s).1 s

/-- The table stays as it is, and no null pointer is called but where a guard `slip`s. -/
def Fine (slip : Prop) (s : State) : Except Fault (State × Int) → Prop
  | .ok (t, _) => Same t s
  | .error .outside => True
  | .error .null => slip

def Writable (k : Kernel) (n : Inode) : Prop :=
  ∀ d, getdev k n = some d → d.read ≠ none → d.write ≠ none

theorem Same.refl (s : State) : Same s s := ⟨rfl, rfl, rfl, fun _ => rfl, fun _ => rfl⟩

section Pointers
variable {slip : Prop} {k : Kernel} {s : State} {n : Inode}

theorem callDev_fine (tame : Tame k) {p : Option Fn} (present : p ≠ none ∨ slip) :
    Fine slip s (callDev k s p) := by
  cases p with
  | none => exact present.resolve_left fun present => present rfl
  | some f => exact tame f s

theorem viaDevice_fine (tame : Tame k) (missing : Int) (op : DevOps → Option Fn) :
    Fine slip s (viaDevice k s n missing op) := by
  unfold viaDevice
  split
  · exact Same.refl s
  · split
    · exact Same.refl s
    · next present => exact callDev_fine tame (Or.inl present)

theorem writeDevfs_fine (tame : Tame k) (writable : Writable k n ∨ slip) :
    Fine slip s (writeDevfs k s n) := by
  unfold writeDevfs
  split
  · exact Same.refl s
  · next d device =>
    split
    · exact Same.refl s
    · next present => exact callDev_fine tame (writable.imp_left fun writable =>
        writable d device present)

/-- Of the functions the tables point to, only `write_devfs` can call a null pointer. -/
theorem callPtr_fine (tame : Tame k) {p : Option Fn} (present : p ≠ none)
    (writable : p = some .writeDevfs → Writable k n ∨ slip) : Fine slip s (callPtr k s n p) := by
  unfold callPtr
  split
  · exact absurd rfl present
  · exact viaDevice_fine tame _ _
  · exact writeDevfs_fine tame (writable rfl)
  · exact viaDevice_fine tame _ _
  · exact viaDevice_fine tame _ _
  · exact viaDevice_fine tame _ _
  · exact tame _ s

theorem guarded_fine (tame : Tame k) {fops : Option Nat} {op : FileOps → Option Fn}
    (writable : ∀ t, fops = some t → op (k.fops t) = some .writeDevfs → Writable k n ∨ slip) :
    Fine slip s (guarded k s n fops op) := by
  unfold guarded
  split
  · exact Same.refl s
  · next t =>
    split
    · exact Same.refl s
    · next present => exact callPtr_fine tame present (writable t rfl)

end Pointers

end FileCalls
