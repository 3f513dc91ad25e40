import NoobOs.Fs.FileTable
import NoobOs.Fs.Path

/-!
The system calls on descriptors of `vfs.c` and `dev.c`, with the tables of function
pointers they go through. A null pointer in a table is `none`.
-/
namespace FileCalls
open FileTable
open InodeCache (Inode)

/-- An access outside an array; a null table followed or a null pointer called. -/
inductive Fault where
  | outside
  | null
  deriving DecidableEq

inductive Fn where
  | ext2Lookup
  | lookupDev
  | ext2Lread
  | ext2Readdir
  | openDevfs
  | closeDevfs
  | readDevfs
  | writeDevfs
  | ioctlDevfs
  | readNull
  | writeNull
  | readTty
  | writeTty
  | ioctlTty
  | ataDevread
  deriving DecidableEq

structure InodeOps where
  lookup : Option Fn
  creat : Option Fn
  unlink : Option Fn

structure FileOps where
  open' : Option Fn
  close : Option Fn
  read : Option Fn
  write : Option Fn
  readdir : Option Fn
  ioctl : Option Fn

structure DevOps where
  read : Option Fn
  write : Option Fn
  open' : Option Fn
  close : Option Fn
  ioctl : Option Fn

structure Cred where
  euid : Nat
  egid : Nat

/-- What the calls read besides the descriptor table: the tables by their address, the
    inodes by theirs, the registered devices, and what a function that is reached does to
    the open files and returns, where it does return. -/
structure Kernel where
  iops : Nat → InodeOps
  fops : Nat → FileOps
  inode : Nat → Inode
  chrdevTab : Nat → Nat → Option DevOps
  blkdev : Nat → Option DevOps
  cred : Cred
  sDev : Nat → Nat
  perform : Fn → State → State × Int

def eNosys : Int := -38
def eIsdir : Int := -21
def eNotdir : Int := -20
def eNotty : Int := -25
def ePerm : Int := -1
def eFault : Int := -14

def isChr (mode : Nat) : Bool := mode &&& 0o170000 = 0o020000
def isBlk (mode : Nat) : Bool := mode &&& 0o170000 = 0o060000

def major (dev : Nat) : Nat := dev >>> 8 &&& 0xfff
def minor (dev : Nat) : Nat := dev &&& 0xff ||| (dev >>> 12 &&& 0xfff00)

section Devices
variable (k : Kernel) (s : State) (n : Inode)

def getdev : Option DevOps :=
  if isBlk n.mode then k.blkdev n.rdev else k.chrdevTab (major n.rdev) (minor n.rdev)

def callDev : Option Fn → Except Fault (State × Int)
  | none => .error .null
  | some f => .ok (k.perform f s)

/-- The pattern of the device operations: without the device or the pointer, a code. -/
def viaDevice (missing : Int) (op : DevOps → Option Fn) : Except Fault (State × Int) :=
  match getdev k n with
  | none => .ok (s, missing)
  | some d => if op d = none then .ok (s, missing) else callDev k s (op d)

def readDevfs : Except Fault (State × Int) := viaDevice k s n eNosys DevOps.read

/-- The test is on `read`, the call is of `write`. -/
def writeDevfs : Except Fault (State × Int) :=
  match getdev k n with
  | none => .ok (s, eNosys)
  | some d => if d.read = none then .ok (s, eNosys) else callDev k s d.write

def openDevfs : Except Fault (State × Int) := viaDevice k s n 0 DevOps.open'
def closeDevfs : Except Fault (State × Int) := viaDevice k s n 0 DevOps.close
def ioctlDevfs : Except Fault (State × Int) := viaDevice k s n eNosys DevOps.ioctl

def callPtr : Option Fn → Except Fault (State × Int)
  | none => .error .null
  | some .readDevfs => readDevfs k s n
  | some .writeDevfs => writeDevfs k s n
  | some .openDevfs => openDevfs k s n
  | some .closeDevfs => closeDevfs k s n
  | some .ioctlDevfs => ioctlDevfs k s n
  | some f => .ok (k.perform f s)

/-- The pattern of `read_fs` and its kind: the table, then the pointer, else `-ENOSYS`. -/
def guarded (fops : Option Nat) (op : FileOps → Option Fn) : Except Fault (State × Int) :=
  match fops with
  | none => .ok (s, eNosys)
  | some t => if op (k.fops t) = none then .ok (s, eNosys) else callPtr k s n (op (k.fops t))

def readFs (fops : Option Nat) : Except Fault (State × Int) := guarded k s n fops FileOps.read
def writeFs (fops : Option Nat) : Except Fault (State × Int) := guarded k s n fops FileOps.write

def createFs : Except Fault (State × Int) :=
  match n.ops with
  | none => .error .null
  | some t => if (k.iops t).creat = none then .ok (s, eNosys) else callPtr k s n (k.iops t).creat

/-- The test is on `creat`, the call is of `unlink`. -/
def unlinkFs : Except Fault (State × Int) :=
  match n.ops with
  | none => .error .null
  | some t => if (k.iops t).creat = none then .ok (s, eNosys) else callPtr k s n (k.iops t).unlink

end Devices

def sIroth : Nat := 4
def sIwoth : Nat := 2

def checkPerm (c : Cred) (n : Inode) (mask : Nat) : Bool :=
  if c.euid = 0 then true
  else if c.euid = n.uid then n.mode &&& (mask * 0o100) ≠ 0
  else if c.egid = n.gid then n.mode &&& (mask * 0o10) ≠ 0
  else n.mode &&& mask ≠ 0

section Calls
variable (k : Kernel) (s : State)

def inside {α : Type} : Option α → Except Fault α
  | none => .error .outside
  | some a => .ok a

def opened (o : Option Nat) : Except Int (File × Inode) :=
  match o with
  | none => .error eBadf
  | some f =>
    if (s.file f).flags &&& fUsed = 0 then .error eBadf
    else
      match (s.file f).inode with
      | none => .error eBadf
      | some a => .ok (s.file f, k.inode a)

/-- `fsys_read` and `fsys_write` differ in the access mode refused, the permission asked
    for and the operation. -/
def transfer (refused mask : Nat) (op : Option Nat → State → Inode → Except Fault (State × Int))
    (fd : Int)
    (count : Nat) : Except Fault (State × Int) :=
  if (nofile : Int) ≤ fd then .ok (s, eBadf)
  else if count = 0 then .ok (s, 0)
  else do
    match opened k s (← inside (slot s fd)) with
    | .error code => return (s, code)
    | .ok (f, n) =>
      if Vfs.isDir n.mode then return (s, eIsdir)
      if f.flags &&& 3 = refused then return (s, ePerm)
      if ¬ checkPerm k.cred n mask then return (s, ePerm)
      op f.fops s n

def fsysRead (fd : Int) (count : Nat) : Except Fault (State × Int) :=
  transfer k s 1 sIroth (fun fops s n => readFs k s n fops) fd count

def fsysWrite (fd : Int) (count : Nat) : Except Fault (State × Int) :=
  transfer k s 0 sIwoth (fun fops s n => writeFs k s n fops) fd count

structure Stat where
  ino : Nat
  mode : Nat
  size : Nat
  uid : Nat
  gid : Nat
  dev : Option Nat
  rdev : Nat

def fsysFstat (fd : Int) : Except Fault (Option Stat × Int) :=
  if (nofile : Int) ≤ fd then .ok (none, eBadf)
  else do
    match opened k s (← inside (slot s fd)) with
    | .error code => return (none, code)
    | .ok (_, n) => return (some ⟨n.ino, n.mode, n.size, n.uid, n.gid, n.sb.map k.sDev, n.rdev⟩, 0)

/-- `arg` tells whether the argument pointer is not null. -/
def fsysIoctl (fd : Int) (arg : Bool) : Except Fault (State × Int) :=
  if (nofile : Int) ≤ fd then .ok (s, eBadf)
  else if ¬ arg then .ok (s, eFault)
  else do
    match opened k s (← inside (slot s fd)) with
    | .error code => return (s, code)
    | .ok (f, n) =>
      if ¬ isChr n.mode then return (s, eNotty)
      guarded k s n f.fops FileOps.ioctl

/-- After `check_fd` the same three tests are made again. -/
def fsysGetdents (fd : Int) (count : Nat) : Except Fault (State × Int) :=
  if count = 0 then .ok (s, 0)
  else do
    let (r, f) ← inside (checkFd s fd)
    if r < 0 then return (s, r)
    match opened k s f with
    | .error code => return (s, code)
    | .ok (f, n) =>
      if ¬ Vfs.isDir n.mode then return (s, eNotdir)
      guarded k s n f.fops FileOps.readdir

def hooks : Fops where
  hasOpen t := (k.fops t).open' ≠ none
  hasClose t := (k.fops t).close ≠ none

end Calls

/-! ## Where a call on a descriptor ends -/

section Descriptors
variable {k : Kernel} {s : State} {fd : Int} {count : Nat}

theorem checkFd_some {r : Int} {o : Option Nat} (checked : checkFd s fd = some (r, o)) :
    (r = eBadf ∧ o = none) ∨ (r = 0 ∧ ∃ f, o = some f ∧ slot s fd = some (some f)) := by
  unfold checkFd at checked
  split at checked
  · cases checked
    exact Or.inl ⟨rfl, rfl⟩
  · simp only [Option.bind_eq_bind, Option.bind_eq_some_iff, Option.pure_def] at checked
    obtain ⟨o', held, checked⟩ := checked
    cases o' with
    | none =>
      cases checked
      exact Or.inl ⟨rfl, rfl⟩
    | some g =>
      simp only at checked
      split at checked
      · cases checked
        exact Or.inl ⟨rfl, rfl⟩
      · split at checked
        · cases checked
          exact Or.inl ⟨rfl, rfl⟩
        · cases checked
          exact Or.inr ⟨rfl, g, rfl, held⟩

theorem checkFd_none (checked : checkFd s fd = none) : slot s fd = none := by
  unfold checkFd at checked
  split at checked
  · cases checked
  · cases held : slot s fd with
    | none => rfl
    | some o =>
      rw [held] at checked
      cases o with
      | none => cases checked
      | some f =>
        simp only [Option.bind_eq_bind, Option.bind_some, Option.pure_def] at checked
        split at checked
        · cases checked
        · split at checked
          · cases checked
          · cases checked

theorem opened_eq {o : Option Nat} {g : File} {n : Inode} (found : opened k s o = .ok (g, n)) :
    ∃ f a, o = some f ∧ g = s.file f ∧ (s.file f).inode = some a ∧ n = k.inode a := by
  cases o with
  | none => cases found
  | some f =>
    simp only [opened] at found
    split at found
    · cases found
    · split at found
      · cases found
      · next a inode =>
        cases found
        exact ⟨f, a, rfl, rfl, inode, rfl⟩

/-! Each call ends with a code of its own or reaches the file's table. -/

section Cases
variable {P : Except Fault (State × Int) → Prop} (codes : ∀ code < 0, P (.ok (s, code)))
  (outside : slot s fd = none → P (.error .outside))
include codes

theorem opened_cases {o : Option Nat} {next : File → Inode → Except Fault (State × Int)}
    (reached : ∀ f a, o = some f → (s.file f).inode = some a → P (next (s.file f) (k.inode a))) :
    P (match opened k s o with
      | .error code => .ok (s, code)
      | .ok (g, n) => next g n) := by
  cases found : opened k s o with
  | error code =>
    apply codes
    cases o with
    | none =>
      cases found
      decide
    | some f =>
      simp only [opened] at found
      split at found
      · cases found
        decide
      · split at found
        · cases found
          decide
        · cases found
  | ok y =>
    obtain ⟨f, a, rfl, same, inode, same'⟩ := opened_eq found
    simp only [same, same']
    exact reached f a rfl inode

include outside

theorem transfer_cases {refused mask : Nat}
    {op : Option Nat → State → Inode → Except Fault (State × Int)}
    (empty : count = 0 → P (.ok (s, 0)))
    (reached : ∀ f a, slot s fd = some (some f) → (s.file f).inode = some a →
      P (op (s.file f).fops s (k.inode a))) : P (transfer k s refused mask op fd count) := by
  unfold transfer
  split
  · exact codes _ (by decide)
  · split
    · next zero => exact empty zero
    · cases held : slot s fd with
      | none => exact outside held
      | some o =>
        apply opened_cases codes
        intro f a same inode
        subst same
        split
        · exact codes _ (by decide)
        · split
          · exact codes _ (by decide)
          · split
            · exact codes _ (by decide)
            · exact reached f a held inode

theorem fsysIoctl_cases {arg : Bool}
    (reached : ∀ f a, slot s fd = some (some f) → (s.file f).inode = some a →
      P (guarded k s (k.inode a) (s.file f).fops FileOps.ioctl)) : P (fsysIoctl k s fd arg) := by
  unfold fsysIoctl
  split
  · exact codes _ (by decide)
  · split
    · exact codes _ (by decide)
    · cases held : slot s fd with
      | none => exact outside held
      | some o =>
        apply opened_cases codes
        intro f a same inode
        subst same
        split
        · exact codes _ (by decide)
        · exact reached f a held inode

theorem fsysGetdents_cases (empty : count = 0 → P (.ok (s, 0)))
    (reached : ∀ f a, slot s fd = some (some f) → (s.file f).inode = some a →
      P (guarded k s (k.inode a) (s.file f).fops FileOps.readdir)) :
      P (fsysGetdents k s fd count) := by
  unfold fsysGetdents
  split
  · next zero => exact empty zero
  · cases checked : checkFd s fd with
    | none => exact outside (checkFd_none checked)
    | some y =>
      obtain ⟨r, o⟩ := y
      rcases checkFd_some checked with ⟨rfl, rfl⟩ | ⟨rfl, f, rfl, held⟩
      · exact codes _ (by decide)
      · apply opened_cases codes
        intro g a same inode
        cases same
        split
        · exact codes _ (by decide)
        · exact reached f a held inode

end Cases

end Descriptors

end FileCalls
