import NoobOs.Crypt.CredentialBuffers
import NoobOs.Crypt.LoginResults
import NoobOs.Proc.ShellCommands

/-!
`getuser` and `chkcred` with their system calls: each opens a file, reads it into a buffer,
looks through the buffer and closes the file again.
-/
namespace Crypt
open ByteMemory Strings FileTable FileCalls
open Vfs (Files Cwd)
open Shell (Env oRdonly openFile close)

def passwdPath : Str := ascii "/etc/passwd"
def shadowPath : Str := ascii "/etc/shadow"

def getuserBufsiz : Nat := 1024

/-- What one of the functions finds around it: the addresses for `open`, the buffer with the
    memory in which `malloc` has zeroed it, the bytes that `read` delivers, and the memory after a
    `free` of the buffer. -/
structure Loading where
  env : Env
  buf : Area
  zeroed : Mem
  file : Str
  freed : Mem

def Loading.filled (l : Loading) : Mem := storeBytes l.zeroed l.buf.start l.file

section Calls
variable (v : Files) (k : Kernel) (d : Cwd)

/-- The `read` of the two functions. After one that fails they free the buffer and close the
    file, and go on all the same. -/
def readInto (x : Sys) (l : Loading) (fd : Int) : Except Fault (Sys × Mem) := do
  let (x, n) ← Shell.read v k x fd getuserBufsiz
  if n = -1 then
    let (x, _) ← close v k x fd
    return (x, l.freed)
  return (x, l.filled)

/-- The result is 0 when `open` or `close` fails. -/
def getuserCall (x : Sys) (l : Loading) (uname : Option Str) (uid : UInt32) (info : UserInfo) :
    Except Fault (Sys × UserInfo × Nat) := do
  let (x, fd) ← openFile v k l.env x d passwdPath oRdonly
  if fd = -1 then return (x, { info with passReq := uiAllocated }, 0)
  let (x, m) ← readInto v k x l fd
  match getuserBuf l.buf m uname uid info with
  | none => .error .null
  | some (info, stat) =>
    let (x, code) ← close v k x fd
    return (x, info, if code = -1 then 0 else stat)

def shadowCall (x : Sys) (l : Loading) (usr : Str) (cred : Typed) : Except Fault (Sys × Nat) := do
  let (x, fd) ← openFile v k l.env x d shadowPath oRdonly
  if fd = -1 then return (x, 0)
  let (x, m) ← readInto v k x l fd
  match chkcredBuf l.buf m usr cred with
  | none => .error .null
  | some stat =>
    let (x, code) ← close v k x fd
    return (x, if code = -1 ∨ stat = false then 0 else 1)

def chkcredCall (x : Sys) (passwd shadow : Loading) (usr : Str) (cred : Typed) (info : UserInfo) :
    Except Fault (Sys × UserInfo × Nat) := do
  if info.passReq &&& uiAllocated = 0 then
    let (x, info, r) ← getuserCall v k d x passwd (some usr) 0 info
    if r ≠ 0 ∧ info.passReq &&& 1 = 0 then return (x, info, 1)
    let (x, r) ← shadowCall v k d x shadow usr cred
    return (x, info, r)
  let (x, r) ← shadowCall v k d x shadow usr cred
  return (x, info, r)

/-- `open` and `read` succeed on the file at a path, which is read whole into a buffer with room
    for a terminator. -/
structure Loads (x : Sys) (path : Str) (l : Loading) (y z : Sys) (fd : Int) : Prop where
  opened : openFile v k l.env x d path oRdonly = .ok (y, fd)
  found : fd ≠ -1
  got : Shell.read v k y fd getuserBufsiz = .ok (z, l.file.length)
  size : l.buf.size = getuserBufsiz
  zeroed : ∀ a, l.buf.Has a → l.zeroed a = 0
  ended : 0 ∉ l.file
  whole : l.file.length < getuserBufsiz

end Calls

section Loaded
variable {v : Files} {k : Kernel} {d : Cwd} {x y z : Sys} {l : Loading} {path : Str}
  {fd : Int} {root : Nat}

theorem Loads.text (loads : Loads v k d x path l y z fd) : StrAt l.filled l.buf.start l.file := by
  have size := loads.size
  have whole := loads.whole
  refine ⟨loads.ended, (bytesAt_append l.file [0] _).mpr ⟨storeBytes_bytesAt _ _ _, ?_, trivial⟩⟩
  rw [Loading.filled, storeBytes_other _ _ _ (Or.inr (Nat.le_refl _))]
  exact loads.zeroed _ ⟨by omega, by omega⟩

theorem Loads.small (loads : Loads v k d x path l y z fd) :
    l.file.length < l.buf.size ∧ l.buf.size < 2 ^ 32 := by
  have size := loads.size
  have whole := loads.whole
  rw [getuserBufsiz] at size whole
  omega

theorem Loads.read (loads : Loads v k d x path l y z fd) :
    readInto v k y l fd = .ok (z, l.filled) := by
  have read : ((l.file.length : Int) = -1) = False := by
    simp only [eq_iff_iff, iff_false]
    omega
  simp only [readInto, loads.got, bind, Except.bind, read, if_false]
  rfl

theorem Loads.closes (behaved : Shell.Behaved k) (ready : Shell.Ready v root x)
    (supply : Vfs.Supply l.env.news x.cache (2 * (path.length + d.cdirname.length) + 10))
    (loads : Loads v (booted k) d x path l y z fd) :
    ∃ w, close v (booted k) z fd = .ok (w, 0) ∧ w.files.ofile = x.files.ofile := by
  have valid : oRdonly &&& 3 ≠ 3 := by decide
  by_cases fits : Shell.Fits d path
  · rcases Shell.open_cases behaved ready supply fits oRdonly valid with
      ⟨y', opened, -⟩ | ⟨c, p, -, free, -, inv, opened⟩
    · cases loads.opened.symm.trans opened
      exact absurd rfl loads.found
    · cases loads.opened.symm.trans opened
      have kept := Shell.read_kept behaved inv loads.got
      exact Shell.close_restores ready.table free (kept.inv inv) kept.files.ofile
  · have overruns : openFile v (booted k) l.env x d path oRdonly = .error .outside :=
      Shell.open_overruns fits oRdonly valid
    cases loads.opened.symm.trans overruns

theorem loads_of_returns {n : Int}
    (ran : ((openFile v k l.env x d path oRdonly).toOption.bind fun r =>
      (Shell.read v k r.1 r.2 getuserBufsiz).toOption.map fun q => (r.2, q.2)) = some (fd, n))
    (found : fd ≠ -1) (count : n = l.file.length) (size : l.buf.size = getuserBufsiz)
    (zeroed : ∀ a, l.buf.Has a → l.zeroed a = 0) (ended : 0 ∉ l.file)
    (whole : l.file.length < getuserBufsiz) :
    ∃ y z, Loads v k d x path l y z fd := by
  cases opened : openFile v k l.env x d path oRdonly with
  | error fault => simp [opened, Except.toOption] at ran
  | ok r =>
    cases got : Shell.read v k r.1 r.2 getuserBufsiz with
    | error fault => simp [opened, got, Except.toOption] at ran
    | ok q =>
      simp only [opened, got, Except.toOption, Option.bind_some, Option.map_some, Option.some.injEq,
        Prod.mk.injEq] at ran
      obtain ⟨rfl, rfl⟩ := ran
      exact ⟨r.1, q.1, opened, found, by rw [got, ← count], size, zeroed, ended, whole⟩

end Loaded

def etcFs : Files where
  __ := bootFs
  lookup := fun _ => some fun _ _ name =>
    if name = ascii "etc" then 14 else if name = ascii "passwd" ∨ name = ascii "shadow" then
      13
    else Vfs.noIno

def reader (n : Nat) : Kernel := { superuser with perform := fun _ s => (s, n) }

def loading (file : Str) : Loading := ⟨Shell.bootEnv, ⟨4096, 1024⟩, fun _ => 0, file, fun _ => 0⟩

theorem reader_behaved (n : Nat) : Shell.Behaved (reader n) :=
  ⟨fun _ s => Same.refl s, fun _ => Int.natCast_nonneg n⟩

theorem etcFs_ready : Shell.Ready etcFs 1 bootSys := by
  have reached : Runs.Reach (booting etcFs) InodeCache.start bootCache := bootCache_reach
  have source : ∀ sb, FromSource (etcFs.read sb) := bootFs_source
  refine ⟨boot_inv source reached _, ⟨rfl, ?_⟩, fun _ _ same => same, rfl⟩
  intro o member
  rw [List.eq_of_mem_replicate member]
  rfl

end Crypt
