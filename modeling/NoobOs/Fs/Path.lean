import NoobOs.Fs.InodeRuns
import NoobOs.KLib.Strings

/-!
Path resolution of `vfs.c` over the inode cache. `malloc` supplies addresses from
a stream, one for every `iget`, used or not. `none` is a walk that never returns.
-/
namespace Vfs
open Strings InodeCache

/-- What path resolution reads besides the cache: superblocks with the number of
    their root inode, mounts with their superblock, and the `lookup` operations of
    each operations table (a missing one is `none`) over directory contents, which
    belong to a number on a superblock. -/
structure Files where
  sDev : Nat → Nat
  read : Nat → ReadInode
  sRoot : Nat → Nat
  mntSb : Nat → Option Nat
  lookup : Nat → Option (Option Nat → Nat → Str → Nat)
  rootMnt : Option Nat

def noIno : Nat := 2 ^ 32 - 1

def sIfmt : Nat := 0o170000
def sIfdir : Nat := 0o040000
def isDir (mode : Nat) : Bool := mode &&& sIfmt = sIfdir

def lookupFs (v : Files) (n : Inode) (name : Str) : Nat :=
  if isDir n.mode then
    match n.ops.bind v.lookup with
    | some lookup => lookup n.sb n.ino name
    | none => noIno
  else noIno

def mountOn (v : Files) (n : Inode) : Option Nat :=
  if n.iflags &&& inMount ≠ 0 then n.mnt.bind v.mntSb else none

/-- One component: the inode with its reference, or null with the old one kept. -/
def walkStep (v : Files) (s : State) (news : Nat → Nat) (k p : Nat) (tok : Str) :
    Option (State × Option Nat) := do
  let ino := lookupFs v (s.cache.inode p) tok
  if ino = noIno then return (s, none)
  let (s, found) ← take v.sDev s v.read (s.cache.inode p).sb ino (news k)
  let q ← found
  let s ← drop s p
  match mountOn v (s.cache.inode q) with
  | some sb =>
    let (s, found) ← take v.sDev s v.read (some sb) (v.sRoot sb) (news (k + 1))
    let s ← drop s q
    return (s, found)
  | none => return (s, some q)

/-- The loop over the tokens; it also stops at the depth counted beforehand. -/
def walk (v : Files) (news : Nat → Nat) (mdepth : Nat) :
    List Str → Nat → State → Nat → Option (State × Option Nat)
  | [], _, s, p => some (s, some p)
  | tok :: toks, depth, s, p => do
    let (s, found) ← walkStep v s news (2 * depth + 1) p tok
    match found with
    | none => return (s, none)
    | some q =>
      if depth + 1 = mdepth then return (s, some q)
      walk v news mdepth toks (depth + 1) s q

def lookupVfsI (v : Files) (s : State) (news : Nat → Nat) (pth : Str) :
    Option (State × Option Nat) := do
  let mdepth := pth.count 0x2f
  -- `/` is not mounted: the processor halts
  let sb ← v.rootMnt.bind v.mntSb
  let (s, found) ← take v.sDev s v.read (some sb) (v.sRoot sb) (news 0)
  let p ← found
  walk v news mdepth (tokens [0x2f] pth) 0 s p

/-! ## Canonical paths and the working directory -/

def segsMax : Nat := 63

/-- The segment stack, top first; `none` is a store past the end of the array. -/
def canonSegs : List Str → List Str → Option (List Str)
  | [], segs => some segs.reverse
  | tok :: toks, segs =>
    if tok = [0x2e] then canonSegs toks segs
    else if tok = [0x2e, 0x2e] then canonSegs toks segs.tail
    else if segs.length < segsMax then canonSegs toks (tok :: segs)
    else none

/-- The joining loop into a buffer of `n` bytes; an inner `none` is its null return. -/
def canonJoin (n : Nat) : List Str → Str → Option Str
  | [], buf => some buf
  | seg :: segs, buf =>
    if n < buf.length + seg.length + 1 then none
    else if segs = [] then some (buf ++ seg)
    else canonJoin n segs (buf ++ seg ++ [0x2f])

def pathCanon (cwd path : Str) : Option (Option Str) := do
  let n := path.length + cwd.length + 10
  let tmp := if path.head? = some 0x2f then path else cwd ++ [0x2f] ++ path
  let segs ← canonSegs (tokens [0x2f] tmp) []
  return canonJoin n segs [0x2f]

/-- A null canonical path would be dereferenced. -/
def lookupVfs (v : Files) (s : State) (news : Nat → Nat) (cwd path : Str) :
    Option (State × Option Nat) := do
  let pth ← ← pathCanon cwd path
  lookupVfsI v s news pth

/-- The path cut at its last slash, and what the second call returns: the saved name
    behind it. `none` is a store through a null pointer. -/
def getComps (path : Str) : Option (Str × Option Str) :=
  match strrchr path 0x2f with
  | none => some (path, none)
  | some (before, []) => do
    -- a slash at the end is cut off first
    let (before, name) ← strrchr before 0x2f
    return (before, some name)
  | some (before, name) => some (before, some name)

def lookBs (v : Files) (s : State) (news : Nat → Nat) (cwd : Str) (path : Option Str) :
    Option (State × Option Nat × Option Str) := do
  match path with
  | none => return (s, none, none)
  | some path =>
    let tmp ← ← pathCanon cwd path
    if tmp = [0x2f] then
      let (s, found) ← lookupVfsI v s news [0x2f]
      return (s, found, some [0x2f])
    let (b, name) ← getComps tmp
    let (s, found) ← lookupVfsI v s news (if b = [] then [0x2f] else b)
    return (s, found, name)

structure Cwd where
  cdir : Inode
  cdirname : Str

def eFault : Int := -14
def eNoent : Int := -2
def eNotdir : Int := -20

def fsysChdir (v : Files) (s : State) (news : Nat → Nat) (d : Cwd) (path : Option Str) :
    Option (State × Cwd × Int) := do
  match path with
  | none => return (s, d, eFault)
  | some path =>
    -- a null canonical path would be dereferenced
    let pth ← ← pathCanon d.cdirname path
    let (s, found) ← lookupVfsI v s news pth
    match found with
    | none => return (s, d, eNoent)
    | some p =>
      let n := s.cache.inode p
      if isDir n.mode then
        let s ← drop s p
        return (s, ⟨n, pth⟩, 0)
      else return (s, d, eNotdir)

end Vfs
