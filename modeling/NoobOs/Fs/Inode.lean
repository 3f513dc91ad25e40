import NoobOs.KLib.Lists
import NoobOs.Crypt.Murmur

/-!
The inode cache of `inode.c`: 64 hash chains of inodes in use and a ring of idle
ones. An inode is named by its address, so `container_of` is the identity; a null
pointer is `none`. A result `none` is a null dereference or a loop that never ends.
-/
namespace InodeCache
open RingList HookedChain Lists Crypt

def hitabMax : Nat := 64
def inMount : Nat := 2

def ilru : Nat := 0

/-- More steps than a 32-bit address space has inodes. -/
def scanFuel : Nat := 2 ^ 32

structure Inode where
  mode : Nat
  size : Nat
  iflags : Nat
  ino : Nat
  dev : Nat
  rdev : Nat
  uid : Nat
  gid : Nat
  refs : Nat
  sb : Option Nat
  ops : Option Nat
  fops : Option Nat
  mnt : Option Nat
  deriving DecidableEq

def Inode.zero : Inode := ⟨0, 0, 0, 0, 0, 0, 0, 0, 0, none, none, none, none⟩

structure Image where
  node : Inode
  hnext : Option Nat
  pprev : Option (Slot Nat Nat)
  next : Option Nat
  prev : Option Nat

structure Cache where
  inode : Nat → Inode
  lru : Links Nat
  hash : Chains Nat Nat

def Cache.image (c : Cache) (p : Nat) : Image :=
  ⟨c.inode p, c.hash.next p, c.hash.pprev p, c.lru.next p, c.lru.prev p⟩

def Cache.setNode (c : Cache) (p : Nat) (n : Inode) : Cache :=
  { c with inode := Function.update c.inode p n }

def Cache.setImage (c : Cache) (p : Nat) (i : Image) : Cache where
  inode := Function.update c.inode p i.node
  lru := (c.lru.setNext p i.next).setPrev p i.prev
  hash := (c.hash.set (.next p) i.hnext).setPprev p i.pprev

structure DiskFields where
  mode : Nat
  size : Nat
  uid : Nat
  gid : Nat
  ops : Option Nat
  fops : Option Nat

/-- The `read_inode` callbacks: `ext2_inoder` fills fields from the on-disk inode,
    `dev_inoder` copies a registered inode over the whole struct, links included. -/
inductive ReadInode where
  | absent
  | ext2 (disk : Nat → DiskFields)
  | dev (devnode : Image) (entry : List (Option Image))

def ext2Inoder (disk : Nat → DiskFields) (i : Image) : Image :=
  let d := disk i.node.ino
  { i with node := { i.node with
      mode := d.mode, size := d.size, uid := d.uid, gid := d.gid, ops := d.ops, fops := d.fops } }

def devInoder (devnode : Image) (entry : List (Option Image)) (i : Image) : Image :=
  if i.node.ino = 0 then devnode
  else
    match entry.find? fun e => e.any fun n => n.node.ino = i.node.ino with
    | some (some n) => n
    | _ => i

def ReadInode.call : ReadInode → Image → Image
  | .absent, i => i
  | .ext2 disk, i => ext2Inoder disk i
  | .dev devnode entry, i => devInoder devnode entry i

/-- The superblocks, by address: their device number and their `read_inode`. -/
structure SuperBlocks where
  sDev : Nat → Nat
  readInode : Nat → ReadInode

def ihash (dev ino : Nat) : Nat :=
  (murmur3 (fun i => if i = 0 then UInt8.ofNat dev else UInt8.ofNat ino) 2
    (UInt32.ofNat (dev + ino))).toNat % hitabMax

def Inode.matches (sbs : SuperBlocks) (n : Inode) (sb dev ino : Nat) : Bool :=
  sbs.sDev sb = dev ∧ n.ino = ino

/-- The walk along one hash chain. -/
def scanHash (sbs : SuperBlocks) (c : Cache) (dev ino : Nat) :
    Nat → Option Nat → Option (Option Nat)
  | 0, _ => none
  | _ + 1, none => some none
  | fuel + 1, some k => do
    let sb ← (c.inode k).sb
    if (c.inode k).matches sbs sb dev ino then return some k
    scanHash sbs c dev ino fuel (c.hash.next k)

/-- The `do … while` along the ring, the head included: its `sb` is null. -/
def scanLru (sbs : SuperBlocks) (c : Cache) (dev ino : Nat) : Nat → Nat → Option (Option Nat)
  | 0, _ => none
  | fuel + 1, m =>
    if (c.inode m).sb.any fun sb => (c.inode m).matches sbs sb dev ino then some (some m)
    else do
      let next ← c.lru.next m
      if next = ilru then return none
      scanLru sbs c dev ino fuel next

def incRefs (c : Cache) (p : Nat) : Cache :=
  c.setNode p { c.inode p with refs := ((c.inode p).refs + 1) % 2 ^ 16 }

/-- The miss: a fresh inode at `new`, filled by the superblock's `read_inode`. -/
def readNew (sbs : SuperBlocks) (c : Cache) (sb fsino new : Nat) : Cache :=
  let c := c.setImage new ⟨Inode.zero, none, none, none, none⟩
  let c := c.setNode new
    { c.inode new with ino := fsino, dev := sbs.sDev sb, sb := some sb, refs := 1 }
  let c := { c with lru := initList c.lru new }
  let c := c.setImage new ((sbs.readInode sb).call (c.image new))
  let c := c.setNode new
    { c.inode new with ino := fsino, dev := sbs.sDev sb, sb := some sb, refs := 1 }
  { c with hash := hlistAddHead c.hash new (ihash (sbs.sDev sb) fsino) }

/-- `new` is the address `malloc` returns should the inode not be cached. -/
def iget (sbs : SuperBlocks) (c : Cache) (sb : Option Nat) (fsino new : Nat) :
    Option (Cache × Option Nat) := do
  match sb with
  | none => return (c, none)
  | some sb =>
    let dev := sbs.sDev sb
    let h := ihash dev fsino
    match ← scanHash sbs c dev fsino scanFuel (c.hash.first h) with
    | some p => return (incRefs c p, some p)
    | none =>
      match ← scanLru sbs c dev fsino scanFuel ilru with
      | some p =>
        let lru ← if (c.inode p).refs = 0 then listDel c.lru p else some c.lru
        let c := incRefs { c with lru := lru } p
        return ({ c with hash := hlistAddHead c.hash p h }, some p)
      | none => return (readNew sbs c sb fsino new, some new)

/-- `free_inode`: neither `put_inode` callback touches the list nodes. -/
def freeInode (c : Cache) (p : Nat) : Option Cache := do
  let lru ← listDel c.lru p
  return { c with lru := lru }

/-- No filesystem has a `write_inode`, so a dirty inode is not written back. -/
def iput (c : Cache) (p : Nat) : Option Cache :=
  if (c.inode p).refs = 0 then some c
  else do
    let c := c.setNode p { c.inode p with refs := (c.inode p).refs - 1 }
    if 0 < (c.inode p).refs then return c
    let lru ← listAdd c.lru p ilru
    let hash ← hlistDel c.hash p
    return { c with lru := lru, hash := hash }

def imount (c : Cache) (p mnt : Nat) : Cache :=
  c.setNode p { c.inode p with iflags := (c.inode p).iflags ||| inMount, mnt := some mnt }

/-- The cache and the addresses it freed, in order. -/
def purgeLru : Nat → Cache → Option (Cache × List Nat)
  | 0, _ => none
  | fuel + 1, c => do
    let k ← c.lru.next ilru
    if k = ilru then return (c, [])
    let c ← freeInode c k
    let (c, freed) ← purgeLru fuel c
    return (c, k :: freed)

end InodeCache
