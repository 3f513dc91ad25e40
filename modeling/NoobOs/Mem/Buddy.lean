import NoobOs.Lib.ByteMemory
import NoobOs.Lib.LinkedChain
import Mathlib.Logic.Function.Basic

/-!
The kernel allocator of `mem.c`. Free lists are threaded through the managed
memory itself: the first word of a free block is its `next` pointer. Sizes and
addresses are 32-bit; `% 2 ^ 32` stands where the C arithmetic can wrap.
`none` is a loop that never returns.
-/
namespace Buddy
open ByteMemory LinkedChain

def maxOrd : Nat := 20
def minOrd : Nat := 5
def hdrMagic : Nat := 0x8b6a96a2
def extMemBase : Nat := 0x00200000
def extMemSiz : Nat := 2 ^ 20

/-- `sizeof(struct alloc_hdr)`: packed size, magic, ord and pad. -/
def hdrSiz : Nat := 10

/-- More steps than a 32-bit address space has cells: a longer walk is a cycle. -/
def walkFuel : Nat := 2 ^ 32

/-- `ALIGN_UP(x, a)` on 32-bit operands. -/
def alignUp (x a : Nat) : Nat := ((x + a - 1) % 2 ^ 32) &&& (2 ^ 32 - a)

/-- `struct alloc` with the memory it manages and the three usage counters. -/
structure Heap where
  mem : Mem
  base : Nat
  siz : Nat
  free : Nat → Nat
  usedMem : Nat
  usedTruly : Nat
  usedMax : Nat

/-- What a `struct block **` addresses: an entry of `free`, or a block's `next` word. -/
inductive Link where
  | head (ord : Nat)
  | next (block : Nat)

def Heap.get (h : Heap) : Link → Nat
  | .head k => h.free k
  | .next b => load32 h.mem b

def Heap.set (h : Heap) : Link → Nat → Heap
  | .head k, p => { h with free := Function.update h.free k p }
  | .next b, p => { h with mem := store32 h.mem b p }

def ordSiz (ord : Nat) : Nat := 2 ^ ord

/-- The doubling loop. Once `s` has been shifted out of its 32 bits it stays 0. -/
def size2ordFrom : Nat → Nat → Nat → Nat → Option Nat
  | 0, _, _, _ => none
  | fuel + 1, s, ord, siz =>
    if s < siz then size2ordFrom fuel (s * 2 % 2 ^ 32) (ord + 1) siz else some ord

def size2ord (siz : Nat) : Option Nat := size2ordFrom 64 (2 ^ minOrd) minOrd siz

def removeBlockFrom : Nat → Heap → Link → Nat → Option (Heap × Bool)
  | 0, _, _, _ => none
  | fuel + 1, h, cur, target =>
    if h.get cur = 0 then some (h, false)
    else if h.get cur = target then some (h.set cur (load32 h.mem target), true)
    else removeBlockFrom fuel h (.next (h.get cur)) target

def removeBlock (h : Heap) (ord target : Nat) : Option (Heap × Bool) :=
  removeBlockFrom walkFuel h (.head ord) target

def insertBlockFrom : Nat → Heap → Link → Nat → Option Heap
  | 0, _, _, _ => none
  | fuel + 1, h, cur, b =>
    if h.get cur ≠ 0 ∧ h.get cur < b then insertBlockFrom fuel h (.next (h.get cur)) b
    else some ((h.set (.next b) (h.get cur)).set cur b)

def insertBlock (h : Heap) (ord b : Nat) : Option Heap :=
  insertBlockFrom walkFuel h (.head ord) b

/-- `while (((size_t)1 << max_ord) > siz) max_ord--`. -/
def maxOrdFor (siz : Nat) : Nat → Nat
  | 0 => 0
  | k + 1 => if siz < 2 ^ (k + 1) then maxOrdFor siz k else k + 1

def kmInit (m : Mem) (mem siz : Nat) : Heap :=
  let top := maxOrdFor siz maxOrd
  let maxBlock := 2 ^ top
  let aligned := alignUp mem maxBlock
  let adjust := (aligned + 2 ^ 32 - mem) % 2 ^ 32
  if siz ≤ adjust then ⟨m, 0, 0, fun _ => 0, 0, 0, 0⟩
  else
    let siz := (siz - adjust) &&& (2 ^ 32 - maxBlock)
    ⟨store32 m aligned 0, aligned, siz, Function.update (fun _ => 0) top aligned, 0, 0, 0⟩

def kmallocInit (m : Mem) : Heap := kmInit m extMemBase extMemSiz

/-- `while (cur <= MAX_ORD && a->free[cur] == NULL) cur++`, at most `n` rounds. -/
def firstFree (h : Heap) : Nat → Nat → Nat
  | 0, cur => cur
  | n + 1, cur => if cur ≤ maxOrd ∧ h.free cur = 0 then firstFree h n (cur + 1) else cur

/-- `while (cur > ord)`: put the upper half of the block at `bl` on the list below. -/
def splitDown (h : Heap) (bl ord : Nat) : Nat → Option Heap
  | 0 => some h
  | cur + 1 =>
    if ord < cur + 1 then do
      let h' ← insertBlock h cur (bl + ordSiz cur)
      splitDown h' bl ord cur
    else some h

def writeHdr (h : Heap) (bl ord siz : Nat) : Heap :=
  let m := store8 h.mem (bl + 8) (UInt8.ofNat ord)
  { h with mem := store32 (store32 m (bl + 4) hdrMagic) bl siz }

/-- The counters at the start of `km_alloc`, before it knows whether a block exists. -/
def charge (h : Heap) (ord siz : Nat) : Heap :=
  let usedMem := (h.usedMem + ordSiz ord) % 2 ^ 32
  { h with
    usedMem := usedMem
    usedTruly := (h.usedTruly + siz) % 2 ^ 32
    usedMax := if h.usedMax < usedMem then usedMem else h.usedMax }

def refund (h : Heap) (ord siz : Nat) : Heap :=
  { h with
    usedMem := (h.usedMem + 2 ^ 32 - ordSiz ord) % 2 ^ 32
    usedTruly := (h.usedTruly + 2 ^ 32 - siz) % 2 ^ 32 }

/-- The pointer is 0 when the request fails. -/
def kmAlloc (h : Heap) (siz : Nat) : Option (Heap × Nat) := do
  let siz := alignUp siz 4
  let total := (siz + hdrSiz) % 2 ^ 32
  let ord ← size2ord total
  let h := charge h ord siz
  if maxOrd < ord then return (h, 0)
  let cur := firstFree h (maxOrd + 1) ord
  if maxOrd < cur then return (h, 0)
  let bl := h.free cur
  let h ← splitDown (h.set (.head cur) (load32 h.mem bl)) bl ord cur
  return (writeHdr h bl ord siz, bl + hdrSiz)

/-- The coalescing loop of `km_free`, at most `n` rounds. -/
def coalesce : Nat → Heap → Nat → Nat → Option (Heap × Nat × Nat)
  | 0, h, off, ord => some (h, off, ord)
  | n + 1, h, off, ord =>
    if ord < maxOrd then
      let boff := off ^^^ ordSiz ord
      if h.siz ≤ boff then some (h, off, ord)
      else do
        let (h', found) ← removeBlock h ord (h.base + boff)
        if found then coalesce n h' (if boff < off then boff else off) (ord + 1)
        else some (h', off, ord)
    else some (h, off, ord)

def kmFree (h : Heap) (ptr : Nat) : Option Heap :=
  if ptr = 0 then some h
  else
    let hdr := ptr - hdrSiz
    -- a wrong magic only prints a complaint
    if load32 h.mem (hdr + 4) ≠ hdrMagic then some h
    else do
      let ord := (h.mem (hdr + 8)).toNat
      let h := refund h ord (load32 h.mem hdr)
      let (h, off, ord) ← coalesce maxOrd h (hdr - h.base) ord
      insertBlock { h with mem := store32 h.mem (hdr + 4) 0 } ord (h.base + off)

/-- The addresses on one free list, read through the `next` words. -/
def freeList (h : Heap) (ord : Nat) : Option (List Nat) :=
  walk (load32 h.mem) walkFuel (h.free ord)

end Buddy
