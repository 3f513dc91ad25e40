import NoobOs.Ext2.ReadIno

/-!
`ext2_lread` of `ext2.c`. The block pointer is looked up in the `struct ext2_inode`
on the stack by an 8-bit index, so an index past the array finds the fields behind
it and then whatever the stack holds above the struct.
-/
namespace Ext2
open ByteMemory

structure FileInode where
  ino : UInt32
  size : UInt32

/-- The inode record on the stack and what lies above it. -/
def stackAt (ein : List UInt8) (frame : Mem) : Mem := fun i => ein.getD i (frame i)

def iBlock : Nat := 40

def iBlockAt (ein : Mem) (blockptr : UInt8) : UInt32 :=
  UInt32.ofNat (load32 ein (iBlock + 4 * blockptr.toNat))

/-- The `while` loop: `read` and the bytes copied to the caller so far. Each round
    copies at least one byte, so `siz` rounds are enough. -/
def lreadLoop (disk : Mem) (sb : SuperBlock) (ein : Mem) (off siz : UInt32) :
    Nat → Mem → UInt32 → List UInt8 → UInt32 × List UInt8
  | 0, _, read, data => (read, data)
  | fuel + 1, buff, read, data =>
    if read < siz then
      let pos := off + read
      let boff := pos % sb.sBlocksize
      let blockptr := (pos / sb.sBlocksize).toUInt8
      let blk := iBlockAt ein blockptr
      if blk = 0 then (read, data)
      else
        let buff := ext2Read disk sb blk 1 buff
        let dcount := sb.sBlocksize - boff
        let dcount := if dcount > siz - read then siz - read else dcount
        lreadLoop disk sb ein off siz fuel buff (read + dcount)
          (data ++ bytes buff boff.toNat dcount.toNat)
    else (read, data)

/-- What `ext2_lread` returns, the bytes it put in `buf`, and `file->position`. -/
structure Lread where
  ret : UInt32
  data : List UInt8
  position : UInt32
  deriving DecidableEq

def ext2Lread (disk frame : Mem) (sb : SuperBlock) (inode : FileInode) (position siz : UInt32) :
    Option Lread :=
  let off := position
  if off > inode.size then some ⟨0, [], position⟩
  else do
    let siz := if off + siz > inode.size then inode.size - off else siz
    let ein ← ext2ReadIno disk sb inode.ino
    let (read, data) := lreadLoop disk sb (stackAt ein frame) off siz siz.toNat zeroed 0 []
    return ⟨read, data, position + read⟩

/-! ## What the loop copies -/

section Loop
variable {disk : Mem} {sb : SuperBlock} {ein : Mem}

def codeBlock (sb : SuperBlock) (ein : Mem) (x : Nat) : Nat :=
  load32 ein (iBlock + 4 * (x / sb.bs % 256))

def codeByte (disk : Mem) (sb : SuperBlock) (ein : Mem) (x : Nat) : Option UInt8 :=
  if codeBlock sb ein x = 0 then none
  else some (if x % sb.bs < reach then disk ((codeBlock sb ein x * sb.bs) % 2 ^ 32 + x % sb.bs)
  else 0)

theorem inside_block {bs x i : Nat} (inside : x % bs + i < bs) :
    (x + i) / bs = x / bs ∧ (x + i) % bs = x % bs + i := by
  have whole := Nat.div_add_mod x bs
  have positive : 0 < bs := by omega
  have shape : x + i = bs * (x / bs) + (x % bs + i) := by omega
  rw [shape, Nat.mul_add_div positive, Nat.mul_add_mod, Nat.div_eq_of_lt inside,
    Nat.mod_eq_of_lt inside]
  exact ⟨rfl, rfl⟩

theorem iBlockAt_toNat (x : UInt32) (m : Mounted sb) :
    (iBlockAt ein (x / sb.sBlocksize).toUInt8).toNat = codeBlock sb ein x.toNat := by
  have small := load32_bound ein (iBlock + 4 * (x / sb.sBlocksize).toUInt8.toNat)
  rw [iBlockAt, UInt32.toNat_ofNat', Nat.mod_eq_of_lt small, UInt32.toNat_toUInt8,
    UInt32.toNat_div, m.same]
  rfl

/-- One round copies a chunk that stays in one block, byte by byte as `codeByte` says. -/
theorem chunk_bytes (m : Mounted sb) {buff : Mem} (tail : ∀ i, reach ≤ i → i < sb.bs → buff i = 0)
    {pos : UInt32}
    (mapped : codeBlock sb ein pos.toNat ≠ 0) {count : Nat}
    (inside : pos.toNat % sb.bs + count ≤ sb.bs) :
    (bytes (ext2Read disk sb (iBlockAt ein (pos / sb.sBlocksize).toUInt8) 1 buff)
    (pos.toNat % sb.bs) count).map some =
      (List.range count).map fun i => codeByte disk sb ein (pos.toNat + i) := by
  rw [bytes, List.map_map]
  apply List.map_congr_left
  intro i member
  have below := List.mem_range.mp member
  obtain ⟨sameBlock, offset⟩ := inside_block (show pos.toNat % sb.bs + i < sb.bs by omega)
  have pointer : codeBlock sb ein (pos.toNat + i) = codeBlock sb ein pos.toNat := by
    rw [codeBlock, sameBlock, codeBlock]
  rw [Function.comp_apply, ext2Read_block m disk buff _ (by omega), codeByte,
    pointer, if_neg mapped,
    offset, iBlockAt_toNat pos m]
  split
  · rfl
  · next unread => rw [tail _ (by omega) (by omega)]

/-- What a copy loop that stopped has done: bytes for the offsets before it, and no byte
    for the one it stopped at. -/
structure Copied (byte : Nat → Option UInt8) (start wanted : Nat) (data : List UInt8) : Prop where
  most : data.length ≤ wanted
  each : data.map some = (List.range data.length).map fun i => byte (start + i)
  stopped : data.length < wanted → byte (start + data.length) = none

theorem Copied.chunk {byte : Nat → Option UInt8} {start count wanted : Nat}
    {first rest : List UInt8}
    (length : first.length = count)
    (each : first.map some = (List.range count).map fun i => byte (start + i))
    (copied : Copied byte (start + count) (wanted - count) rest) (fits : count ≤ wanted) :
    Copied byte start wanted (first ++ rest) := by
  have most := copied.most
  constructor
  · rw [List.length_append]
    omega
  · rw [List.map_append, each, copied.each, List.length_append, length, List.range_add,
      List.map_append,
      List.map_map]
    simp only [Function.comp_def, Nat.add_assoc]
  · intro short
    rw [List.length_append] at short ⊢
    rw [length, ← Nat.add_assoc]
    exact copied.stopped (by omega)

theorem ext2Read_tail (m : Mounted sb) {buff : Mem} (tail : ∀ i, reach ≤ i → i < sb.bs → buff i = 0)
    (blk : UInt32) : ∀ i, reach ≤ i → i < sb.bs → ext2Read disk sb blk 1 buff i = 0 := by
  intro i unread inside
  rw [ext2Read_block m disk buff blk inside, if_neg (by omega)]
  exact tail i unread inside

theorem dcount_toNat (m : Mounted sb) (pos : UInt32) {read siz : UInt32} (before : read < siz) :
    (pos % sb.sBlocksize).toNat = pos.toNat % sb.bs ∧
    (if sb.sBlocksize - pos % sb.sBlocksize > siz - read then siz - read
      else sb.sBlocksize - pos % sb.sBlocksize).toNat =
      min (sb.bs - pos.toNat % sb.bs) (siz.toNat - read.toNat) := by
  have boff : (pos % sb.sBlocksize).toNat = pos.toNat % sb.bs := by
    rw [UInt32.toNat_mod, m.same]
    rfl
  have offset := Nat.mod_lt pos.toNat m.bs_pos
  have block : (sb.sBlocksize - pos % sb.sBlocksize).toNat = sb.bs - pos.toNat % sb.bs := by
    rw [UInt32.toNat_sub_of_le, boff, m.same]
    · rfl
    · rw [UInt32.le_iff_toNat_le, boff, m.same]
      exact Nat.le_of_lt offset
  have left : (siz - read).toNat = siz.toNat - read.toNat :=
    UInt32.toNat_sub_of_le _ _ (UInt32.le_of_lt before)
  refine ⟨boff, ?_⟩
  split
  · next more =>
    rw [gt_iff_lt, UInt32.lt_iff_toNat_lt, left, block] at more
    rw [left]
    omega
  · next more =>
    rw [gt_iff_lt, UInt32.lt_iff_toNat_lt, left, block] at more
    rw [block]
    omega

/-- The loop from `read` on: what it adds to the bytes it has. -/
theorem lreadLoop_copies (m : Mounted sb) {off siz : UInt32}
    (noWrap : off.toNat + siz.toNat < 2 ^ 32)
    (fuel : Nat) {buff : Mem} (tail : ∀ i, reach ≤ i → i < sb.bs → buff i = 0) {read : UInt32}
    (within : read.toNat ≤ siz.toNat) (enough : siz.toNat ≤ read.toNat + fuel) (data : List UInt8) :
    ∃ more, Copied (codeByte disk sb ein) (off.toNat + read.toNat) (siz.toNat - read.toNat) more ∧
      ∃ last, lreadLoop disk sb ein off siz fuel buff read data = (last, data ++ more) ∧
        last.toNat = read.toNat + more.length := by
  induction fuel generalizing buff read data with
  | zero =>
    refine ⟨[], ⟨by simp, by simp, ?_⟩, read, by simp [lreadLoop], by simp⟩
    intro short
    simp only [List.length_nil] at short
    omega
  | succ fuel ih =>
    unfold lreadLoop
    by_cases before : read < siz
    · have below := UInt32.lt_iff_toNat_lt.mp before
      have pos : (off + read).toNat = off.toNat + read.toNat := by
        rw [UInt32.toNat_add, Nat.mod_eq_of_lt (by omega)]
      have pointer : (iBlockAt ein _).toNat = _ := iBlockAt_toNat (off + read) m
      rw [if_pos before]
      by_cases hole : iBlockAt ein ((off + read) / sb.sBlocksize).toUInt8 = 0
      · simp only [if_pos hole]
        refine ⟨[], ⟨by simp, by simp, ?_⟩, read, by simp, by simp⟩
        intro _
        rw [hole, pos] at pointer
        have zero : codeBlock sb ein (off.toNat + read.toNat) = 0 := pointer.symm
        rw [List.length_nil, Nat.add_zero, codeByte, if_pos zero]
      · simp only [if_neg hole]
        have mapped : codeBlock sb ein (off + read).toNat ≠ 0 := by
          rw [← pointer]
          exact fun zero => hole (UInt32.toNat_inj.mp zero)
        obtain ⟨boff, dcount⟩ := dcount_toNat m (off + read) before
        rw [boff]
        generalize (if sb.sBlocksize - (off + read) % sb.sBlocksize > siz - read then siz - read
          else sb.sBlocksize - (off + read) % sb.sBlocksize) = count at dcount ⊢
        have offset := Nat.mod_lt (off + read).toNat m.bs_pos
        have next : (read + count).toNat = read.toNat + count.toNat := by
          rw [UInt32.toNat_add, Nat.mod_eq_of_lt (by omega)]
        have chunk : (bytes (ext2Read disk sb _ 1 buff) _ _).map some = _ :=
          chunk_bytes m tail mapped (show _ % sb.bs + count.toNat ≤ sb.bs by omega)
        obtain ⟨more, copied, last, run, total⟩ := ih (ext2Read_tail m tail _)
          (show (read + count).toNat ≤ siz.toNat by omega) (by omega)
            (data ++ bytes _ _ count.toNat)
        have length :
          (bytes (ext2Read disk sb (iBlockAt ein ((off + read) / sb.sBlocksize).toUInt8) 1 buff)
            ((off + read).toNat % sb.bs) count.toNat).length = count.toNat := by simp [bytes]
        refine ⟨_ ++ more, Copied.chunk length ?_ ?_ (by omega), last, ?_, ?_⟩
        · rw [chunk, pos]
        · rw [next, ← Nat.add_assoc] at copied
          rw [Nat.sub_sub]
          exact copied
        · rw [run, List.append_assoc]
        · rw [total, next, List.length_append, length, Nat.add_assoc]
    · rw [if_neg before]
      have done := UInt32.lt_iff_toNat_lt.not.mp before
      refine ⟨[], ⟨by simp, by simp, ?_⟩, read, by simp, by simp⟩
      intro short
      simp only [List.length_nil] at short
      omega

def FileInode.readable (inode : FileInode) (position siz : UInt32) : Nat :=
  min siz.toNat (inode.size.toNat - position.toNat)

/-- `siz` after the test against the size; the sum in the test has 32 bits. -/
def clip (size position siz : UInt32) : UInt32 :=
  if position + siz > size then size - position else siz

/-- `ext2_lread` with `ein` as `ext2_read_ino` has filled it. -/
def lreadOf (disk : Mem) (sb : SuperBlock) (ein : Mem) (size position siz : UInt32) : Lread :=
  if position > size then ⟨0, [], position⟩
  else
    let siz := clip size position siz
    let (read, data) := lreadLoop disk sb ein position siz siz.toNat zeroed 0 []
    ⟨read, data, position + read⟩

theorem ext2Lread_eq {inode : FileInode} {record : List UInt8}
    (read : ext2ReadIno disk sb inode.ino = some record)
    (frame : Mem) (position siz : UInt32) :
    ext2Lread disk frame sb inode position siz =
      some (lreadOf disk sb (stackAt record frame) inode.size position siz) := by
  unfold ext2Lread lreadOf
  by_cases past : position > inode.size
  · simp only [if_pos past]
  · simp only [if_neg past, read, Option.bind_eq_bind, Option.bind_some]
    rfl

theorem lreadOf_inside {size position : UInt32} (inFile : position.toNat ≤ size.toNat)
    (disk ein : Mem) (siz : UInt32) :
    lreadOf disk sb ein size position siz =
      let siz := clip size position siz
      let out := lreadLoop disk sb ein position siz siz.toNat zeroed 0 []
      ⟨out.1, out.2, position + out.1⟩ := by
  have start : ¬ position > size := by
    rw [gt_iff_lt, UInt32.lt_iff_toNat_lt]
    omega
  rw [lreadOf, if_neg start]

theorem clip_toNat {size position siz : UInt32} (inFile : position.toNat ≤ size.toNat)
    (noWrap : position.toNat + siz.toNat < 2 ^ 32) :
    (clip size position siz).toNat = min siz.toNat (size.toNat - position.toNat) := by
  have sum : (position + siz).toNat = position.toNat + siz.toNat := by
    rw [UInt32.toNat_add, Nat.mod_eq_of_lt noWrap]
  have rest : (size - position).toNat = size.toNat - position.toNat :=
    UInt32.toNat_sub_of_le _ _ (UInt32.le_iff_toNat_le.mpr inFile)
  unfold clip
  split
  · next more =>
    rw [gt_iff_lt, UInt32.lt_iff_toNat_lt, sum] at more
    rw [rest]
    omega
  · next more =>
    rw [gt_iff_lt, UInt32.lt_iff_toNat_lt, sum] at more
    omega

theorem lreadOf_copies (m : Mounted sb) (disk ein : Mem) {size position siz : UInt32}
    (inFile : position.toNat ≤ size.toNat) (noWrap : position.toNat + siz.toNat < 2 ^ 32) :
    ∃ data last, Copied (codeByte disk sb ein) position.toNat
    (min siz.toNat (size.toNat - position.toNat)) data ∧
      last.toNat = data.length ∧
      lreadOf disk sb ein size position siz = ⟨last, data, position + last⟩ := by
  have clipped := clip_toNat inFile noWrap
  have fits : position.toNat + (clip size position siz).toNat < 2 ^ 32 := by omega
  have none' : (0 : UInt32).toNat ≤ (clip size position siz).toNat := Nat.zero_le _
  have untouched : ∀ i, reach ≤ i → i < sb.bs → zeroed i = 0 := fun _ _ _ => rfl
  obtain ⟨data, copied, last, run, total⟩ : ∃ data, Copied (codeByte disk sb ein) _ _ data ∧ _ :=
    lreadLoop_copies m fits (clip size position siz).toNat untouched none' (Nat.le_add_left _ _) []
  refine ⟨data, last, ?_, by simpa using total, ?_⟩
  · simpa [clipped] using copied
  · rw [lreadOf_inside inFile]
    simp only [run, List.nil_append]

theorem ext2Lread_copies (m : Mounted sb) {inode : FileInode} {position siz : UInt32}
    (inFile : position.toNat ≤ inode.size.toNat) (noWrap : position.toNat + siz.toNat < 2 ^ 32)
    {record : List UInt8} (read : ext2ReadIno disk sb inode.ino = some record) (frame : Mem) :
    ∃ data last, Copied (codeByte disk sb (stackAt record frame)) position.toNat
        (inode.readable position siz) data ∧ last.toNat = data.length ∧
      ext2Lread disk frame sb inode position siz = some ⟨last, data, position + last⟩ := by
  obtain ⟨data, last, copied, total, run⟩ :=
    lreadOf_copies m disk (stackAt record frame) inFile noWrap
  exact ⟨data, last, copied, total, by rw [ext2Lread_eq read, run]⟩

end Loop

end Ext2
