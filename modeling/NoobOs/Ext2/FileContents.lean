import NoobOs.Ext2.Lread
import Mathlib.Tactic.IntervalCases

/-!
The contents the ext2 format gives a file, and for which inodes and requests
`ext2_lread` returns them. The code has direct blocks only, takes a hole for the
end of the file, and cuts byte addresses to 32 bits.
-/
namespace Ext2
open ByteMemory

/-- An inode with its block map: twelve direct pointers, then a single, a double and a
    triple indirect one. -/
structure Ext2Inode extends FileInode where
  map : Fin 15 → UInt32

def Ext2Inode.pointer (inode : Ext2Inode) (k : Nat) : Nat :=
  if h : k < 15 then (inode.map ⟨k, h⟩).toNat else 0

/-! ## The format -/

/-- Down `level` tables of pointers; a zero pointer on the way is a hole. -/
def indirect (disk : Mem) (bs : Nat) : Nat → Nat → Nat → Nat
  | 0, blk, _ => blk
  | level + 1, blk, i =>
    if blk = 0 then 0
    else indirect disk bs level (load32 disk (blk * bs + 4 * (i / (bs / 4) ^ level)))
      (i % (bs / 4) ^ level)

/-- The root pointer, the number of tables below it and the index in them, for block `b`. -/
def mapRoot (bs : Nat) (b : Nat) : Nat × Nat × Nat :=
  let p := bs / 4
  if b < 12 then (b, 0, 0)
  else if b - 12 < p then (12, 1, b - 12)
  else if b - 12 - p < p ^ 2 then (13, 2, b - 12 - p)
  else (14, 3, b - 12 - p - p ^ 2)

def blockOf (disk : Mem) (bs : Nat) (inode : Ext2Inode) (b : Nat) : Nat :=
  let (root, level, i) := mapRoot bs b
  indirect disk bs level (inode.pointer root) i

def blockByte (disk : Mem) (bs blk off : Nat) : UInt8 :=
  if blk = 0 then 0 else disk (blk * bs + off)

def fileByte (disk : Mem) (bs : Nat) (inode : Ext2Inode) (x : Nat) : UInt8 :=
  blockByte disk bs (blockOf disk bs inode (x / bs)) (x % bs)

def iSize : Nat := 4

/-- The record at an address is that of the inode, its size and its map. -/
structure Carries (disk : Mem) (addr : Nat) (inode : Ext2Inode) : Prop where
  size : load32 disk (addr + iSize) = inode.size.toNat
  map : ∀ k < 15, load32 disk (addr + (iBlock + 4 * k)) = inode.pointer k

/-- The bytes of the file from the position on, as many as there are, and the position
    moved by as much. -/
def ReadsContents (disk frame : Mem) (sb : SuperBlock) (inode : Ext2Inode) (position siz : UInt32) :
    Prop :=
  let len := inode.readable position siz
  ∃ last : UInt32, last.toNat = len ∧
    ext2Lread disk frame sb inode.toFileInode position siz = some ⟨last,
      (List.range len).map fun i => fileByte disk sb.bs inode (position.toNat + i), position + last⟩

/-- An offset the code reads right: in a direct block that is no hole and below 4 GiB, and
    as far into it as the driver reads. -/
structure Plain (sb : SuperBlock) (inode : Ext2Inode) (x : Nat) : Prop where
  direct : x / sb.bs < 12
  mapped : inode.pointer (x / sb.bs) ≠ 0
  low : inode.pointer (x / sb.bs) * sb.bs < 2 ^ 32
  reached : x % sb.bs < reach

/-- The code finds a descriptor for the inode, and unless there is nothing to read it
    addresses the inode right and every offset it reads. -/
def Covered (sb : SuperBlock) (inode : Ext2Inode) (position siz : UInt32) : Prop :=
  (∃ d, sb.groupDesc (inode.ino.toNat / sb.perGroup) = some d) ∧
  (inode.readable position siz = 0 ∨ Addressed sb inode.ino ∧
    ∀ x, position.toNat ≤ x → x < position.toNat + inode.readable position siz → Plain sb inode x)

section Contents
variable {sb : SuperBlock} {inode : Ext2Inode} {disk frame : Mem} {position siz : UInt32}

theorem indirect_hole (disk : Mem) (bs level i : Nat) : indirect disk bs level 0 i = 0 := by
  cases level with
  | zero => rfl
  | succ level => simp [indirect]

theorem readsContents_iff (m : Mounted sb) (inFile : position.toNat ≤ inode.size.toNat)
    (noWrap : position.toNat + siz.toNat < 2 ^ 32) {record : List UInt8}
    (read : ext2ReadIno disk sb inode.ino = some record) :
    ReadsContents disk frame sb inode position siz ↔
      ∀ x, position.toNat ≤ x → x < position.toNat + inode.readable position siz →
        codeByte disk sb (stackAt record frame) x = some (fileByte disk sb.bs inode x) := by
  obtain ⟨data, last, copied, total, result⟩ := ext2Lread_copies m inFile noWrap read frame
  unfold ReadsContents
  rw [result]
  constructor
  · rintro ⟨_, length, same⟩ x above below
    simp only [Option.some.injEq, Lread.mk.injEq] at same
    have each := copied.each
    rw [same.2.1, List.length_map, List.length_range, List.map_map] at each
    have entry := List.map_inj_left.mp each (x - position.toNat) (List.mem_range.mpr (by omega))
    rw [Function.comp_apply, Nat.add_sub_cancel' above] at entry
    exact entry.symm
  · intro right
    have full : data.length = inode.readable position siz := by
      by_contra short
      have most := copied.most
      have stopped := copied.stopped (by omega)
      rw [right _ (by omega) (by omega)] at stopped
      simp at stopped
    refine ⟨last, total.trans full, ?_⟩
    have each : data.map some = ((List.range data.length).map fun i =>
        fileByte disk sb.bs inode (position.toNat + i)).map some := by
      rw [copied.each, List.map_map]
      apply List.map_congr_left
      intro i member
      have below := List.mem_range.mp member
      exact right _ (by omega) (by omega)
    rw [List.map_injective_iff.mpr (Option.some_injective _) each, full]

theorem stackAt_record {addr k : Nat} :
    load32 (stackAt (bytes disk addr inodeBytes) frame) (iBlock + 4 * k) =
    if k < 22 then load32 disk (addr + (iBlock + 4 * k)) else load32 frame (iBlock + 4 * k) := by
  have cell : ∀ i, stackAt (bytes disk addr inodeBytes) frame i = if i < 128 then disk (addr + i)
      else frame i := by
    intro i
    unfold stackAt bytes inodeBytes
    split
    · next inside => simp [List.getD, inside]
    · next outside => simp [List.getD, outside]
  unfold load32 iBlock
  simp only [cell]
  split
  · next inside =>
    rw [if_pos (by omega), if_pos (by omega), if_pos (by omega), if_pos (by omega)]
    rfl
  · next outside =>
    rw [if_neg (by omega), if_neg (by omega), if_neg (by omega), if_neg (by omega)]

theorem codeBlock_record {addr x : Nat} (carries : Carries disk addr inode) :
    codeBlock sb (stackAt (bytes disk addr inodeBytes) frame) x =
      if x / sb.bs % 256 < 15 then inode.pointer (x / sb.bs % 256)
      else if x / sb.bs % 256 < 22 then load32 disk (addr + (iBlock + 4 * (x / sb.bs % 256)))
      else load32 frame (iBlock + 4 * (x / sb.bs % 256)) := by
  rw [codeBlock, stackAt_record]
  by_cases mapped : x / sb.bs % 256 < 15
  · rw [if_pos mapped, if_pos (by omega), carries.map _ mapped]
  · rw [if_neg mapped]

theorem fileByte_direct {x : Nat} (direct : x / sb.bs < 12)
    (mapped : inode.pointer (x / sb.bs) ≠ 0) :
    fileByte disk sb.bs inode x = disk (inode.pointer (x / sb.bs) * sb.bs + x % sb.bs) := by
  have block : blockOf disk sb.bs inode (x / sb.bs) = inode.pointer (x / sb.bs) := by
    simp only [blockOf, mapRoot, if_pos direct, indirect]
  rw [fileByte, block, blockByte, if_neg mapped]

theorem codeByte_plain {ein : Mem} {x : Nat}
    (pointer : codeBlock sb ein x = inode.pointer (x / sb.bs))
    (plain : Plain sb inode x) : codeByte disk sb ein x = some (fileByte disk sb.bs inode x) := by
  obtain ⟨direct, mapped, low, reached⟩ := plain
  rw [codeByte, pointer, if_neg mapped, if_pos reached, Nat.mod_eq_of_lt low,
    fileByte_direct direct mapped]

theorem plain_byte {addr x : Nat} (carries : Carries disk addr inode) (plain : Plain sb inode x) :
    codeByte disk sb (stackAt (bytes disk addr inodeBytes) frame) x = some
    (fileByte disk sb.bs inode x) := by
  have direct := plain.direct
  have index : x / sb.bs % 256 = x / sb.bs := Nat.mod_eq_of_lt (by omega)
  apply codeByte_plain _ plain
  rw [codeBlock_record carries, index, if_pos (by omega)]

theorem addressed_reads (m : Mounted sb) {ino : UInt32} (named : 1 ≤ ino.toNat) {d : BlockGroup}
    (own : sb.groupDesc (sb.groupOf ino) = some d) (addressed : Addressed sb ino) (disk : Mem) :
    ext2ReadIno disk sb ino = some (bytes disk (sb.recordAddr d ino) inodeBytes) := by
  obtain ⟨d', here, served, same⟩ := (addressed_iff m named own).mp addressed
  rw [ext2ReadIno_eq m disk here, if_pos served, same]

theorem covered_reads (m : Mounted sb) (named : 1 ≤ inode.ino.toNat) {d : BlockGroup}
    (own : sb.groupDesc (sb.groupOf inode.ino) = some d)
    (inFile : position.toNat ≤ inode.size.toNat)
    (noWrap : position.toNat + siz.toNat < 2 ^ 32) (covered : Covered sb inode position siz)
    (carries : Carries disk (sb.recordAddr d inode.ino) inode) :
    ReadsContents disk frame sb inode position siz := by
  obtain ⟨⟨e, here⟩, nothing | ⟨addressed, plain⟩⟩ := covered
  · apply (readsContents_iff m inFile noWrap (ext2ReadIno_eq m disk here)).mpr
    intro x above below
    omega
  · apply (readsContents_iff m inFile noWrap (addressed_reads m named own addressed disk)).mpr
    intro x above below
    exact plain_byte carries (plain x above below)

end Contents

/-! ## Disks that show the difference -/

section Disks
variable {sb : SuperBlock} {inode : Ext2Inode}

def Ext2Inode.words (inode : Ext2Inode) : List Nat := (List.range 15).map inode.pointer

def bareDisk (addr : Nat) (inode : Ext2Inode) : Mem :=
  storeWords (store32 zeroed (addr + iSize) inode.size.toNat) (addr + iBlock) inode.words

theorem pointer_bound (inode : Ext2Inode) (k : Nat) : inode.pointer k < 2 ^ 32 := by
  unfold Ext2Inode.pointer
  split
  · exact UInt32.toNat_lt _
  · decide

theorem bareDisk_zero {addr x : Nat} (outside : x < addr ∨ addr + 100 ≤ x) :
    bareDisk addr inode x = 0 := by
  have length : inode.words.length = 15 := by simp [Ext2Inode.words]
  rw [bareDisk, storeWords_other _ _ _ (by rw [length, iBlock]; omega),
    store32_other _ _ (by rw [iSize]; omega)]
  rfl

theorem bareDisk_carries (addr : Nat) (inode : Ext2Inode) :
    Carries (bareDisk addr inode) addr inode := by
  constructor
  · have kept : load32 (bareDisk addr inode) (addr + iSize) =
        load32 (store32 zeroed (addr + iSize) inode.size.toNat) (addr + iSize) := by
      apply load32_congr
      intro x lo hi
      apply storeWords_other
      rw [iBlock]
      rw [iSize] at hi
      omega
    rw [kept, load32_store32_same _ _ (UInt32.toNat_lt _)]
  · intro k below
    rw [← Nat.add_assoc]
    apply load32_storeWords
    · intro w member
      obtain ⟨j, _, rfl⟩ := List.mem_map.mp member
      exact pointer_bound inode j
    · simp [Ext2Inode.words, below]

theorem Carries.congr {disk disk' : Mem} {addr : Nat} (carries : Carries disk addr inode)
    (same : AgreeOn disk disk' addr (addr + 128)) : Carries disk' addr inode := by
  constructor
  · rw [load32_congr (same.mono (by omega) (by rw [iSize]; omega)), carries.size]
  · intro k below
    rw [load32_congr (same.mono (by omega) (by rw [iBlock]; omega)), carries.map k below]

/-- The blocks of the map, where the format has them and where the code reads them, are
    not the block the inode itself is in. -/
def Apart (sb : SuperBlock) (inode : Ext2Inode) (addr : Nat) : Prop :=
  ∀ k < 15, inode.pointer k ≠ 0 →
    inode.pointer k ≠ addr / sb.bs ∧ (inode.pointer k * sb.bs) % 2 ^ 32 / sb.bs ≠ addr / sb.bs

/-- A disk with the inode on it where the code gets the byte at an offset wrong. -/
def Shows (sb : SuperBlock) (inode : Ext2Inode) (addr x : Nat) (disk : Mem) : Prop :=
  Carries disk addr inode ∧
    codeByte disk sb (stackAt (bytes disk addr inodeBytes) zeroed) x ≠
      some (fileByte disk sb.bs inode x)

def InBlock (sb : SuperBlock) (addr : Nat) : Prop := addr % sb.bs + 128 ≤ sb.bs

theorem other_block {addr y : Nat} (inBlock : InBlock sb addr) (other : y / sb.bs ≠ addr / sb.bs) :
    y < addr ∨ addr + 128 ≤ y := by
  by_contra inside
  apply other
  unfold InBlock at inBlock
  have same := (inside_block (show addr % sb.bs + (y - addr) < sb.bs by omega)).1
  rw [← same]
  congr 1
  omega

theorem block_div {bs blk off : Nat} (inside : off < bs) : (blk * bs + off) / bs = blk := by
  rw [Nat.mul_comm, Nat.mul_add_div (by omega), Nat.div_eq_of_lt inside, Nat.add_zero]

theorem carries_store8 {disk : Mem} {addr y : Nat} (carries : Carries disk addr inode)
    (inBlock : InBlock sb addr) (other : y / sb.bs ≠ addr / sb.bs) (v : UInt8) :
    Carries (store8 disk y v) addr inode := by
  apply carries.congr
  intro z lo hi
  apply store8_other
  have := other_block inBlock other
  omega

/-- The code stops at a zero pointer; every file goes on up to its size. -/
theorem wrong_of_zero {disk ein : Mem} {x : Nat} (zero : codeBlock sb ein x = 0) (v : UInt8) :
    codeByte disk sb ein x ≠ some v := by
  rw [codeByte, if_pos zero]
  simp

theorem codeByte_mapped (m : Mounted sb) (small : sb.bs ≤ reach) {disk frame : Mem} {addr x : Nat}
    (carries : Carries disk addr inode) (index : x / sb.bs % 256 < 15)
    (mapped : inode.pointer (x / sb.bs % 256) ≠ 0) :
    codeByte disk sb (stackAt (bytes disk addr inodeBytes) frame) x =
      some (disk ((inode.pointer (x / sb.bs % 256) * sb.bs) % 2 ^ 32 + x % sb.bs)) := by
  have offset := Nat.mod_lt x m.bs_pos
  have pointer : codeBlock sb (stackAt (bytes disk addr inodeBytes) frame) x =
      inode.pointer (x / sb.bs % 256) := by
    rw [codeBlock_record carries, if_pos index]
  rw [codeByte, pointer, if_neg mapped, if_pos (by omega)]

theorem wrong_high (m : Mounted sb) (small : sb.bs ≤ reach) {addr x : Nat}
    (inBlock : InBlock sb addr)
    (apart : Apart sb inode addr) (direct : x / sb.bs < 12) (mapped : inode.pointer (x / sb.bs) ≠ 0)
    (high : 2 ^ 32 ≤ inode.pointer (x / sb.bs) * sb.bs) :
    ∃ disk, Shows sb inode addr x disk := by
  have offset := Nat.mod_lt x m.bs_pos
  have index : x / sb.bs % 256 = x / sb.bs := Nat.mod_eq_of_lt (by omega)
  have cut := Nat.mod_lt (inode.pointer (x / sb.bs) * sb.bs) (Nat.two_pow_pos 32)
  let target := inode.pointer (x / sb.bs) * sb.bs + x % sb.bs
  let source := (inode.pointer (x / sb.bs) * sb.bs) % 2 ^ 32 + x % sb.bs
  have different : source ≠ target := by
    simp only [source, target]
    omega
  have other : target / sb.bs ≠ addr / sb.bs := by
    simp only [target]
    rw [block_div offset]
    exact (apart _ (by omega) mapped).1
  let disk := store8 (bareDisk addr inode) target (bareDisk addr inode source + 1)
  have carries : Carries disk addr inode :=
    carries_store8 (bareDisk_carries addr inode) inBlock other _
  refine ⟨disk, carries, ?_⟩
  have block : blockOf disk sb.bs inode (x / sb.bs) = inode.pointer (x / sb.bs) := by
    simp only [blockOf, mapRoot, if_pos direct, indirect]
  have read : disk source = bareDisk addr inode source := store8_other _ _ different
  have wanted : disk target = bareDisk addr inode source + 1 := store8_same _ _ _
  rw [codeByte_mapped m small carries (by omega) (by rwa [index]), index, fileByte,
    block, blockByte,
    if_neg mapped]
  change some (disk source) ≠ some (disk target)
  rw [read, wanted]
  simp

/-- Past the direct blocks there is a root in the map and a table entry in its block. -/
theorem mapRoot_indirect (m : Mounted sb) {b : Nat} (past : 12 ≤ b) (below : b < 2 ^ 22) :
    ∃ root level i, mapRoot sb.bs b = (root, level + 1, i) ∧ root < 15 ∧
    i / (sb.bs / 4) ^ level < sb.bs / 4 := by
  obtain ⟨k, _, size⟩ := m.blocks
  have quarter : 256 ≤ sb.bs / 4 := by
    have := Nat.one_le_two_pow (n := k)
    rw [SuperBlock.bs]
    omega
  have cube : 2 ^ 24 ≤ sb.bs / 4 * (sb.bs / 4) ^ 2 := by
    calc 2 ^ 24 = 256 * 256 ^ 2 := by decide
      _ ≤ sb.bs / 4 * (sb.bs / 4) ^ 2 := Nat.mul_le_mul quarter (Nat.pow_le_pow_left quarter 2)
  unfold mapRoot
  simp only [if_neg (show ¬ b < 12 by omega)]
  split
  · next single => exact ⟨12, 0, _, rfl, by decide, by simpa using single⟩
  · split
    · next double =>
      refine ⟨13, 1, _, rfl, by decide, ?_⟩
      rw [Nat.pow_one, Nat.div_lt_iff_lt_mul (by omega), ← Nat.pow_two]
      exact double
    · refine ⟨14, 2, _, rfl, by decide, ?_⟩
      rw [Nat.div_lt_iff_lt_mul (Nat.pow_pos (by omega))]
      omega

theorem blockByte_zero_block {disk : Mem} {bs blk : Nat} (zero : ∀ y < bs, disk (blk * bs + y) = 0)
    (level i : Nat) {off : Nat} (inside : off < bs) (entry : i < (bs / 4) ^ level) :
    blockByte disk bs (indirect disk bs level blk i) off = 0 := by
  cases level with
  | zero =>
    unfold indirect blockByte
    split
    · rfl
    · exact zero off inside
  | succ level =>
    have first : i / (bs / 4) ^ level < bs / 4 := by
      apply Nat.div_lt_of_lt_mul
      rwa [← Nat.pow_succ]
    have null : load32 disk (blk * bs + 4 * (i / (bs / 4) ^ level)) = 0 := by
      apply load32_zero
      intro x lo hi
      obtain ⟨y, rfl⟩ : ∃ y, x = blk * bs + y := ⟨x - blk * bs, by omega⟩
      exact zero y (by omega)
    unfold indirect
    rw [null, indirect_hole]
    split <;> rfl

theorem bareDisk_other_block {addr y : Nat} (inBlock : InBlock sb addr)
    (other : y / sb.bs ≠ addr / sb.bs) :
    bareDisk addr inode y = 0 := by
  apply bareDisk_zero
  have := other_block inBlock other
  omega

theorem cut_div (m : Mounted sb) (p : Nat) {off : Nat} (inside : off < sb.bs) :
    ((p * sb.bs) % 2 ^ 32 + off) / sb.bs = (p * sb.bs) % 2 ^ 32 / sb.bs := by
  obtain ⟨M, _, range⟩ := m.blocks_in_range
  have whole : (p * sb.bs) % 2 ^ 32 = p % M * sb.bs := by
    rw [← range, Nat.mul_comm p, Nat.mul_mod_mul_left, Nat.mul_comm]
  rw [whole, block_div inside, Nat.mul_div_cancel _ m.bs_pos]

theorem marker (a b : Nat) : ∃ c, 1 ≤ c ∧ c ≤ 3 ∧ 0x01010101 * c ≠ a ∧ 0x01010101 * c ≠ b := by
  by_cases first : 0x01010101 * 1 = a ∨ 0x01010101 * 1 = b
  · by_cases second : 0x01010101 * 2 = a ∨ 0x01010101 * 2 = b
    · exact ⟨3, by omega, by omega, by omega, by omega⟩
    · exact ⟨2, by omega, by omega, by omega, by omega⟩
  · exact ⟨1, by omega, by omega, by omega, by omega⟩

theorem store32_marker (disk : Mem) {a c y : Nat} (least : 1 ≤ c) (most : c ≤ 3) (lo : a ≤ y)
    (hi : y < a + 4) :
    store32 disk a (0x01010101 * c) y ≠ 0 := by
  obtain ⟨t, rfl⟩ : ∃ t, y = a + t := ⟨y - a, by omega⟩
  have small : t < 4 := by omega
  interval_cases t <;> interval_cases c <;> simp [store32, store8]

section Indirect
variable {addr x : Nat}

theorem wrong_hole (m : Mounted sb) (small : sb.bs ≤ reach) (inBlock : InBlock sb addr)
    (apart : Apart sb inode addr) (index : x / sb.bs % 256 < 15)
    (mapped : inode.pointer (x / sb.bs % 256) ≠ 0) {disk : Mem}
    (shape : disk = store8 (bareDisk addr inode)
      ((inode.pointer (x / sb.bs % 256) * sb.bs) % 2 ^ 32 + x % sb.bs) 1)
    (hole : blockOf disk sb.bs inode (x / sb.bs) = 0) : Shows sb inode addr x disk := by
  have offset := Nat.mod_lt x m.bs_pos
  have carries : Carries disk addr inode := by
    rw [shape]
    apply carries_store8 (bareDisk_carries addr inode) inBlock
    rw [cut_div m _ offset]
    exact (apart _ index mapped).2
  refine ⟨carries, ?_⟩
  rw [codeByte_mapped m small carries index mapped, fileByte, hole, blockByte, if_pos rfl,
    shape, store8_same]
  simp

theorem wrong_entry (m : Mounted sb) (small : sb.bs ≤ reach) (inBlock : InBlock sb addr)
    (index : x / sb.bs % 256 < 15) (mapped : inode.pointer (x / sb.bs % 256) ≠ 0)
    {root level i table : Nat} (free : root ≠ addr / sb.bs)
    (inTable : ∀ y, table ≤ y → y < table + 4 → y / sb.bs = root)
    (inside : i < (sb.bs / 4) ^ level)
    (block : ∀ disk, blockOf disk sb.bs inode (x / sb.bs) =
    indirect disk sb.bs level (load32 disk table) i)
    (lo : table ≤ (inode.pointer (x / sb.bs % 256) * sb.bs) % 2 ^ 32 + x % sb.bs)
    (hi : (inode.pointer (x / sb.bs % 256) * sb.bs) % 2 ^ 32 + x % sb.bs < table + 4) :
    ∃ disk, Shows sb inode addr x disk := by
  obtain ⟨c, least, most, fresh, away⟩ := marker (addr / sb.bs) root
  generalize value : 0x01010101 * c = w at fresh away
  let disk := store32 (bareDisk addr inode) table w
  have edited : ∀ y, y / sb.bs ≠ root → disk y = bareDisk addr inode y := by
    intro y other
    apply store32_other
    by_contra here
    exact other (inTable y (by omega) (by omega))
  have carries : Carries disk addr inode := by
    apply (bareDisk_carries addr inode).congr
    intro y above below
    apply edited
    intro same
    have := other_block inBlock (same ▸ free)
    omega
  have word : load32 disk table = w := load32_store32_same _ _ (by omega)
  have zeros : ∀ y < sb.bs, disk (w * sb.bs + y) = 0 := by
    intro y below
    have here : (w * sb.bs + y) / sb.bs = w := block_div below
    rw [edited _ (here.symm ▸ away)]
    apply bareDisk_other_block inBlock
    rw [here]
    exact fresh
  have wanted : fileByte disk sb.bs inode x = 0 := by
    rw [fileByte, block, word]
    exact blockByte_zero_block zeros _ _ (Nat.mod_lt x m.bs_pos) inside
  refine ⟨disk, carries, ?_⟩
  rw [codeByte_mapped m small carries index mapped, wanted, ne_eq, Option.some.injEq]
  subst value
  exact store32_marker _ least most lo hi

theorem Mounted.few_blocks (m : Mounted sb) (below : x < 2 ^ 32) : x / sb.bs < 2 ^ 22 := by
  obtain ⟨k, _, size⟩ := m.blocks
  have least : 1024 ≤ sb.bs := by
    have := Nat.one_le_two_pow (n := k)
    rw [SuperBlock.bs]
    omega
  calc x / sb.bs ≤ x / 1024 := Nat.div_le_div_left least (by decide)
    _ < 2 ^ 22 := by omega

theorem wrong_indirect (m : Mounted sb) (small : sb.bs ≤ reach) (inBlock : InBlock sb addr)
    (apart : Apart sb inode addr) (past : 12 ≤ x / sb.bs) (below : x < 2 ^ 32) :
    ∃ disk, Shows sb inode addr x disk := by
  have bare := bareDisk_carries addr inode
  by_cases index : x / sb.bs % 256 < 15
  · by_cases mapped : inode.pointer (x / sb.bs % 256) = 0
    · refine ⟨_, bare, wrong_of_zero ?_ _⟩
      rw [codeBlock_record bare, if_pos index, mapped]
    · obtain ⟨root, level, i, shape, inMap, entry⟩ := mapRoot_indirect m past (m.few_blocks below)
      let table := inode.pointer root * sb.bs + 4 * (i / (sb.bs / 4) ^ level)
      have block : ∀ disk, blockOf disk sb.bs inode (x / sb.bs) = if inode.pointer root = 0 then 0
          else indirect disk sb.bs level (load32 disk table) (i % (sb.bs / 4) ^ level) := by
        intro disk
        simp only [blockOf, shape, indirect, table]
      by_cases rooted : inode.pointer root = 0
      · refine ⟨_, wrong_hole m small inBlock apart index mapped rfl ?_⟩
        rw [block, if_pos rooted]
      · simp only [if_neg rooted] at block
        have inTable : ∀ y, table ≤ y → y < table + 4 → y / sb.bs = inode.pointer root := by
          intro y lo hi
          simp only [table] at lo hi
          obtain ⟨t, rfl⟩ : ∃ t, y = inode.pointer root * sb.bs + t :=
            ⟨y - inode.pointer root * sb.bs, by omega⟩
          exact block_div (by omega)
        have free := (apart root inMap rooted).1
        by_cases clear : (inode.pointer (x / sb.bs % 256) * sb.bs) % 2 ^ 32 + x % sb.bs < table ∨
            table + 4 ≤ (inode.pointer (x / sb.bs % 256) * sb.bs) % 2 ^ 32 + x % sb.bs
        · refine ⟨_, wrong_hole m small inBlock apart index mapped rfl ?_⟩
          have null : load32 (bareDisk addr inode) table = 0 := by
            apply load32_zero
            intro y lo hi
            apply bareDisk_other_block inBlock
            rw [inTable y lo hi]
            exact free
          rw [block, load32_store8_apart _ _ clear, null, indirect_hole]
        · have inside : i % (sb.bs / 4) ^ level < (sb.bs / 4) ^ level :=
            Nat.mod_lt _ (Nat.pow_pos (by omega))
          exact wrong_entry m small inBlock index mapped free inTable inside block
            (by omega) (by omega)
  · refine ⟨_, bare, wrong_of_zero ?_ _⟩
    rw [codeBlock_record bare, if_neg index]
    split
    · apply load32_zero
      intro y lo hi
      apply bareDisk_zero
      rw [iBlock] at lo
      omega
    · rfl

end Indirect

theorem record_in_block (m : Mounted sb) (d : BlockGroup) (ino : UInt32) :
    InBlock sb (sb.recordAddr d ino) := by
  have offset : sb.recordOffset ino = (ino.toNat - 1) % sb.perGroup * sb.isiz := rfl
  have last := (m.record_inside offset (show 127 < inodeBytes by decide)).1
  unfold InBlock
  rw [SuperBlock.recordAddr, Nat.mul_comm, Nat.mul_add_mod]
  omega

theorem record_aligned (m : Mounted sb) (d d' : BlockGroup) (ino : UInt32) :
    128 ∣ sb.recordAddr d ino ∧ 128 ∣ sb.codeAddr d' ino := by
  have block : 128 ∣ sb.bs := m.isiz_large.trans m.inodeFits
  constructor
  · exact Nat.dvd_add (block.mul_left _) (m.isiz_large.mul_left _)
  · apply Nat.dvd_add
    · exact (Nat.dvd_mod_iff (by decide)).mpr (block.mul_left _)
    · exact (Nat.dvd_mod_iff block).mpr (m.isiz_large.mul_left _)

theorem unaddressed_reads (m : Mounted sb) (named : 1 ≤ inode.ino.toNat) {d d' : BlockGroup}
    (own : sb.groupDesc (sb.groupOf inode.ino) = some d)
    (here : sb.groupDesc (inode.ino.toNat / sb.perGroup) = some d')
    (wrong : ¬ Addressed sb inode.ino) :
    ext2ReadIno (bareDisk (sb.recordAddr d inode.ino) inode) sb inode.ino =
      some (bytes zeroed 0 inodeBytes) := by
  rw [ext2ReadIno_eq m _ here]
  split
  · next served =>
    have elsewhere : sb.codeAddr d' inode.ino ≠ sb.recordAddr d inode.ino := by
      intro same
      exact wrong ((addressed_iff m named own).mpr ⟨d', here, served, same⟩)
    obtain ⟨⟨p, record⟩, ⟨q, code⟩⟩ := record_aligned m d d' inode.ino
    congr 1
    apply List.map_congr_left
    intro i member
    have inside := List.mem_range.mp member
    unfold inodeBytes at inside
    apply bareDisk_zero
    omega
  · rfl

end Disks

/-- Every disk that carries the inode, and whatever the stack holds. -/
def ReadsRight (sb : SuperBlock) (inode : Ext2Inode) (position siz : UInt32) : Prop :=
  ∀ d, sb.groupDesc (sb.groupOf inode.ino) = some d → ∀ disk frame,
    Carries disk (sb.recordAddr d inode.ino) inode → ReadsContents disk frame sb inode position siz

def OwnBlock (sb : SuperBlock) (inode : Ext2Inode) : Prop :=
  ∀ d, sb.groupDesc (sb.groupOf inode.ino) = some d → Apart sb inode (sb.recordAddr d inode.ino)

section Result
variable {sb : SuperBlock} {inode : Ext2Inode} {position siz : UInt32}

theorem readsRight_covered (m : Mounted sb) (named : 1 ≤ inode.ino.toNat) {d : BlockGroup}
    (own : sb.groupDesc (sb.groupOf inode.ino) = some d)
    (inFile : position.toNat ≤ inode.size.toNat)
    (noWrap : position.toNat + siz.toNat < 2 ^ 32) (small : sb.bs ≤ reach)
    (apart : Apart sb inode (sb.recordAddr d inode.ino))
    (right : ReadsRight sb inode position siz) :
    Covered sb inode position siz := by
  have bare := bareDisk_carries (sb.recordAddr d inode.ino) inode
  have inBlock := record_in_block m d inode.ino
  cases here : sb.groupDesc (inode.ino.toNat / sb.perGroup) with
  | none =>
    obtain ⟨_, _, result⟩ := right d own _ zeroed bare
    have start : ¬ position > inode.size := by
      rw [gt_iff_lt, UInt32.lt_iff_toNat_lt]
      omega
    simp [ext2Lread, start, ext2ReadIno_missing here] at result
  | some d' =>
    refine ⟨⟨d', here⟩, ?_⟩
    by_cases nothing : inode.readable position siz = 0
    · exact Or.inl nothing
    · right
      have addressed : Addressed sb inode.ino := by
        by_contra wrong
        have bytes :=
          (readsContents_iff m inFile noWrap (unaddressed_reads m named own here wrong)).mp
          (right d own _ zeroed bare) position.toNat (Nat.le_refl _) (by omega)
        apply wrong_of_zero _ _ bytes
        rw [codeBlock, stackAt_record]
        split <;> rfl
      refine ⟨addressed, ?_⟩
      intro x above below
      have range : x < 2 ^ 32 := by
        have := Nat.min_le_left siz.toNat (inode.size.toNat - position.toNat)
        rw [FileInode.readable] at below
        omega
      have never : ∀ disk, ¬ Shows sb inode (sb.recordAddr d inode.ino) x disk := by
        rintro disk ⟨carries, wrong⟩
        exact wrong
          ((readsContents_iff m inFile noWrap (addressed_reads m named own addressed disk)).mp
          (right d own disk zeroed carries) x above below)
      have direct : x / sb.bs < 12 := by
        by_contra past
        obtain ⟨disk, shows'⟩ := wrong_indirect m small inBlock apart (by omega) range
        exact never disk shows'
      have index : x / sb.bs % 256 = x / sb.bs := Nat.mod_eq_of_lt (by omega)
      have mapped : inode.pointer (x / sb.bs) ≠ 0 := by
        intro hole
        apply never _ ⟨bare, wrong_of_zero _ _⟩
        rw [codeBlock_record bare, index, if_pos (by omega), hole]
      refine ⟨direct, mapped, ?_, ?_⟩
      · by_contra high
        obtain ⟨disk, shows'⟩ := wrong_high m small inBlock apart direct mapped (by omega)
        exact never disk shows'
      · exact Nat.lt_of_lt_of_le (Nat.mod_lt x m.bs_pos) small

end Result

/-- Requests that stay in direct blocks are read right; no others are, for an inode whose
    map does not point at its own block and blocks the driver reads whole. -/
theorem lread_right_when_covered {sb : SuperBlock} (m : Mounted sb) {inode : Ext2Inode}
    (named : 1 ≤ inode.ino.toNat) (inRange : inode.ino.toNat ≤ sb.perGroup * sb.info.sGroupCount)
    {position siz : UInt32} (inFile : position.toNat ≤ inode.size.toNat)
    (noWrap : position.toNat + siz.toNat < 2 ^ 32) :
    (Covered sb inode position siz → ReadsRight sb inode position siz) ∧
    (sb.bs ≤ reach → OwnBlock sb inode →
      (ReadsRight sb inode position siz ↔ Covered sb inode position siz)) := by
  have positive : 0 < sb.perGroup := m.inodes
  obtain ⟨d, own⟩ : ∃ d, sb.groupDesc (sb.groupOf inode.ino) = some d := by
    apply m.loaded
    rw [SuperBlock.groupOf, Nat.div_lt_iff_lt_mul positive, Nat.mul_comm]
    omega
  have enough : Covered sb inode position siz → ReadsRight sb inode position siz := by
    intro covered e here disk frame carries
    exact covered_reads m named here inFile noWrap covered carries
  refine ⟨enough, ?_⟩
  intro small apart
  exact ⟨readsRight_covered m named own inFile noWrap small (apart d own), enough⟩

def longFile : Ext2Inode :=
  ⟨⟨11, 13312⟩, fun k => if k.val < 13 then UInt32.ofNat (300 + k.val) else 0⟩

def sparseFile : Ext2Inode := ⟨⟨11, 2048⟩, fun k => if k.val = 1 then 300 else 0⟩

theorem longFile_middle_covered : Covered twoGroups longFile 1000 500 := by
  refine ⟨⟨⟨5⟩, rfl⟩, Or.inr ⟨⟨⟨5⟩, rfl, by decide, ?_⟩, ?_⟩⟩
  · rw [if_neg (by decide)]
    decide
  · intro x above below
    have low : 1000 ≤ x := above
    have high : x < 1500 := below
    have block : twoGroups.bs = 1024 := rfl
    have two : x / 1024 = 0 ∨ x / 1024 = 1 := by omega
    have offset := Nat.mod_lt x (show 0 < 1024 by decide)
    rcases two with here | here
    · exact ⟨by rw [block]; omega, by rw [block, here]; decide, by rw [block, here]; decide,
        by rw [block, reach]; omega⟩
    · exact ⟨by rw [block]; omega, by rw [block, here]; decide, by rw [block, here]; decide,
        by rw [block, reach]; omega⟩

theorem longFile_read_in_middle :
    ReadsRight twoGroups longFile 1000 500 ∧
      (ReadsRight twoGroups longFile 1000 500 ↔ Covered twoGroups longFile 1000 500) := by
  have result : (Covered twoGroups longFile 1000 500 → ReadsRight twoGroups longFile 1000 500) ∧
      _ :=
    lread_right_when_covered twoGroups_mounted (by decide) (by decide) (by decide) (by decide)
  refine ⟨result.1 longFile_middle_covered, result.2 (by decide) ?_⟩
  intro d own
  obtain rfl : (⟨5⟩ : BlockGroup) = d := Option.some.inj own
  intro k below mapped
  interval_cases k <;> revert mapped <;> decide

/-- The thirteenth block comes back as the pointer to it, and a hole as the end of the file. -/
theorem longFile_misread_and_sparseFile_cut :
    (∃ disk, Carries disk 6400 longFile ∧ ¬ ReadsContents disk zeroed twoGroups longFile 12288 4) ∧
    ∃ disk, Carries disk 6400 sparseFile ∧
    ¬ ReadsContents disk zeroed twoGroups sparseFile 0 4 := by
  constructor
  · refine ⟨store32 (bareDisk 6400 longFile) 319488 400, ⟨by decide +kernel, by decide +kernel⟩, ?_⟩
    rintro ⟨last, length, result⟩
    have code : ext2Lread (store32 (bareDisk 6400 longFile) 319488 400) zeroed twoGroups
      longFile.toFileInode 12288 4 =
        some ⟨4, [144, 1, 0, 0], 12292⟩ := by decide +kernel
    rw [code] at result
    simp only [Option.some.injEq, Lread.mk.injEq] at result
    exact absurd result.2.1 (by decide +kernel)
  · refine ⟨bareDisk 6400 sparseFile, ⟨by decide +kernel, by decide +kernel⟩, ?_⟩
    rintro ⟨last, length, result⟩
    have code : ext2Lread (bareDisk 6400 sparseFile) zeroed twoGroups sparseFile.toFileInode 0 4 =
        some ⟨0, [], 0⟩ := by decide +kernel
    rw [code] at result
    simp only [Option.some.injEq, Lread.mk.injEq] at result
    exact absurd result.2.1 (by decide +kernel)

end Ext2
