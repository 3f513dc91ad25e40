import NoobOs.Lib.ByteMemory
import Mathlib.Data.UInt
import Mathlib.Tactic.Ring

/-!
`ext2_read` of `ext2.c` with the block device under it: `bread` of `block_dev.c`
and `ata_read_sectors` of `ide.c`. The disk is the sequence of its bytes; the drive
answers each command, and a status register never reports an error.
-/
namespace Ext2
open ByteMemory

structure BlockGroup where
  bgInodeTable : UInt32

/-- `struct ext2_sb_info`; an entry past the array is `none` like one not loaded. -/
structure SbInfo where
  sBlockSize : UInt32
  sInodeSize : UInt32
  sInodesPerGroup : UInt32
  sGroupDesc : List (Option BlockGroup)
  sGroupCount : Nat

structure SuperBlock where
  sBlocksize : UInt32
  bdStart : UInt32
  info : SbInfo

def ext2MaxGroupLoaded : Nat := 8

def SuperBlock.groupDesc (sb : SuperBlock) (group : Nat) : Option BlockGroup :=
  sb.info.sGroupDesc[group]?.join

/-- The sectors the drive sends for a count written to its 8-bit register. -/
def ataServed (count : Nat) : Nat := if count % 256 = 0 then 256 else count % 256

/-- The buffer after `ata_read_sectors`: the address register has 28 bits, and a loop
    that waits for more sectors than were asked for gives up. -/
def ataReadSectors (disk : Mem) (lba : UInt32) (secCount : Nat) (buf : Mem) : Mem :=
  fun i => if i < 512 * min secCount (ataServed secCount) then disk (512 * (lba.toNat % 2 ^ 28) + i)
    else buf i

def bread (disk : Mem) (sb : SuperBlock) (sect count : UInt32) (buf : Mem) : Mem :=
  ataReadSectors disk (sect + sb.bdStart) count.toNat buf

def ext2Read (disk : Mem) (sb : SuperBlock) (block blkcount : UInt32) (buf : Mem) : Mem :=
  let siz := sb.sBlocksize
  let lba := block * siz / 512
  let count := blkcount * siz / 512
  bread disk sb lba count buf

def zeroed : Mem := fun _ => 0

/-- The geometry of a mounted volume: `ext2_fill_super` stores `1024 << s_log_block_siz`
    twice, and `ata_init` makes the whole disk the only block device. -/
structure Mounted (sb : SuperBlock) : Prop where
  blocks : ∃ k, k < 22 ∧ sb.info.sBlockSize.toNat = 1024 * 2 ^ k
  same : sb.sBlocksize = sb.info.sBlockSize
  whole : sb.bdStart = 0
  inodes : 1 ≤ sb.info.sInodesPerGroup.toNat
  inodeSize : ∃ a, 7 ≤ a ∧ sb.info.sInodeSize.toNat = 2 ^ a
  inodeFits : sb.info.sInodeSize.toNat ∣ sb.info.sBlockSize.toNat
  descs : sb.info.sGroupDesc.length = ext2MaxGroupLoaded
  loaded : ∀ g < sb.info.sGroupCount, ∃ d, sb.groupDesc g = some d

def SuperBlock.bs (sb : SuperBlock) : Nat := sb.info.sBlockSize.toNat

def reach : Nat := 131072

section Blocks
variable {sb : SuperBlock}

theorem Mounted.blocks_in_range (m : Mounted sb) : ∃ M, 0 < M ∧ sb.bs * M = 2 ^ 32 := by
  obtain ⟨k, small, size⟩ := m.blocks
  refine ⟨2 ^ (22 - k), Nat.two_pow_pos _, ?_⟩
  rw [SuperBlock.bs, size, Nat.mul_assoc, ← Nat.pow_add, Nat.add_sub_cancel' (Nat.le_of_lt small)]
  decide

theorem Mounted.block_sectors (m : Mounted sb) : ∃ t, sb.bs = 512 * t ∧ 2 ≤ t := by
  obtain ⟨k, _, size⟩ := m.blocks
  refine ⟨2 * 2 ^ k, ?_, ?_⟩
  · rw [SuperBlock.bs, size]
    ring
  · have := Nat.one_le_two_pow (n := k)
    omega

theorem Mounted.bs_pos (m : Mounted sb) : 0 < sb.bs := by
  obtain ⟨t, size, two⟩ := m.block_sectors
  omega

theorem served_power (j : Nat) :
    512 * min (2 ^ j) (ataServed (2 ^ j)) = min (512 * 2 ^ j) reach := by
  by_cases small : j < 8
  · have fits : 2 ^ j < 256 := (Nat.pow_lt_pow_iff_right (by decide)).mpr small
    have some' := Nat.two_pow_pos j
    unfold ataServed reach
    rw [Nat.mod_eq_of_lt fits, if_neg (by omega)]
    omega
  · obtain ⟨i, rfl⟩ : ∃ i, j = 8 + i := ⟨j - 8, by omega⟩
    have whole : 2 ^ (8 + i) = 256 * 2 ^ i := Nat.pow_add 2 8 i
    have some' := Nat.two_pow_pos i
    unfold ataServed reach
    rw [whole, if_pos (Nat.mul_mod_right _ _)]
    omega

theorem ext2Read_block (m : Mounted sb) (disk buf : Mem) (block : UInt32) {i : Nat}
    (inside : i < sb.bs) :
    ext2Read disk sb block 1 buf i =
      if i < reach then disk ((block.toNat * sb.bs) % 2 ^ 32 + i) else buf i := by
  obtain ⟨k, small, size⟩ := m.blocks
  obtain ⟨M, _, range⟩ := m.blocks_in_range
  obtain ⟨t, sectors, _⟩ := m.block_sectors
  have count : ((1 * sb.info.sBlockSize / 512 : UInt32)).toNat = 2 ^ (k + 1) := by
    have halves : 1024 * 2 ^ k = 512 * 2 ^ (k + 1) := by ring
    rw [UInt32.one_mul, UInt32.toNat_div, size, halves]
    exact Nat.mul_div_cancel_left _ (by decide)
  have lba : (block * sb.info.sBlockSize / 512 : UInt32).toNat =
      (block.toNat * sb.bs) % 2 ^ 32 / 512 := by
    rw [UInt32.toNat_div, UInt32.toNat_mul]
    rfl
  have aligned : 512 * ((block.toNat * sb.bs) % 2 ^ 32 / 512 % 2 ^ 28) =
      (block.toNat * sb.bs) % 2 ^ 32 := by
    have multiple : (block.toNat * sb.bs) % 2 ^ 32 = 512 * (t * (block.toNat % M)) := by
      rw [← range, Nat.mul_comm block.toNat, Nat.mul_mod_mul_left]
      conv_lhs => rw [sectors]
      ring
    have bounded := Nat.mod_lt (block.toNat * sb.bs) (Nat.two_pow_pos 32)
    omega
  have served : 512 * min (2 ^ (k + 1)) (ataServed (2 ^ (k + 1))) = min sb.bs reach := by
    rw [served_power, SuperBlock.bs, size]
    congr 1
    ring
  simp only [ext2Read, bread, ataReadSectors, m.same, m.whole, UInt32.add_zero, count, lba,
    aligned, served]
  by_cases seen : i < reach
  · rw [if_pos seen, if_pos (by omega)]
  · rw [if_neg seen, if_neg (by omega)]

end Blocks

/-! ## Sectors -/

def ataCommand (lba : UInt32) (secCount : Nat) : Nat × Nat :=
  (lba.toNat % 2 ^ 28, ataServed secCount)

def ext2Command (sb : SuperBlock) (block blkcount : UInt32) : Nat × Nat :=
  ataCommand (block * sb.sBlocksize / 512 + sb.bdStart) (blkcount * sb.sBlocksize / 512).toNat

theorem ext2Read_command (disk : Mem) (sb : SuperBlock) (block blkcount : UInt32)
    (buf : Mem) (i : Nat) :
    ext2Read disk sb block blkcount buf i =
      if i < 512 * min (blkcount * sb.sBlocksize / 512).toNat (ext2Command sb block blkcount).2 then
        disk (512 * (ext2Command sb block blkcount).1 + i)
      else buf i := rfl

theorem ataServed_few {n : Nat} (some' : 1 ≤ n) (few : n ≤ 256) : ataServed n = n := by
  unfold ataServed
  split
  · omega
  · omega

/-- Blocks of up to 4096 bytes are read from their own sectors exactly if they begin in the first
    4 GiB of the volume. -/
theorem command_right_iff {sb : SuperBlock} {k : Nat} (_accepted : k ≤ 2)
    (size : sb.sBlocksize.toNat = 1024 * 2 ^ k)
    {b c : UInt32} (sector : sb.bdStart.toNat + b.toNat * sb.sBlocksize.toNat / 512 < 2 ^ 28)
    (some' : 1 ≤ c.toNat)
    (few : c.toNat * sb.sBlocksize.toNat / 512 ≤ 256) :
    ext2Command sb b c =
        (sb.bdStart.toNat + b.toNat * sb.sBlocksize.toNat / 512,
        c.toNat * sb.sBlocksize.toNat / 512) ↔
      b.toNat * sb.sBlocksize.toNat < 2 ^ 32 := by
  have least : 1024 ≤ c.toNat * sb.sBlocksize.toNat := by
    have one := Nat.one_le_two_pow (n := k)
    calc 1024 ≤ 1 * (1024 * 2 ^ k) := by omega
      _ ≤ c.toNat * (1024 * 2 ^ k) := Nat.mul_le_mul_right _ some'
      _ = c.toNat * sb.sBlocksize.toNat := by rw [size]
  have count : (c * sb.sBlocksize / 512).toNat = c.toNat * sb.sBlocksize.toNat / 512 := by
    have fits : c.toNat * sb.sBlocksize.toNat < 2 ^ 32 := by omega
    rw [UInt32.toNat_div, UInt32.toNat_mul, Nat.mod_eq_of_lt fits]
    rfl
  have served := ataServed_few (n := c.toNat * sb.sBlocksize.toNat / 512) (by omega) few
  have first : (b * sb.sBlocksize / 512 + sb.bdStart).toNat =
      (b.toNat * sb.sBlocksize.toNat % 2 ^ 32 / 512 + sb.bdStart.toNat) % 2 ^ 32 := by
    rw [UInt32.toNat_add, UInt32.toNat_div, UInt32.toNat_mul]
    rfl
  rw [ext2Command, ataCommand, count, served, first, Prod.mk.injEq, and_iff_left rfl]
  generalize b.toNat * sb.sBlocksize.toNat = place at *
  omega

def volume : SuperBlock where
  sBlocksize := 1024
  bdStart := 0
  info := {
    sBlockSize := 1024
    sInodeSize := 128
    sInodesPerGroup := 1024
    sGroupDesc := []
    sGroupCount := 0 }

theorem fifth_block_command : ext2Command volume 5 1 = (10, 2) :=
  (command_right_iff (k := 0) (by decide) rfl (by decide) (by decide) (by decide)).mpr (by decide)

/-- The block after the first 4 GiB is read from sector 0. -/
theorem far_block_aliased :
    ext2Command volume 4194304 1 = (0, 2) ∧
      ext2Command volume 4194304 1 ≠
        (volume.bdStart.toNat + 4194304 * volume.sBlocksize.toNat / 512,
        1 * volume.sBlocksize.toNat / 512) := by
  decide +kernel

end Ext2
