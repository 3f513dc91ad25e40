import NoobOs.Ext2.Disk
import Mathlib.Tactic.IntervalCases

/- `ext2_read_ino` of `ext2.c` against the place the format gives an inode. -/
namespace Ext2
open ByteMemory

def inodeBytes : Nat := 128

def bytes (mem : Mem) (start count : Nat) : List UInt8 :=
  (List.range count).map fun i => mem (start + i)

/-- `ino` is an `int32_t` that every operation here takes as its 32 bits. `none` is a
    group descriptor that is not there. -/
def ext2ReadIno (disk : Mem) (sb : SuperBlock) (ino : UInt32) : Option (List UInt8) := do
  let group := ino / sb.info.sInodesPerGroup
  let ino := ino % sb.info.sInodesPerGroup
  let itab := (← sb.groupDesc group.toNat).bgInodeTable
  let isiz := sb.info.sInodeSize
  let off := (ino - 1) * isiz
  let blk := itab + off / sb.info.sBlockSize
  let boff := off % sb.info.sBlockSize
  let buf := ext2Read disk sb blk 1 zeroed
  return bytes buf boff.toNat inodeBytes

def SuperBlock.perGroup (sb : SuperBlock) : Nat := sb.info.sInodesPerGroup.toNat
def SuperBlock.isiz (sb : SuperBlock) : Nat := sb.info.sInodeSize.toNat

/-! ## The format -/

def SuperBlock.groupOf (sb : SuperBlock) (ino : UInt32) : Nat := (ino.toNat - 1) / sb.perGroup

def SuperBlock.recordOffset (sb : SuperBlock) (ino : UInt32) : Nat :=
  (ino.toNat - 1) % sb.perGroup * sb.isiz

def SuperBlock.recordAddr (sb : SuperBlock) (d : BlockGroup) (ino : UInt32) : Nat :=
  d.bgInodeTable.toNat * sb.bs + sb.recordOffset ino

def ReadsRecord (disk : Mem) (sb : SuperBlock) (ino : UInt32) : Prop :=
  ∃ d, sb.groupDesc (sb.groupOf ino) = some d ∧
    ext2ReadIno disk sb ino = some (bytes disk (sb.recordAddr d ino) inodeBytes)

/-- The code takes the last inode of a group for the one before the first of the next
    group: right only if that group has a descriptor whose table starts, modulo 2^32,
    where the table of this group ends. Any other inode has to be below 4 GiB. -/
def Addressed (sb : SuperBlock) (ino : UInt32) : Prop :=
  ∃ d, sb.groupDesc (sb.groupOf ino) = some d ∧ sb.recordOffset ino % sb.bs < reach ∧
    if sb.perGroup ∣ ino.toNat then
      ∃ d', sb.groupDesc (ino.toNat / sb.perGroup) = some d' ∧
        (d'.bgInodeTable.toNat * sb.bs + (2 ^ 32 - sb.bs)) % 2 ^ 32 + sb.bs =
          d.bgInodeTable.toNat * sb.bs + sb.perGroup * sb.isiz
    else sb.recordAddr d ino < 2 ^ 32

section Addresses
variable {sb : SuperBlock} {ino : UInt32}

/-- The offset the code computes, before it is cut to 32 bits. -/
def SuperBlock.codeOffset (sb : SuperBlock) (ino : UInt32) : Nat :=
  (ino % sb.info.sInodesPerGroup - 1).toNat * sb.isiz

def SuperBlock.codeAddr (sb : SuperBlock) (d : BlockGroup) (ino : UInt32) : Nat :=
  ((d.bgInodeTable.toNat + sb.codeOffset ino / sb.bs) * sb.bs) % 2 ^ 32 + sb.codeOffset ino % sb.bs

theorem Mounted.isiz_pos (m : Mounted sb) : 0 < sb.isiz := by
  obtain ⟨a, _, size⟩ := m.inodeSize
  rw [SuperBlock.isiz, size]
  exact Nat.two_pow_pos a

theorem Mounted.isiz_large (m : Mounted sb) : 128 ∣ sb.isiz := by
  obtain ⟨a, large, size⟩ := m.inodeSize
  rw [SuperBlock.isiz, size]
  exact Nat.pow_dvd_pow 2 large

theorem Mounted.record_inside (m : Mounted sb) {x y i : Nat} (start : x = y * sb.isiz)
    (inside : i < inodeBytes) :
    x % sb.bs + i < sb.bs ∧ (x % sb.bs + i < reach ↔ x % sb.bs < reach) := by
  have fits : 128 ∣ sb.bs := m.isiz_large.trans m.inodeFits
  have aligned : 128 ∣ x % sb.bs :=
    (Nat.dvd_mod_iff fits).mpr (start ▸ m.isiz_large.mul_left y)
  have below := Nat.mod_lt x m.bs_pos
  unfold inodeBytes at inside
  unfold reach
  omega

theorem cut_block {bs M itab x : Nat} (range : bs * M = 2 ^ 32) :
    ((itab + x % 2 ^ 32 / bs) % 2 ^ 32 * bs) % 2 ^ 32 = ((itab + x / bs) * bs) % 2 ^ 32 := by
  have within : (itab + x % 2 ^ 32 / bs) % 2 ^ 32 % M = (itab + x / bs) % M := by
    have divides : M ∣ 2 ^ 32 := ⟨bs, by rw [← range, Nat.mul_comm]⟩
    rw [Nat.mod_mod_of_dvd _ divides, ← range, Nat.mod_mul_right_div_self, Nat.add_mod_mod]
  rw [← range, Nat.mul_comm _ bs, Nat.mul_comm _ bs, Nat.mul_mod_mul_left, Nat.mul_mod_mul_left,
    range, within]

/-- What the code returns: the record at its own address, or zeros it never read. -/
theorem ext2ReadIno_eq (m : Mounted sb) (disk : Mem) {d : BlockGroup}
    (here : sb.groupDesc (ino.toNat / sb.perGroup) = some d) :
    ext2ReadIno disk sb ino = some (if sb.codeOffset ino % sb.bs < reach then
      bytes disk (sb.codeAddr d ino) inodeBytes else bytes zeroed 0 inodeBytes) := by
  obtain ⟨M, _, range⟩ := m.blocks_in_range
  have off : ((ino % sb.info.sInodesPerGroup - 1) * sb.info.sInodeSize : UInt32).toNat =
      sb.codeOffset ino % 2 ^ 32 := by
    rw [UInt32.toNat_mul]
    rfl
  have boff : ((ino % sb.info.sInodesPerGroup - 1) * sb.info.sInodeSize % sb.info.sBlockSize :
    UInt32).toNat =
      sb.codeOffset ino % sb.bs := by
    rw [UInt32.toNat_mod, off, ← range]
    exact Nat.mod_mul_right_mod _ _ _
  have blk : ((d.bgInodeTable + (ino % sb.info.sInodesPerGroup - 1) * sb.info.sInodeSize /
      sb.info.sBlockSize : UInt32).toNat * sb.bs) % 2 ^ 32 =
      ((d.bgInodeTable.toNat + sb.codeOffset ino / sb.bs) * sb.bs) % 2 ^ 32 := by
    rw [UInt32.toNat_add, UInt32.toNat_div, off]
    exact cut_block range
  have group : sb.groupDesc (ino / sb.info.sInodesPerGroup).toNat = some d := by
    rw [UInt32.toNat_div]
    exact here
  unfold ext2ReadIno
  simp only [group, Option.bind_eq_bind, Option.bind_some, Option.pure_def, Option.some.injEq, boff]
  have start : sb.codeOffset ino = (ino % sb.info.sInodesPerGroup - 1).toNat * sb.isiz := rfl
  split
  · next seen =>
    apply List.map_congr_left
    intro i member
    obtain ⟨inside, also⟩ := m.record_inside start (List.mem_range.mp member)
    rw [ext2Read_block m disk zeroed _ inside, if_pos (also.mpr seen), blk,
      SuperBlock.codeAddr, Nat.add_assoc]
  · next unseen =>
    apply List.map_congr_left
    intro i member
    obtain ⟨inside, also⟩ := m.record_inside start (List.mem_range.mp member)
    rw [ext2Read_block m disk zeroed _ inside, if_neg (fun seen => unseen (also.mp seen))]
    rfl

theorem ext2ReadIno_missing (missing : sb.groupDesc (ino.toNat / sb.perGroup) = none) (disk : Mem) :
    ext2ReadIno disk sb ino = none := by
  have group : sb.groupDesc (ino / sb.info.sInodesPerGroup).toNat = none := by
    rw [UInt32.toNat_div]
    exact missing
  unfold ext2ReadIno
  simp only [group, Option.bind_eq_bind, Option.bind_none]

/-- The bytes of a record differ from those at another place on the disk that has a one
    at the first byte of the record and zeros elsewhere. -/
theorem bytes_elsewhere {a b : Nat}
    (same : ∀ disk : Mem, bytes disk b inodeBytes = bytes disk a inodeBytes) :
    b = a := by
  have first := congrArg List.head? (same fun x => if x = a then 1 else 0)
  simp only [bytes, inodeBytes, List.head?_map, List.head?_range] at first
  by_contra different
  simp [different] at first

theorem zeros_elsewhere {a : Nat} : ¬ ∀ disk :
    Mem, bytes zeroed 0 inodeBytes = bytes disk a inodeBytes := by
  intro same
  have first := congrArg List.head? (same fun _ => 1)
  simp [bytes, inodeBytes, zeroed] at first

/-- Off the group boundary the code has group and index right. -/
theorem codeOffset_inner (m : Mounted sb) (inner : ¬ sb.perGroup ∣ ino.toNat) :
    ino.toNat / sb.perGroup = sb.groupOf ino ∧ sb.codeOffset ino = sb.recordOffset ino := by
  have positive : 0 < sb.perGroup := m.inodes
  have more : 1 ≤ ino.toNat % sb.perGroup :=
    Nat.one_le_iff_ne_zero.mpr fun zero => inner (Nat.dvd_of_mod_eq_zero zero)
  have below := Nat.mod_lt ino.toNat positive
  have whole := Nat.div_add_mod ino.toNat sb.perGroup
  have split : ino.toNat - 1 = sb.perGroup * (ino.toNat / sb.perGroup) +
      (ino.toNat % sb.perGroup - 1) := by
    omega
  have index : (ino % sb.info.sInodesPerGroup - 1).toNat = ino.toNat % sb.perGroup - 1 := by
    rw [UInt32.toNat_sub_of_le, UInt32.toNat_mod]
    · rfl
    · rw [UInt32.le_iff_toNat_le, UInt32.toNat_mod]
      exact more
  have last : ino.toNat % sb.perGroup - 1 < sb.perGroup := by omega
  constructor
  · rw [SuperBlock.groupOf, split, Nat.mul_add_div positive, Nat.div_eq_of_lt last, Nat.add_zero]
  · rw [SuperBlock.codeOffset, SuperBlock.recordOffset, index, split, Nat.mul_add_mod,
      Nat.mod_eq_of_lt last]

theorem recordOffset_boundary (m : Mounted sb) (named : 1 ≤ ino.toNat)
    (boundary : sb.perGroup ∣ ino.toNat) :
    sb.recordOffset ino + sb.isiz = sb.perGroup * sb.isiz := by
  have positive : 0 < sb.perGroup := m.inodes
  obtain ⟨q, shape⟩ := boundary
  have more : 1 ≤ q := Nat.one_le_iff_ne_zero.mpr fun zero => by simp [zero] at shape; omega
  obtain ⟨p, rfl⟩ : ∃ p, q = p + 1 := ⟨q - 1, by omega⟩
  have split : ino.toNat - 1 = sb.perGroup * p + (sb.perGroup - 1) := by
    rw [shape, Nat.mul_add, Nat.mul_one]
    omega
  rw [SuperBlock.recordOffset, split, Nat.mul_add_mod, Nat.mod_eq_of_lt (by omega),
    ← Nat.succ_mul, Nat.succ_eq_add_one, Nat.sub_add_cancel positive]

/-- There the code steps back from the table of the next group by one record. -/
theorem codeAddr_boundary (m : Mounted sb) (boundary : sb.perGroup ∣ ino.toNat) (d : BlockGroup) :
    sb.codeOffset ino % sb.bs + sb.isiz = sb.bs ∧
    sb.codeAddr d ino + sb.isiz = (d.bgInodeTable.toNat * sb.bs + (2 ^ 32 - sb.bs)) %
    2 ^ 32 + sb.bs := by
  obtain ⟨M, some', range⟩ := m.blocks_in_range
  have positive := m.isiz_pos
  have fits : sb.isiz ≤ sb.bs := Nat.le_of_dvd m.bs_pos m.inodeFits
  have below : sb.bs ≤ 2 ^ 32 := range ▸ Nat.le_mul_of_pos_right _ some'
  have zero : ino % sb.info.sInodesPerGroup = 0 := by
    apply UInt32.toNat_inj.mp
    rw [UInt32.toNat_mod]
    exact Nat.mod_eq_zero_of_dvd boundary
  obtain ⟨p, size⟩ : ∃ p, sb.isiz = p + 1 := ⟨sb.isiz - 1, by omega⟩
  have offset : sb.codeOffset ino + sb.isiz = 2 ^ 32 * sb.isiz := by
    have minus : ((0 : UInt32) - 1).toNat = 2 ^ 32 - 1 := by decide
    rw [SuperBlock.codeOffset, zero, minus]
    omega
  -- `2^32 * isiz - isiz` split at the last block boundary below it.
  have back : sb.codeOffset ino = sb.bs * (M * p + (M - 1)) + (sb.bs - sb.isiz) := by
    have blocks : sb.bs * (M * p + (M - 1)) + sb.bs = 2 ^ 32 * sb.isiz := by
      rw [← Nat.mul_succ, Nat.succ_eq_add_one, Nat.add_assoc,
        Nat.sub_add_cancel some', size, ← range]
      ring
    omega
  have rest : sb.codeOffset ino % sb.bs = sb.bs - sb.isiz := by
    rw [back, Nat.mul_add_mod, Nat.mod_eq_of_lt (by omega)]
  have block : sb.codeOffset ino / sb.bs = M * p + (M - 1) := by
    rw [back, Nat.mul_add_div m.bs_pos, Nat.div_eq_of_lt (by omega), Nat.add_zero]
  refine ⟨by omega, ?_⟩
  have turns : (d.bgInodeTable.toNat + (M * p + (M - 1))) * sb.bs =
      d.bgInodeTable.toNat * sb.bs + (2 ^ 32 - sb.bs) + 2 ^ 32 * p := by
    have last : (M - 1) * sb.bs = 2 ^ 32 - sb.bs := by
      rw [Nat.sub_mul, Nat.one_mul, Nat.mul_comm M, range]
    have many : M * p * sb.bs = 2 ^ 32 * p := by
      rw [← range]
      ring
    rw [Nat.add_mul, Nat.add_mul, last, many]
    omega
  rw [SuperBlock.codeAddr, block, rest, turns, Nat.add_mul_mod_self_left]
  omega

/-- Off the boundary the address differs from the record's by a multiple of 2^32. -/
theorem codeAddr_inner (m : Mounted sb) (inner : ¬ sb.perGroup ∣ ino.toNat) (d : BlockGroup) :
    sb.codeAddr d ino = sb.recordAddr d ino ↔ sb.recordAddr d ino < 2 ^ 32 := by
  obtain ⟨M, some', range⟩ := m.blocks_in_range
  have offset := (codeOffset_inner m inner).2
  have whole := Nat.div_add_mod (sb.recordOffset ino) sb.bs
  have rest := Nat.mod_lt (sb.recordOffset ino) m.bs_pos
  have split : sb.recordAddr d ino =
      (d.bgInodeTable.toNat + sb.recordOffset ino / sb.bs) * sb.bs +
          sb.recordOffset ino % sb.bs := by
    rw [SuperBlock.recordAddr, Nat.add_mul, Nat.mul_comm (_ / _)]
    omega
  have cut : ((d.bgInodeTable.toNat + sb.recordOffset ino / sb.bs) * sb.bs) % 2 ^ 32 =
      sb.bs * ((d.bgInodeTable.toNat + sb.recordOffset ino / sb.bs) % M) := by
    rw [← range, Nat.mul_comm _ sb.bs, Nat.mul_mod_mul_left]
  rw [SuperBlock.codeAddr, offset, split]
  constructor
  · intro same
    have last := Nat.mod_lt (d.bgInodeTable.toNat + sb.recordOffset ino / sb.bs) some'
    have low := Nat.mul_le_mul_left sb.bs (Nat.succ_le_of_lt last)
    rw [Nat.mul_succ, range, ← cut] at low
    omega
  · intro low
    rw [Nat.mod_eq_of_lt (by omega)]

/-- A table that ends where the next one starts ends with a block, and so does its last
    record. -/
theorem recordOffset_adjacent (m : Mounted sb) (named : 1 ≤ ino.toNat)
    (boundary : sb.perGroup ∣ ino.toNat)
    {itab itab' : Nat} (adjacent : (itab' * sb.bs + (2 ^ 32 - sb.bs)) % 2 ^ 32 + sb.bs =
      itab * sb.bs + sb.perGroup * sb.isiz) :
    sb.recordOffset ino % sb.bs + sb.isiz = sb.bs := by
  obtain ⟨M, _, range⟩ := m.blocks_in_range
  have fits : sb.isiz ≤ sb.bs := Nat.le_of_dvd m.bs_pos m.inodeFits
  have positive := m.isiz_pos
  have divides : sb.bs ∣ 2 ^ 32 := ⟨M, range.symm⟩
  have left : sb.bs ∣ (itab' * sb.bs + (2 ^ 32 - sb.bs)) % 2 ^ 32 + sb.bs := by
    apply Nat.dvd_add _ (Nat.dvd_refl _)
    apply (Nat.dvd_mod_iff divides).mpr
    exact Nat.dvd_add (Nat.dvd_mul_left _ _) (Nat.dvd_sub divides (Nat.dvd_refl _))
  rw [adjacent] at left
  obtain ⟨q, whole⟩ := (Nat.dvd_add_right (Nat.dvd_mul_left sb.bs itab)).mp left
  rw [← recordOffset_boundary m named boundary] at whole
  have more : 1 ≤ q := Nat.one_le_iff_ne_zero.mpr fun zero => by
    rw [zero, Nat.mul_zero] at whole
    omega
  obtain ⟨p, rfl⟩ : ∃ p, q = p + 1 := ⟨q - 1, by omega⟩
  have split : sb.recordOffset ino = sb.bs * p + (sb.bs - sb.isiz) := by
    rw [Nat.mul_succ] at whole
    omega
  rw [split, Nat.mul_add_mod, Nat.mod_eq_of_lt (by omega)]
  omega

theorem addressed_iff (m : Mounted sb) (named : 1 ≤ ino.toNat) {d : BlockGroup}
    (own : sb.groupDesc (sb.groupOf ino) = some d) :
    Addressed sb ino ↔ ∃ d', sb.groupDesc (ino.toNat / sb.perGroup) = some d' ∧
      sb.codeOffset ino % sb.bs < reach ∧ sb.codeAddr d' ino = sb.recordAddr d ino := by
  unfold Addressed
  rw [own]
  by_cases boundary : sb.perGroup ∣ ino.toNat
  · have offset := recordOffset_boundary m named boundary
    have addr : sb.recordAddr d ino + sb.isiz =
        d.bgInodeTable.toNat * sb.bs + sb.perGroup * sb.isiz := by
      rw [SuperBlock.recordAddr]
      omega
    simp only [if_pos boundary, Option.some.injEq, exists_eq_left']
    constructor
    · rintro ⟨served, d', here, adjacent⟩
      obtain ⟨rest, code⟩ := codeAddr_boundary m boundary d'
      have last := recordOffset_adjacent m named boundary adjacent
      exact ⟨d', here, by omega, by omega⟩
    · rintro ⟨d', here, served, same⟩
      obtain ⟨rest, code⟩ := codeAddr_boundary m boundary d'
      have adjacent : (d'.bgInodeTable.toNat * sb.bs + (2 ^ 32 - sb.bs)) % 2 ^ 32 + sb.bs =
          d.bgInodeTable.toNat * sb.bs + sb.perGroup * sb.isiz := by omega
      have last := recordOffset_adjacent m named boundary adjacent
      exact ⟨by omega, d', here, adjacent⟩
  · obtain ⟨group, offset⟩ := codeOffset_inner m boundary
    simp only [if_neg boundary, Option.some.injEq, exists_eq_left', group, own, offset,
      codeAddr_inner m boundary]

end Addresses

/-- For a mounted volume and an inode number in its range: whatever the disk holds, the
    record is read, exactly if the code's address is the record's. -/
theorem read_ino_iff_addressed {sb : SuperBlock} (m : Mounted sb) {ino : UInt32}
    (named : 1 ≤ ino.toNat)
    (inRange : ino.toNat ≤ sb.perGroup * sb.info.sGroupCount) :
    (∀ disk, ReadsRecord disk sb ino) ↔ Addressed sb ino := by
  have positive : 0 < sb.perGroup := m.inodes
  obtain ⟨d, own⟩ : ∃ d, sb.groupDesc (sb.groupOf ino) = some d := by
    apply m.loaded
    rw [SuperBlock.groupOf, Nat.div_lt_iff_lt_mul positive, Nat.mul_comm]
    omega
  rw [addressed_iff m named own]
  constructor
  · intro reads
    have record : ∀ disk, ext2ReadIno disk sb ino =
        some (bytes disk (sb.recordAddr d ino) inodeBytes) := by
      intro disk
      obtain ⟨e, here, read⟩ := reads disk
      rw [own, Option.some.injEq] at here
      exact here ▸ read
    cases code : sb.groupDesc (ino.toNat / sb.perGroup) with
    | none =>
      have fault := ext2ReadIno_missing code zeroed
      rw [record zeroed] at fault
      exact absurd fault (by simp)
    | some d' =>
      have result := fun disk => (ext2ReadIno_eq m disk code).symm.trans (record disk)
      simp only [Option.some.injEq] at result
      by_cases served : sb.codeOffset ino % sb.bs < reach
      · simp only [if_pos served] at result
        exact ⟨d', rfl, served, bytes_elsewhere result⟩
      · simp only [if_neg served] at result
        exact absurd result zeros_elsewhere
  · rintro ⟨d', here, served, same⟩ disk
    refine ⟨d, own, ?_⟩
    rw [ext2ReadIno_eq m disk here, if_pos served, same]

def twoGroups : SuperBlock :=
  ⟨1024, 0, ⟨1024, 128, 16, [some ⟨5⟩, some ⟨8197⟩, none, none, none, none, none, none], 2⟩⟩

theorem twoGroups_mounted : Mounted twoGroups where
  blocks := ⟨0, by decide, by decide⟩
  same := rfl
  whole := rfl
  inodes := by decide
  inodeSize := ⟨7, by decide, by decide⟩
  inodeFits := ⟨8, by decide⟩
  descs := rfl
  loaded := by
    intro g below
    have two : g < 2 := below
    interval_cases g
    · exact ⟨⟨5⟩, rfl⟩
    · exact ⟨⟨8197⟩, rfl⟩

theorem twoGroups_reads_first_file :
    Addressed twoGroups 11 ∧ ∀ disk, ReadsRecord disk twoGroups 11 := by
  have addressed : Addressed twoGroups 11 := by
    refine ⟨⟨5⟩, rfl, by decide, ?_⟩
    rw [if_neg (by decide)]
    decide
  exact ⟨addressed,
    (read_ino_iff_addressed twoGroups_mounted (by decide) (by decide)).mpr addressed⟩

/-- Inode 16 is read from the block before the table of the second group. -/
theorem twoGroups_misses_last_inode :
    Mounted twoGroups ∧ 16 ≤ twoGroups.perGroup * twoGroups.info.sGroupCount ∧
      ¬ ReadsRecord (store8 zeroed 7040 1) twoGroups 16 := by
  refine ⟨twoGroups_mounted, by decide, ?_⟩
  rintro ⟨d, own, read⟩
  obtain rfl : (⟨5⟩ : BlockGroup) = d := Option.some.inj own
  exact absurd read (by decide +kernel)

end Ext2
