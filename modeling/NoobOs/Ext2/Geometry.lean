import NoobOs.Ext2.ReadIno
import Mathlib.Data.Rat.Floor

/-!
`ext2_fill_super` of `ext2fs.c`: the geometry it takes from a superblock image, with every
division, shift and store to the tables of `ext2_sb_info` checked. It counts the groups from
block 0 on in 16 bits, stores a descriptor for each until the block of descriptors ends, and
`ext2_read_ino` looks an inode up in group `ino / s_inodes_per_group`.
-/
namespace Ext2
open ByteMemory

inductive FillFault where
  | divide
  | shift
  | outside
  deriving DecidableEq

structure Superblock where
  inodesCount : UInt32
  blocksCount : UInt32
  firstDataBlock : UInt32
  logBlockSiz : UInt32
  blocksPerGroup : UInt32
  inodesPerGroup : UInt32
  magic : Nat
  inodeSiz : Nat
  deriving DecidableEq

def superblockAt (buf : Mem) : Superblock where
  inodesCount := UInt32.ofNat (load32 buf 0)
  blocksCount := UInt32.ofNat (load32 buf 4)
  firstDataBlock := UInt32.ofNat (load32 buf 20)
  logBlockSiz := UInt32.ofNat (load32 buf 24)
  blocksPerGroup := UInt32.ofNat (load32 buf 32)
  inodesPerGroup := UInt32.ofNat (load32 buf 40)
  magic := load16 buf 56
  inodeSiz := load16 buf 88

/-- `bread(bd, 2, 2, buf)` into a new buffer. -/
def imageAt (disk : Mem) (bdStart : UInt32) : Superblock :=
  superblockAt (ataReadSectors disk (2 + bdStart) 2 zeroed)

def ext2SuperMagic : Nat := 0xef53

def blockgroupBytes : UInt32 := 32

def divRoundUp (n d : UInt32) : Except FillFault UInt32 :=
  if d = 0 then .error .divide else .ok ((n + d - 1) / d)

def loadGroups (buff : Mem) (blocksize : UInt32) :
    Nat → Nat → UInt32 → List (Option BlockGroup) → Except FillFault (List (Option BlockGroup))
  | 0, _, _, descs => .ok descs
  | left + 1, i, off, descs =>
    if i < ext2MaxGroupLoaded then
      let descs := descs.set i (some ⟨UInt32.ofNat (load32 buff (off.toNat + 8))⟩)
      let off := off + blockgroupBytes
      if off ≥ blocksize then .ok descs else loadGroups buff blocksize left (i + 1) off descs
    else .error .outside

/-- The divisions of `ext2_read_ino` and the descriptor it uses; `none` is one not loaded. -/
def readInoDesc (sb : SuperBlock) (ino : UInt32) : Except FillFault (Option BlockGroup) :=
  if sb.info.sInodesPerGroup = 0 then .error .divide
  else if sb.info.sBlockSize = 0 then .error .divide
  else .ok (sb.groupDesc (ino / sb.info.sInodesPerGroup).toNat)

/-- `none` is a disk without the magic. The root inode, read at the end, is not in memory before. -/
def ext2FillSuper (disk : Mem) (bdStart : UInt32) : Except FillFault (Option SuperBlock) := do
  let e2sb := imageAt disk bdStart
  if e2sb.magic ≠ ext2SuperMagic then return none
  if 32 ≤ e2sb.logBlockSiz then throw .shift
  let blocksize := 1024 <<< e2sb.logBlockSiz
  let count := (← divRoundUp e2sb.blocksCount e2sb.blocksPerGroup).toNat % 2 ^ 16
  let empty := List.replicate ext2MaxGroupLoaded none
  let sb : SuperBlock :=
    ⟨blocksize, bdStart, ⟨blocksize, UInt32.ofNat e2sb.inodeSiz, e2sb.inodesPerGroup, empty, count⟩⟩
  let buff := ext2Read disk sb (if blocksize > 1024 then 1 else 2) 1 zeroed
  let descs ← loadGroups buff blocksize count 0 0 empty
  let sb : SuperBlock := { sb with info := { sb.info with sGroupDesc := descs } }
  let _ ← readInoDesc sb 2
  return some sb

/-! ## The format -/

def Superblock.groups (e : Superblock) : Int :=
  ⌈(((e.blocksCount.toNat : Int) - e.firstDataBlock.toNat : Int) : ℚ) / e.blocksPerGroup.toNat⌉

/-- `ext2_fill_super` stays inside arithmetic and tables, counts the groups of the format, and
    loads a descriptor for every inode there is. -/
def GeometryRight (disk : Mem) (bdStart : UInt32) : Prop :=
  ∃ sb, ext2FillSuper disk bdStart = .ok (some sb) ∧
    (sb.info.sGroupCount : Int) = (imageAt disk bdStart).groups ∧
    ∀ ino : UInt32, 1 ≤ ino.toNat → ino.toNat ≤ (imageAt disk bdStart).inodesCount.toNat →
      ∃ d record, readInoDesc sb ino = .ok (some d) ∧ ext2ReadIno disk sb ino = some record

/-- The images it is right for. The number of groups is cut to 16 bits, counted from block 0, and
    0 if the rounding up wraps. -/
structure Supported (e : Superblock) : Prop where
  log : e.logBlockSiz.toNat < 22
  perGroup : e.blocksPerGroup ≠ 0
  inodes : e.inodesPerGroup ≠ 0
  few : e.groups ≤ ext2MaxGroupLoaded
  counted : e.groups = if e.blocksCount.toNat + e.blocksPerGroup.toNat ≤ 2 ^ 32 then
    ⌈(e.blocksCount.toNat : ℚ) / e.blocksPerGroup.toNat⌉ % 2 ^ 16 else 0
  held : 1 ≤ e.inodesCount.toNat → e.inodesCount.toNat < e.inodesPerGroup.toNat * e.groups

section Fill
variable {disk : Mem} {bdStart : UInt32}

theorem bind_ok_iff {ε α β : Type} {x : Except ε α} {f : α → Except ε β} {b : β} :
    (x >>= f) = .ok b ↔ ∃ a, x = .ok a ∧ f a = .ok b := by
  cases x with
  | error fault => simp [bind, Except.bind]
  | ok a => simp [bind, Except.bind]

def bare (e : Superblock) (bdStart : UInt32) (count : Nat) (descs : List (Option BlockGroup)) :
    SuperBlock :=
  ⟨1024 <<< e.logBlockSiz, bdStart,
    ⟨1024 <<< e.logBlockSiz, UInt32.ofNat e.inodeSiz, e.inodesPerGroup, descs, count⟩⟩

def descBlock (disk : Mem) (e : Superblock) (bdStart : UInt32) (count : Nat) : Mem :=
  ext2Read disk (bare e bdStart count (List.replicate ext2MaxGroupLoaded none))
    (if 1024 <<< e.logBlockSiz > 1024 then 1 else 2) 1 zeroed

theorem ext2FillSuper_ok_iff {sb : SuperBlock}
    (magic : (imageAt disk bdStart).magic = ext2SuperMagic) :
    ext2FillSuper disk bdStart = .ok (some sb) ↔
      ¬ 32 ≤ (imageAt disk bdStart).logBlockSiz ∧
      ∃ n, divRoundUp (imageAt disk bdStart).blocksCount
      (imageAt disk bdStart).blocksPerGroup = .ok n ∧
      ∃ descs, loadGroups (descBlock disk (imageAt disk bdStart) bdStart (n.toNat % 2 ^ 16))
          (1024 <<< (imageAt disk bdStart).logBlockSiz) (n.toNat % 2 ^ 16) 0 0
          (List.replicate ext2MaxGroupLoaded none) = .ok descs ∧
        sb = bare (imageAt disk bdStart) bdStart (n.toNat % 2 ^ 16) descs ∧
        ∃ desc, readInoDesc sb 2 = .ok desc := by
  generalize image : imageAt disk bdStart = e at magic ⊢
  unfold ext2FillSuper
  simp only [image, magic, ne_eq, not_true_eq_false, if_false]
  by_cases wide : 32 ≤ e.logBlockSiz
  · simp only [wide, if_true, not_true_eq_false, false_and, bind_ok_iff, throw, throwThe,
      MonadExceptOf.throw, reduceCtorEq, exists_false]
  · simp only [wide, if_false, not_false_eq_true, true_and, bind_ok_iff]
    constructor
    · rintro ⟨n, counted, descs, loaded, desc, read, same⟩
      obtain rfl : bare e bdStart (n.toNat % 2 ^ 16) descs = sb :=
        Option.some.inj (Except.ok.inj same)
      exact ⟨n, counted, descs, loaded, rfl, desc, read⟩
    · rintro ⟨n, counted, descs, loaded, rfl, desc, read⟩
      exact ⟨n, counted, descs, loaded, desc, read, rfl⟩

def Superblock.codeCount (e : Superblock) : Nat :=
  if e.blocksCount.toNat + e.blocksPerGroup.toNat ≤ 2 ^ 32 then
    (e.blocksCount.toNat + e.blocksPerGroup.toNat - 1) / e.blocksPerGroup.toNat % 2 ^ 16
  else 0

theorem word_pos {w : UInt32} (nonzero : w ≠ 0) : 0 < w.toNat := by
  rcases Nat.eq_zero_or_pos w.toNat with zero | positive
  · exact absurd (UInt32.toNat_inj.mp zero) nonzero
  · exact positive

theorem divRoundUp_ok {e : Superblock} {n : UInt32}
    (counted : divRoundUp e.blocksCount e.blocksPerGroup = .ok n) :
    e.blocksPerGroup ≠ 0 ∧ n.toNat % 2 ^ 16 = e.codeCount := by
  by_cases zero : e.blocksPerGroup = 0
  · simp [divRoundUp, zero] at counted
  · refine ⟨zero, ?_⟩
    rw [divRoundUp, if_neg zero] at counted
    obtain rfl := Except.ok.inj counted
    have positive := word_pos zero
    have low := e.blocksCount.toNat_lt
    have high := e.blocksPerGroup.toNat_lt
    have sum : (e.blocksCount + e.blocksPerGroup - 1).toNat =
        (e.blocksCount.toNat + e.blocksPerGroup.toNat + (2 ^ 32 - 1)) % 2 ^ 32 := by
      rw [UInt32.toNat_sub, UInt32.toNat_add]
      have one : UInt32.toNat 1 = 1 := rfl
      rw [one]
      omega
    rw [UInt32.toNat_div, sum, Superblock.codeCount]
    split
    · next fits =>
      have same : (e.blocksCount.toNat + e.blocksPerGroup.toNat + (2 ^ 32 - 1)) % 2 ^ 32 =
          e.blocksCount.toNat + e.blocksPerGroup.toNat - 1 := by omega
      rw [same]
    · next wraps =>
      have small : (e.blocksCount.toNat + e.blocksPerGroup.toNat + (2 ^ 32 - 1)) % 2 ^ 32 <
          e.blocksPerGroup.toNat := by
        omega
      rw [Nat.div_eq_of_lt small, Nat.zero_mod]

theorem ceil_div (n : Nat) {d : Nat} (positive : 0 < d) :
    ⌈(n : ℚ) / d⌉ = (((n + d - 1) / d : Nat) : Int) := by
  rw [Rat.ceil_natCast_div_natCast]
  have whole := Nat.div_add_mod (n + d - 1) d
  have part := Nat.mod_lt (n + d - 1) positive
  generalize (n + d - 1) / d = q at whole ⊢
  generalize (n + d - 1) % d = r at whole part
  have least : -(n : Int) / d = -(q : Int) ∧ -(n : Int) % d = d - 1 - r := by
    apply (Int.ediv_emod_unique (by exact_mod_cast positive)).mpr
    have cast : (d : Int) * q + r = n + d - 1 := by
      have := congrArg (fun m : Nat => (m : Int)) whole
      push_cast at this
      omega
    refine ⟨?_, by omega, by omega⟩
    rw [Int.mul_neg]
    omega
  rw [least.1, Int.neg_neg]

theorem shifted_toNat {k : UInt32} (bound : k.toNat < 32) :
    ((1024 : UInt32) <<< k).toNat = if k.toNat < 22 then 1024 * 2 ^ k.toNat else 0 := by
  rw [UInt32.toNat_shiftLeft, Nat.shiftLeft_eq, Nat.mod_eq_of_lt bound]
  have base : UInt32.toNat 1024 = 1024 := rfl
  rw [base]
  generalize k.toNat = j at bound ⊢
  interval_cases j <;> rfl

theorem loadGroups_eq (buff : Mem) {blocksize : UInt32} (block : 1024 ≤ blocksize.toNat)
    {left i : Nat} {off : UInt32}
    (place : off.toNat = 32 * i) (low : i ≤ ext2MaxGroupLoaded) {descs : List (Option BlockGroup)}
    (size : descs.length = ext2MaxGroupLoaded) :
    (i + left ≤ ext2MaxGroupLoaded ∧ ∃ ds, loadGroups buff blocksize left i off descs = .ok ds ∧
      ds.length = ext2MaxGroupLoaded ∧
      ∀ g, (∃ d, ds[g]?.join = some d) ↔ (i ≤ g ∧ g < i + left) ∨ ∃ d, descs[g]?.join = some d) ∨
    (ext2MaxGroupLoaded < i + left ∧ loadGroups buff blocksize left i off descs =
    .error .outside) := by
  induction left generalizing i off descs with
  | zero =>
    refine Or.inl ⟨low, descs, rfl, size, fun g => ?_⟩
    simp
  | succ left ih =>
    rw [loadGroups]
    by_cases inside : i < ext2MaxGroupLoaded
    · have inRange : i < 8 := inside
      have next : (off + blockgroupBytes).toNat = 32 * (i + 1) := by
        rw [UInt32.toNat_add, place]
        have size' : blockgroupBytes.toNat = 32 := rfl
        rw [size']
        omega
      have more : ¬ off + blockgroupBytes ≥ blocksize := by
        rw [ge_iff_le, UInt32.le_iff_toNat_le, next]
        omega
      simp only [if_pos inside, if_neg more]
      have entry : ∀ g d', (∃ d, (descs.set i (some d'))[g]?.join = some d) ↔
          g = i ∨ ∃ d, descs[g]?.join = some d := by
        intro g d'
        by_cases here : g = i
        · subst here
          simp [List.getElem?_set_self (size ▸ inside)]
        · rw [List.getElem?_set_ne (Ne.symm here)]
          simp [here]
      have stored : (descs.set i (some ⟨UInt32.ofNat (load32 buff (off.toNat + 8))⟩)).length =
          ext2MaxGroupLoaded := by
        rw [List.length_set, size]
      rcases ih next inside stored with ⟨fits, ds, ran, length, loaded⟩ | ⟨past, ran⟩
      · refine Or.inl ⟨by omega, ds, ran, length, fun g => ?_⟩
        rw [loaded g, entry g]
        constructor
        · rintro (range | here | before)
          · exact Or.inl (by omega)
          · exact Or.inl (by omega)
          · exact Or.inr before
        · rintro (range | before)
          · by_cases here : g = i
            · exact Or.inr (Or.inl here)
            · exact Or.inl (by omega)
          · exact Or.inr (Or.inr before)
      · exact Or.inr ⟨by omega, ran⟩
    · refine Or.inr ⟨by omega, ?_⟩
      rw [if_neg inside]

theorem log_lt {k : UInt32} : ¬ 32 ≤ k ↔ k.toNat < 32 := by
  rw [UInt32.le_iff_toNat_le]
  exact Nat.not_le

theorem blocksize_ne_zero {k : UInt32} (bound : k.toNat < 32) :
    (1024 : UInt32) <<< k ≠ 0 ↔ k.toNat < 22 := by
  have value := shifted_toNat bound
  constructor
  · intro nonzero
    by_contra high
    rw [if_neg high] at value
    exact nonzero (UInt32.toNat_inj.mp value)
  · intro low zero
    rw [if_pos low, zero] at value
    have : 0 < 1024 * 2 ^ k.toNat := by positivity
    have null : UInt32.toNat 0 = 0 := rfl
    omega

theorem large_block {k : UInt32} (low : k.toNat < 22) : 1024 ≤ ((1024 : UInt32) <<< k).toNat := by
  rw [shifted_toNat (by omega), if_pos low]
  exact Nat.le_mul_of_pos_right 1024 (Nat.two_pow_pos _)

theorem readInoDesc_ok_iff {sb : SuperBlock} {ino : UInt32} {desc : Option BlockGroup} :
    readInoDesc sb ino = .ok desc ↔ sb.info.sInodesPerGroup ≠ 0 ∧ sb.info.sBlockSize ≠ 0 ∧
      sb.groupDesc (ino / sb.info.sInodesPerGroup).toNat = desc := by
  by_cases group : sb.info.sInodesPerGroup = 0
  · simp [readInoDesc, group]
  · by_cases block : sb.info.sBlockSize = 0
    · simp [readInoDesc, group, block]
    · simp [readInoDesc, group, block]

theorem empty_groups (g : Nat) : ¬ ∃ d :
    BlockGroup, (List.replicate ext2MaxGroupLoaded none)[g]?.join = some d := by
  rintro ⟨d, there⟩
  rw [List.getElem?_replicate] at there
  split at there
  · cases there
  · cases there

theorem loadGroups_all (buff : Mem) {blocksize : UInt32} (block : 1024 ≤ blocksize.toNat)
    (count : Nat) :
    (count ≤ ext2MaxGroupLoaded ∧ ∃ ds,
      loadGroups buff blocksize count 0 0 (List.replicate ext2MaxGroupLoaded none) = .ok ds ∧
      ds.length = ext2MaxGroupLoaded ∧ ∀ g, (∃ d, ds[g]?.join = some d) ↔ g < count) ∨
    (ext2MaxGroupLoaded < count ∧
      loadGroups buff blocksize count 0 0 (List.replicate ext2MaxGroupLoaded none) =
      .error .outside) := by
  have start : (0 : UInt32).toNat = 32 * 0 := rfl
  have size : (List.replicate ext2MaxGroupLoaded (none : Option BlockGroup)).length =
      ext2MaxGroupLoaded :=
    List.length_replicate
  rcases loadGroups_eq buff block start (Nat.zero_le _) size with ⟨few, ds, ran, length,
    held⟩ | ⟨many, ran⟩
  · rw [Nat.zero_add] at few
    refine Or.inl ⟨few, ds, ran, length, fun g => ?_⟩
    rw [held g]
    constructor
    · rintro (range | before)
      · omega
      · exact absurd before (empty_groups g)
    · exact fun below => Or.inl (by omega)
  · rw [Nat.zero_add] at many
    exact Or.inr ⟨many, ran⟩

/-- What the image of a mounted disk has, and what the mount holds. -/
theorem ext2FillSuper_spec {sb : SuperBlock} (magic : (imageAt disk bdStart).magic = ext2SuperMagic)
    (ran : ext2FillSuper disk bdStart = .ok (some sb)) :
    (imageAt disk bdStart).logBlockSiz.toNat < 22 ∧ (imageAt disk bdStart).blocksPerGroup ≠ 0 ∧
    (imageAt disk bdStart).inodesPerGroup ≠ 0 ∧
    (imageAt disk bdStart).codeCount ≤ ext2MaxGroupLoaded ∧
    ∃ descs, sb = bare (imageAt disk bdStart) bdStart (imageAt disk bdStart).codeCount descs ∧
      descs.length = ext2MaxGroupLoaded ∧
      ∀ g, (∃ d, sb.groupDesc g = some d) ↔ g < (imageAt disk bdStart).codeCount := by
  rw [ext2FillSuper_ok_iff magic] at ran
  generalize imageAt disk bdStart = e at ran ⊢
  obtain ⟨narrow, n, counted, descs, loaded, rfl, desc, root⟩ := ran
  obtain ⟨perGroup, count⟩ := divRoundUp_ok counted
  obtain ⟨inodes, block, -⟩ := readInoDesc_ok_iff.mp root
  have low := (blocksize_ne_zero (log_lt.mp narrow)).mp block
  rw [count] at loaded ⊢
  rcases loadGroups_all (descBlock disk e bdStart e.codeCount) (large_block low) e.codeCount with
    ⟨few, ds, stored, size, held⟩ | ⟨-, past⟩
  · rw [loaded] at stored
    obtain rfl := Except.ok.inj stored
    exact ⟨low, perGroup, inodes, few, descs, rfl, size, held⟩
  · rw [loaded] at past
    cases past

theorem readInoDesc_mounted {sb : SuperBlock}
    (magic : (imageAt disk bdStart).magic = ext2SuperMagic)
    (ran : ext2FillSuper disk bdStart = .ok (some sb)) (ino : UInt32) :
    (∃ d record, readInoDesc sb ino = .ok (some d) ∧ ext2ReadIno disk sb ino = some record) ↔
      ino.toNat / (imageAt disk bdStart).inodesPerGroup.toNat <
      (imageAt disk bdStart).codeCount := by
  obtain ⟨low, -, inodes, -, descs, rfl, -, held⟩ := ext2FillSuper_spec magic ran
  generalize imageAt disk bdStart = e at low inodes held ⊢
  have block : (1024 : UInt32) <<< e.logBlockSiz ≠ 0 := (blocksize_ne_zero (by omega)).mpr low
  have group : (ino / e.inodesPerGroup).toNat = ino.toNat / e.inodesPerGroup.toNat :=
    UInt32.toNat_div _ _
  rw [← held, ← group]
  constructor
  · rintro ⟨d, -, found, -⟩
    exact ⟨d, (readInoDesc_ok_iff.mp found).2.2⟩
  · rintro ⟨d, there⟩
    have found : readInoDesc (bare e bdStart e.codeCount descs) ino = .ok (some d) :=
      readInoDesc_ok_iff.mpr ⟨inodes, block, there⟩
    obtain ⟨record, read⟩ : ∃ record, ext2ReadIno disk (bare e bdStart e.codeCount descs) ino =
        some record := by
      have desc : (bare e bdStart e.codeCount descs).groupDesc
          (ino / (bare e bdStart e.codeCount descs).info.sInodesPerGroup).toNat = some d := there
      exact ⟨_, by rw [ext2ReadIno, desc]; rfl⟩
    exact ⟨d, record, found, read⟩

/-- A mount on the whole disk, with inodes of a size that divides its blocks, has the geometry the
    other results about inodes and contents assume. -/
theorem ext2FillSuper_mounted {sb : SuperBlock} (magic : (imageAt disk 0).magic = ext2SuperMagic)
    (ran : ext2FillSuper disk 0 = .ok (some sb))
    (inodeSize : ∃ a, 7 ≤ a ∧ (imageAt disk 0).inodeSiz = 2 ^ a)
    (divides : (imageAt disk 0).inodeSiz ∣ sb.bs) : Mounted sb := by
  obtain ⟨low, -, inodes, -, descs, rfl, size, held⟩ := ext2FillSuper_spec magic ran
  have word : (imageAt disk 0).inodeSiz < 2 ^ 16 := load16_bound _ 88
  generalize imageAt disk 0 = e at low inodes inodeSize divides word held ⊢
  have record : (UInt32.ofNat e.inodeSiz).toNat = e.inodeSiz := by
    rw [UInt32.toNat_ofNat', Nat.mod_eq_of_lt (by omega)]
  refine ⟨⟨e.logBlockSiz.toNat, low, ?_⟩, rfl, rfl, word_pos inodes, ?_, ?_, size, ?_⟩
  · show ((1024 : UInt32) <<< e.logBlockSiz).toNat = 1024 * 2 ^ e.logBlockSiz.toNat
    rw [shifted_toNat (by omega), if_pos low]
  · obtain ⟨a, least, power⟩ := inodeSize
    exact ⟨a, least, record.trans power⟩
  · show (UInt32.ofNat e.inodeSiz).toNat ∣ _
    rw [record]
    exact divides
  · exact fun g below => (held g).mpr below

theorem ext2FillSuper_mounts (magic : (imageAt disk bdStart).magic = ext2SuperMagic)
    (low : (imageAt disk bdStart).logBlockSiz.toNat < 22)
    (perGroup : (imageAt disk bdStart).blocksPerGroup ≠ 0)
    (inodes : (imageAt disk bdStart).inodesPerGroup ≠ 0)
    (few : (imageAt disk bdStart).codeCount ≤ ext2MaxGroupLoaded) :
    ∃ sb, ext2FillSuper disk bdStart = .ok (some sb) := by
  simp only [ext2FillSuper_ok_iff magic]
  generalize imageAt disk bdStart = e at low perGroup inodes few ⊢
  have narrow : e.logBlockSiz.toNat < 32 := by omega
  obtain ⟨n, counted⟩ : ∃ n, divRoundUp e.blocksCount e.blocksPerGroup = .ok n :=
    ⟨_, if_neg perGroup⟩
  obtain ⟨-, count⟩ := divRoundUp_ok counted
  rcases loadGroups_all (descBlock disk e bdStart (n.toNat % 2 ^ 16)) (large_block low)
    (n.toNat % 2 ^ 16) with
    ⟨-, ds, stored, -, -⟩ | ⟨many, -⟩
  · refine ⟨_, log_lt.mpr narrow, n, counted, ds, stored, rfl, _,
      readInoDesc_ok_iff.mpr ⟨inodes, ?_, rfl⟩⟩
    exact (blocksize_ne_zero narrow).mpr low
  · omega

theorem inodes_below {last perGroup : UInt32} (positive : perGroup ≠ 0) (count : Nat) :
    (∀ ino : UInt32, 1 ≤ ino.toNat → ino.toNat ≤ last.toNat → ino.toNat / perGroup.toNat < count) ↔
      (1 ≤ last.toNat → last.toNat < perGroup.toNat * count) := by
  have divisor := word_pos positive
  constructor
  · intro below some'
    have group := below last some' (Nat.le_refl _)
    rwa [Nat.div_lt_iff_lt_mul divisor, Nat.mul_comm] at group
  · intro bound ino low high
    rw [Nat.div_lt_iff_lt_mul divisor, Nat.mul_comm]
    exact Nat.lt_of_le_of_lt high (bound (by omega))

theorem codeCount_eq {e : Superblock} (perGroup : e.blocksPerGroup ≠ 0) :
    (e.codeCount : Int) = if e.blocksCount.toNat + e.blocksPerGroup.toNat ≤ 2 ^ 32 then
      ⌈(e.blocksCount.toNat : ℚ) / e.blocksPerGroup.toNat⌉ % 2 ^ 16 else 0 := by
  have divisor := word_pos perGroup
  rw [Superblock.codeCount, ceil_div _ divisor]
  split
  · rfl
  · rfl

end Fill

/-- The geometry is right exactly for the images that are supported. -/
theorem geometry_right_iff {disk : Mem} {bdStart : UInt32}
    (magic : (imageAt disk bdStart).magic = ext2SuperMagic) :
    GeometryRight disk bdStart ↔ Supported (imageAt disk bdStart) := by
  constructor
  · rintro ⟨sb, ran, count, loaded⟩
    simp only [readInoDesc_mounted magic ran] at loaded
    obtain ⟨low, perGroup, inodes, few, descs, rfl, -, -⟩ := ext2FillSuper_spec magic ran
    have same : ((imageAt disk bdStart).codeCount : Int) = (imageAt disk bdStart).groups := count
    have below := (inodes_below inodes _).mp loaded
    refine ⟨low, perGroup, inodes, by omega, ?_, fun some' => ?_⟩
    · rw [← same, codeCount_eq perGroup]
    · rw [← same]
      exact_mod_cast below some'
  · rintro ⟨low, perGroup, inodes, few, counted, held⟩
    rw [← codeCount_eq perGroup] at counted
    have small : (imageAt disk bdStart).codeCount ≤ ext2MaxGroupLoaded := by omega
    obtain ⟨sb, ran⟩ := ext2FillSuper_mounts magic low perGroup inodes small
    refine ⟨sb, ran, ?_, ?_⟩
    · obtain ⟨-, -, -, -, descs, rfl, -, -⟩ := ext2FillSuper_spec magic ran
      exact counted.symm
    · simp only [readInoDesc_mounted magic ran]
      refine (inodes_below inodes _).mpr fun some' => ?_
      have bound := held some'
      rw [counted] at bound
      exact_mod_cast bound

def smallImage (inodes : Nat) : Mem :=
  store32
    (store32
    (store32 (store32 (store32 (store32 (store32 zeroed 1024 inodes) 1028 64) 1044 1) 1056 8192)
    1064 16) 1080 0xef53) 1112 128

theorem one_group : ⌈(((64 : Int) - 1 : Int) : ℚ) / (8192 : Nat)⌉ = 1 := by
  rw [Int.ceil_eq_iff]
  norm_num

theorem one_group_from_zero : ⌈((64 : Nat) : ℚ) / (8192 : Nat)⌉ = 1 := by
  rw [Int.ceil_eq_iff]
  norm_num

theorem smallImage_supported : GeometryRight (smallImage 15) 0 := by
  have image : imageAt (smallImage 15) 0 = ⟨15, 64, 1, 0, 8192, 16, 0xef53, 128⟩ := by
    decide +kernel
  have groups : (imageAt (smallImage 15) 0).groups = 1 := by
    rw [image]
    exact one_group
  refine (geometry_right_iff (by rw [image]; rfl)).mpr ⟨?_, ?_, ?_, ?_, ?_, ?_⟩
  · rw [image]
    decide
  · rw [image]
    decide
  · rw [image]
    decide
  · rw [groups]
    decide
  · rw [groups, image]
    exact (congrArg (· % 2 ^ 16) one_group_from_zero).symm
  · rw [groups, image]
    decide

/-- With all 16 inodes of the table in use, as the format has it, the last one is looked for in a
    second group. -/
theorem smallImage_last_inode : (imageAt (smallImage 16) 0).magic = ext2SuperMagic ∧
    ¬ GeometryRight (smallImage 16) 0 := by
  have image : imageAt (smallImage 16) 0 = ⟨16, 64, 1, 0, 8192, 16, 0xef53, 128⟩ := by
    decide +kernel
  have magic : (imageAt (smallImage 16) 0).magic = ext2SuperMagic := by
    rw [image]
    rfl
  refine ⟨magic, ?_⟩
  rintro ⟨sb, ran, -, loaded⟩
  have last := (readInoDesc_mounted magic ran 16).mp (loaded 16 (by decide) (by rw [image]))
  rw [image] at last
  exact absurd last (by decide)

end Ext2
