import NoobOs.Ext2.FileContents

/-!
`ext2_lread` call after call, as `printfile` makes them, and what one call may be asked for.
The sum in its clip test has 32 bits and the block index 8, and `ext2_read` cuts the byte
address of a block to 32 bits.
-/
namespace Ext2
open ByteMemory

def lreads (disk : Mem) (sb : SuperBlock) (ein : Mem) (size : UInt32) :
    UInt32 → List UInt32 → List Lread
  | _, [] => []
  | position, siz :: sizes =>
    let r := lreadOf disk sb ein size position siz
    r :: lreads disk sb ein size r.position sizes

/-- The record that `ext2_read_ino` has put in `ein` has the block map of the inode. -/
def Holds (ein : Mem) (inode : Ext2Inode) : Prop :=
  ∀ k < 15, load32 ein (iBlock + 4 * k) = inode.pointer k

def Direct (sb : SuperBlock) (inode : Ext2Inode) : Prop :=
  ∀ x < inode.size.toNat, x / sb.bs < 12 ∧ inode.pointer (x / sb.bs) ≠ 0

/-- No request goes past the end of a 32-bit offset. -/
def NoWrap (size : Nat) : Nat → List UInt32 → Prop
  | _, [] => True
  | position, siz :: sizes => position + siz.toNat < 2 ^ 32 ∧
    NoWrap size (min (position + siz.toNat) size) sizes

/-- Each call moves the position by the bytes it returns, which are none at the end of the file. -/
def Counted (size : Nat) : Nat → List Lread → Prop
  | _, [] => True
  | position, r :: rs => r.ret.toNat = r.data.length ∧ r.position.toNat = position + r.ret.toNat ∧
    (position = size → r.ret = 0) ∧ Counted size (position + r.ret.toNat) rs

def total (size position : Nat) (sizes : List UInt32) : Nat :=
  min (sizes.map UInt32.toNat).sum (size - position)

/-- The calls return the bytes of the file, one after another. -/
structure ChunksRight (disk : Mem) (sb : SuperBlock) (ein : Mem) (inode : Ext2Inode)
    (position : UInt32)
    (sizes : List UInt32) : Prop where
  data : ((lreads disk sb ein inode.size position sizes).map Lread.data).flatten =
    (List.range (total inode.size.toNat position.toNat sizes)).map fun i =>
      fileByte disk sb.bs inode (position.toNat + i)
  counted : Counted inode.size.toNat position.toNat (lreads disk sb ein inode.size position sizes)

section Calls
variable {disk ein : Mem} {sb : SuperBlock} {inode : Ext2Inode}

theorem codeBlock_held (holds : Holds ein inode) {x : Nat} (direct : x / sb.bs < 12) :
    codeBlock sb ein x = inode.pointer (x / sb.bs) := by
  rw [codeBlock, Nat.mod_eq_of_lt (by omega), holds _ (by omega)]

theorem lreadOf_direct (m : Mounted sb) (direct : Direct sb inode)
    (holds : Holds ein inode) (disk : Mem)
    {position siz : UInt32} (inFile : position.toNat ≤ inode.size.toNat)
    (noWrap : position.toNat + siz.toNat < 2 ^ 32) :
    ∃ data last, lreadOf disk sb ein inode.size position siz = ⟨last, data, position + last⟩ ∧
      last.toNat = min siz.toNat (inode.size.toNat - position.toNat) ∧ data.length = last.toNat ∧
      (position + last).toNat = position.toNat + last.toNat ∧
      data.map some = (List.range data.length).map fun i =>
        codeByte disk sb ein (position.toNat + i) := by
  obtain ⟨data, last, copied, length, ran⟩ := lreadOf_copies m disk ein inFile noWrap
  have most := copied.most
  have full : data.length = min siz.toNat (inode.size.toNat - position.toNat) := by
    by_contra short
    have stopped := copied.stopped (by omega)
    obtain ⟨early, mapped⟩ := direct (position.toNat + data.length) (by omega)
    rw [codeByte, codeBlock_held holds early, if_neg mapped] at stopped
    cases stopped
  refine ⟨data, last, ran, length.trans full, length.symm, ?_, copied.each⟩
  rw [UInt32.toNat_add, Nat.mod_eq_of_lt (by omega)]

theorem total_cons {size position : Nat} (siz : UInt32) (sizes : List UInt32) {n : Nat}
    (read : n = min siz.toNat (size - position)) :
    total size position (siz :: sizes) = n + total size (position + n) sizes := by
  simp only [total, List.map_cons, List.sum_cons]
  omega

theorem lreads_spec (m : Mounted sb) (direct : Direct sb inode)
    (holds : Holds ein inode) (disk : Mem)
    {position : UInt32} {sizes : List UInt32} (inFile : position.toNat ≤ inode.size.toNat)
    (noWrap : NoWrap inode.size.toNat position.toNat sizes) :
    (((lreads disk sb ein inode.size position sizes).map Lread.data).flatten).map some =
        ((List.range (total inode.size.toNat position.toNat sizes)).map fun i =>
          codeByte disk sb ein (position.toNat + i)) ∧
      Counted inode.size.toNat position.toNat (lreads disk sb ein inode.size position sizes) := by
  induction sizes generalizing position with
  | nil => simp [lreads, total, Counted]
  | cons siz sizes ih =>
    obtain ⟨fits, later⟩ := noWrap
    obtain ⟨data, last, ran, read, length, moved, each⟩ :=
      lreadOf_direct m direct holds disk inFile fits
    have reached : min (position.toNat + siz.toNat) inode.size.toNat = (position + last).toNat := by
      omega
    rw [reached] at later
    obtain ⟨rest, counted⟩ := ih (by omega) later
    rw [moved] at rest counted
    rw [lreads, ran]
    constructor
    · rw [List.map_cons, List.flatten_cons, List.map_append, each, rest, total_cons siz sizes read,
        List.range_add,
        List.map_append, List.map_map, length]
      simp only [Function.comp_def, Nat.add_assoc]
    · refine ⟨length.symm, moved, ?_, counted⟩
      intro atEnd
      apply UInt32.toNat_inj.mp
      rw [read, atEnd]
      simp

theorem chunksRight_iff (m : Mounted sb) (direct : Direct sb inode)
    (holds : Holds ein inode) (disk : Mem)
    {position : UInt32} {sizes : List UInt32} (inFile : position.toNat ≤ inode.size.toNat)
    (noWrap : NoWrap inode.size.toNat position.toNat sizes) :
    ChunksRight disk sb ein inode position sizes ↔
      ∀ x, position.toNat ≤ x → x < position.toNat + total inode.size.toNat position.toNat sizes →
        codeByte disk sb ein x = some (fileByte disk sb.bs inode x) := by
  obtain ⟨each, counted⟩ := lreads_spec m direct holds disk inFile noWrap
  constructor
  · rintro ⟨same, -⟩ x above below
    rw [same, List.map_map] at each
    have entry := List.map_inj_left.mp each (x - position.toNat) (List.mem_range.mpr (by omega))
    rw [Function.comp_apply, Nat.add_sub_cancel' above] at entry
    exact entry.symm
  · intro right
    refine ⟨List.map_injective_iff.mpr (Option.some_injective _) ?_, counted⟩
    rw [each, List.map_map]
    apply List.map_congr_left
    intro i member
    have below := List.mem_range.mp member
    exact right _ (by omega) (by omega)

theorem wrong_byte (holds : Holds ein inode) {x : Nat} (early : x / sb.bs < 12)
    (mapped : inode.pointer (x / sb.bs) ≠ 0)
    (right : ∀ disk, codeByte disk sb ein x = some (fileByte disk sb.bs inode x)) :
    inode.pointer (x / sb.bs) * sb.bs < 2 ^ 32 ∧ x % sb.bs < reach := by
  have byte := right (store8 zeroed (inode.pointer (x / sb.bs) * sb.bs + x % sb.bs) 1)
  rw [fileByte_direct early mapped, store8_same, codeByte,
    codeBlock_held holds early, if_neg mapped,
    Option.some.injEq] at byte
  by_cases reached : x % sb.bs < reach
  · refine ⟨?_, reached⟩
    rw [if_pos reached] at byte
    by_contra high
    have other : (inode.pointer (x / sb.bs) * sb.bs) % 2 ^ 32 + x % sb.bs ≠
        inode.pointer (x / sb.bs) * sb.bs + x % sb.bs := by
      have := Nat.mod_lt (inode.pointer (x / sb.bs) * sb.bs) (Nat.two_pow_pos 32)
      omega
    rw [store8_other _ _ other] at byte
    exact absurd byte (by simp [zeroed])
  · rw [if_neg reached] at byte
    exact absurd byte (by decide)

theorem holds_bareDisk (inode : Ext2Inode) : Holds (bareDisk 0 inode) inode := by
  intro k bound
  have carried := (bareDisk_carries 0 inode).map k bound
  rwa [Nat.zero_add] at carried

end Calls

/-- However a direct file is cut into requests, its bytes come back in order on every disk, exactly
    if every offset read is in a block that starts below 4 GiB and in the part of it the driver
    reads. -/
theorem chunks_right_iff {sb : SuperBlock} (m : Mounted sb) {inode : Ext2Inode}
    (direct : Direct sb inode)
    {position : UInt32} {sizes : List UInt32} (inFile : position.toNat ≤ inode.size.toNat)
    (noWrap : NoWrap inode.size.toNat position.toNat sizes) :
    (∀ disk ein, Holds ein inode → ChunksRight disk sb ein inode position sizes) ↔
      ∀ x, position.toNat ≤ x →
      x < min (position.toNat + (sizes.map UInt32.toNat).sum) inode.size.toNat →
        inode.pointer (x / sb.bs) * sb.bs < 2 ^ 32 ∧ x % sb.bs < reach := by
  have range : position.toNat + total inode.size.toNat position.toNat sizes =
      min (position.toNat + (sizes.map UInt32.toNat).sum) inode.size.toNat := by
    unfold total
    omega
  constructor
  · intro right x above below
    obtain ⟨early, mapped⟩ := direct x (by omega)
    have holds := holds_bareDisk inode
    refine wrong_byte holds early mapped fun disk => ?_
    exact (chunksRight_iff m direct holds disk inFile noWrap).mp
      (right disk _ holds) x above (by omega)
  · intro low disk ein holds
    apply (chunksRight_iff m direct holds disk inFile noWrap).mpr
    intro x above below
    obtain ⟨early, mapped⟩ := direct x (by omega)
    obtain ⟨start, reached⟩ := low x above (by omega)
    exact codeByte_plain (codeBlock_held holds early) ⟨early, mapped, start, reached⟩

def shortFile : Ext2Inode :=
  ⟨⟨11, 2000⟩, fun k => if k.val < 2 then UInt32.ofNat (300 + k.val) else 0⟩

theorem shortFile_block {x : Nat} (inside : x < shortFile.size.toNat) :
    x / twoGroups.bs = 0 ∨ x / twoGroups.bs = 1 := by
  have size : x < 2000 := inside
  have block : twoGroups.bs = 1024 := rfl
  rw [block]
  omega

theorem shortFile_direct : Direct twoGroups shortFile := by
  intro x inside
  rcases shortFile_block inside with here | here
  · rw [here]
    decide
  · rw [here]
    decide

theorem shortFile_in_chunks :
    ChunksRight zeroed twoGroups (bareDisk 0 shortFile) shortFile 100 [1000, 5, 2000] := by
  have inFile : (100 : UInt32).toNat ≤ shortFile.size.toNat := by decide
  have noWrap : NoWrap shortFile.size.toNat (100 : UInt32).toNat [1000, 5, 2000] :=
    ⟨by decide, by decide, by decide, trivial⟩
  refine (chunks_right_iff twoGroups_mounted shortFile_direct inFile noWrap).mpr ?_ zeroed _
    (holds_bareDisk shortFile)
  intro x _ below
  have inside : x < shortFile.size.toNat := by omega
  have offset : x % twoGroups.bs < reach := Nat.lt_trans (Nat.mod_lt x (by decide)) (by decide)
  rcases shortFile_block inside with here | here
  · exact ⟨by rw [here]; decide, offset⟩
  · exact ⟨by rw [here]; decide, offset⟩

def highFile : Ext2Inode := ⟨⟨11, 1⟩, fun k => if k.val = 0 then 4194304 else 0⟩

/-- The code reads it from the first block of the disk. -/
theorem highFile_misread : Direct twoGroups highFile ∧ Holds (bareDisk 0 highFile) highFile ∧
    ¬ ChunksRight (store8 zeroed (2 ^ 32) 1) twoGroups (bareDisk 0 highFile) highFile 0 [1] := by
  refine ⟨?_, holds_bareDisk highFile, ?_⟩
  · intro x inside
    have first : x < 1 := inside
    obtain rfl : x = 0 := by omega
    decide
  · rintro ⟨data, -⟩
    revert data
    decide +kernel

/-! ## The clip test and the index -/

def lreadTrace (disk : Mem) (sb : SuperBlock) (ein : Mem) (off siz : UInt32) :
    Nat → Mem → UInt32 → List UInt8 → (UInt32 × List UInt8) × List UInt8
  | 0, _, read, data => ((read, data), [])
  | fuel + 1, buff, read, data =>
    if read < siz then
      let pos := off + read
      let boff := pos % sb.sBlocksize
      let blockptr := (pos / sb.sBlocksize).toUInt8
      let blk := iBlockAt ein blockptr
      if blk = 0 then ((read, data), [blockptr])
      else
        let buff := ext2Read disk sb blk 1 buff
        let dcount := sb.sBlocksize - boff
        let dcount := if dcount > siz - read then siz - read else dcount
        let out := lreadTrace disk sb ein off siz fuel buff (read + dcount)
          (data ++ bytes buff boff.toNat dcount.toNat)
        (out.1, blockptr :: out.2)
    else ((read, data), [])

def lreadIndices (disk : Mem) (sb : SuperBlock) (ein : Mem) (size position siz : UInt32) :
    List UInt8 :=
  if position > size then []
  else (lreadTrace disk sb ein position (clip size position siz)
    (clip size position siz).toNat zeroed 0 []).2

/-- Whatever the disk and the inode hold, a call returns no more than the file has left and finds
    its pointers in the array. -/
structure Clipped (sb : SuperBlock) (size position siz : UInt32) : Prop where
  returned : ∀ disk ein, (lreadOf disk sb ein size position siz).ret.toNat ≤
    size.toNat - position.toNat
  indexed : ∀ disk ein, ∀ i ∈ lreadIndices disk sb ein size position siz, i.toNat < 15

section Clip
variable {disk ein : Mem} {sb : SuperBlock}

theorem lreadTrace_fst (disk ein : Mem) (off siz : UInt32) (fuel : Nat) (buff : Mem) (read : UInt32)
    (data : List UInt8) :
    (lreadTrace disk sb ein off siz fuel buff read data).1 =
    lreadLoop disk sb ein off siz fuel buff read data := by
  induction fuel generalizing buff read data with
  | zero => rfl
  | succ fuel ih =>
    rw [lreadTrace, lreadLoop]
    by_cases before : read < siz
    · simp only [if_pos before]
      by_cases hole : iBlockAt ein ((off + read) / sb.sBlocksize).toUInt8 = 0
      · simp only [if_pos hole]
      · simp only [if_neg hole]
        exact ih _ _ _
    · simp only [if_neg before]

theorem clip_le_iff {size position : UInt32} (inFile : position.toNat ≤ size.toNat) (siz : UInt32) :
    (clip size position siz).toNat ≤ size.toNat - position.toNat ↔
      position.toNat + siz.toNat < 2 ^ 32 ∨ size.toNat + 2 ^ 32 < position.toNat + siz.toNat := by
  have sum : (position + siz).toNat = (position.toNat + siz.toNat) % 2 ^ 32 := UInt32.toNat_add _ _
  have rest : (size - position).toNat = size.toNat - position.toNat :=
    UInt32.toNat_sub_of_le _ _ (UInt32.le_iff_toNat_le.mpr inFile)
  have low := position.toNat_lt
  have asked := siz.toNat_lt
  have long := size.toNat_lt
  unfold clip
  by_cases more : position + siz > size
  · rw [if_pos more, rest]
    rw [gt_iff_lt, UInt32.lt_iff_toNat_lt, sum] at more
    omega
  · rw [if_neg more]
    rw [gt_iff_lt, UInt32.lt_iff_toNat_lt, sum] at more
    omega

theorem clip_eq_min {size position siz : UInt32} (inFile : position.toNat ≤ size.toNat)
    (few : (clip size position siz).toNat ≤ size.toNat - position.toNat) :
    (clip size position siz).toNat = min siz.toNat (size.toNat - position.toNat) := by
  have sum : (position + siz).toNat = (position.toNat + siz.toNat) % 2 ^ 32 := UInt32.toNat_add _ _
  have rest : (size - position).toNat = size.toNat - position.toNat :=
    UInt32.toNat_sub_of_le _ _ (UInt32.le_iff_toNat_le.mpr inFile)
  unfold clip at few ⊢
  by_cases more : position + siz > size
  · rw [if_pos more, rest]
    rw [gt_iff_lt, UInt32.lt_iff_toNat_lt, sum] at more
    have cut := Nat.mod_le (position.toNat + siz.toNat) (2 ^ 32)
    omega
  · rw [if_neg more] at few ⊢
    omega

theorem lreadTrace_round (m : Mounted sb) (disk : Mem) (off : UInt32) {siz read : UInt32}
    (before : read < siz)
    (mapped : iBlockAt ein ((off + read) / sb.sBlocksize).toUInt8 ≠ 0) (fuel : Nat) (buff : Mem)
    (data : List UInt8) :
    ∃ buff' next data', next.toNat = read.toNat + min (sb.bs - (off + read).toNat % sb.bs)
    (siz.toNat - read.toNat) ∧
      lreadTrace disk sb ein off siz (fuel + 1) buff read data =
        ((lreadTrace disk sb ein off siz fuel buff' next data').1,
        ((off + read) / sb.sBlocksize).toUInt8 ::
          (lreadTrace disk sb ein off siz fuel buff' next data').2) := by
  have below := UInt32.lt_iff_toNat_lt.mp before
  have word := siz.toNat_lt
  obtain ⟨-, dcount⟩ := dcount_toNat m (off + read) before
  rw [lreadTrace, if_pos before]
  simp only [if_neg mapped]
  generalize (if sb.sBlocksize - (off + read) % sb.sBlocksize > siz - read then siz - read
    else sb.sBlocksize - (off + read) % sb.sBlocksize) = count at dcount ⊢
  refine ⟨_, read + count, _, ?_, rfl⟩
  rw [UInt32.toNat_add, dcount, Nat.mod_eq_of_lt (by omega)]

theorem index_toNat (m : Mounted sb) (pos : UInt32) :
    (pos / sb.sBlocksize).toUInt8.toNat = pos.toNat / sb.bs % 256 := by
  rw [UInt32.toNat_toUInt8, UInt32.toNat_div, m.same]
  rfl

theorem lreadTrace_index (m : Mounted sb) {off siz : UInt32}
    (noWrap : off.toNat + siz.toNat < 2 ^ 32) {fuel : Nat}
    {buff : Mem} {read : UInt32} {data : List UInt8} {i : UInt8}
    (member : i ∈ (lreadTrace disk sb ein off siz fuel buff read data).2) :
    ∃ x, off.toNat + read.toNat ≤ x ∧ x < off.toNat + siz.toNat ∧ i.toNat = x / sb.bs % 256 := by
  induction fuel generalizing buff read data with
  | zero => simp [lreadTrace] at member
  | succ fuel ih =>
    by_cases before : read < siz
    · have below := UInt32.lt_iff_toNat_lt.mp before
      have pos : (off + read).toNat = off.toNat + read.toNat := by
        rw [UInt32.toNat_add, Nat.mod_eq_of_lt (by omega)]
      have here : ((off + read) / sb.sBlocksize).toUInt8.toNat =
          (off.toNat + read.toNat) / sb.bs % 256 := by
        rw [index_toNat m, pos]
      by_cases hole : iBlockAt ein ((off + read) / sb.sBlocksize).toUInt8 = 0
      · rw [lreadTrace, if_pos before] at member
        simp only [if_pos hole, List.mem_singleton] at member
        exact ⟨off.toNat + read.toNat, Nat.le_refl _, by omega, by rw [member, here]⟩
      · obtain ⟨buff', next, data', moved, step⟩ :=
          lreadTrace_round m disk off before hole fuel buff data
        rw [step] at member
        rcases List.mem_cons.mp member with first | later
        · exact ⟨off.toNat + read.toNat, Nat.le_refl _, by omega, by rw [first, here]⟩
        · obtain ⟨x, above, inside, same⟩ := ih later
          exact ⟨x, by omega, inside, same⟩
    · rw [lreadTrace, if_neg before] at member
      simp at member

theorem lreadTrace_all (m : Mounted sb) (full : ∀ b, iBlockAt ein b ≠ 0)
    {off siz : UInt32} (fuel : Nat)
    (buff : Mem) {read : UInt32} (data : List UInt8) (within : read.toNat ≤ siz.toNat)
    (enough : siz.toNat ≤ read.toNat + fuel) :
    (lreadTrace disk sb ein off siz fuel buff read data).1.1 = siz := by
  induction fuel generalizing buff read data with
  | zero =>
    apply UInt32.toNat_inj.mp
    exact Nat.le_antisymm within enough
  | succ fuel ih =>
    by_cases before : read < siz
    · have below := UInt32.lt_iff_toNat_lt.mp before
      have offset := Nat.mod_lt (off + read).toNat m.bs_pos
      obtain ⟨buff', next, data', moved, step⟩ :=
        lreadTrace_round m disk off before (full _) fuel buff data
      rw [step]
      exact ih buff' data' (by omega) (by omega)
    · have done := UInt32.lt_iff_toNat_lt.not.mp before
      rw [lreadTrace, if_neg before]
      exact UInt32.toNat_inj.mp (Nat.le_antisymm within (Nat.le_of_not_lt done))

theorem lreadTrace_visits (m : Mounted sb) (full : ∀ b, iBlockAt ein b ≠ 0) {off siz : UInt32}
    (noWrap : off.toNat + siz.toNat < 2 ^ 32) (disk : Mem) (fuel : Nat) (buff : Mem) {read : UInt32}
    (data : List UInt8)
    (enough : siz.toNat ≤ read.toNat + fuel) {x : Nat} (above : off.toNat + read.toNat ≤ x)
    (below : x < off.toNat + siz.toNat) :
    ∃ i ∈ (lreadTrace disk sb ein off siz fuel buff read data).2, i.toNat = x / sb.bs % 256 := by
  induction fuel generalizing buff read data with
  | zero => omega
  | succ fuel ih =>
    have before : read < siz := UInt32.lt_iff_toNat_lt.mpr (by omega)
    have pos : (off + read).toNat = off.toNat + read.toNat := by
      rw [UInt32.toNat_add, Nat.mod_eq_of_lt (by omega)]
    have offset := Nat.mod_lt (off + read).toNat m.bs_pos
    obtain ⟨buff', next, data', moved, step⟩ :=
      lreadTrace_round m disk off before (full _) fuel buff data
    rw [step]
    by_cases here : off.toNat + next.toNat ≤ x
    · obtain ⟨i, member, same⟩ := ih buff' data' (by omega) here
      exact ⟨i, List.mem_cons_of_mem _ member, same⟩
    · refine ⟨_, List.mem_cons_self, ?_⟩
      rw [pos] at moved offset
      have inner : (off.toNat + read.toNat) % sb.bs + (x - (off.toNat + read.toNat)) < sb.bs := by
        omega
      obtain ⟨block, -⟩ := inside_block inner
      rw [index_toNat m, pos, ← block, Nat.add_sub_cancel' above]

def ones : Mem := fun _ => 1

theorem iBlockAt_ones (b : UInt8) : iBlockAt ones b ≠ 0 := by
  have word : load32 ones (iBlock + 4 * b.toNat) = 0x01010101 := by simp [load32, ones]
  rw [iBlockAt, word]
  decide

theorem returned_iff (m : Mounted sb) {size position : UInt32}
    (inFile : position.toNat ≤ size.toNat) (siz : UInt32) :
    (∀ disk ein, (lreadOf disk sb ein size position siz).ret.toNat ≤ size.toNat - position.toNat) ↔
      (clip size position siz).toNat ≤ size.toNat - position.toNat := by
  constructor
  · intro returned
    have most := returned zeroed ones
    rw [lreadOf_inside inFile] at most
    simp only [← lreadTrace_fst] at most
    rwa [lreadTrace_all m iBlockAt_ones _ _ _ (Nat.zero_le _) (Nat.le_add_left _ _)] at most
  · intro few disk ein
    have fits : position.toNat + (clip size position siz).toNat < 2 ^ 32 := by
      have := size.toNat_lt
      omega
    have none' : (0 : UInt32).toNat ≤ (clip size position siz).toNat := Nat.zero_le _
    have untouched : ∀ i, reach ≤ i → i < sb.bs → zeroed i = 0 := fun _ _ _ => rfl
    obtain ⟨data, copied, last, run, count⟩ : ∃ data, Copied (codeByte disk sb ein) _ _ data ∧ _ :=
      lreadLoop_copies m fits (clip size position siz).toNat untouched none'
        (Nat.le_add_left _ _) []
    have most := copied.most
    have zero : (0 : UInt32).toNat = 0 := rfl
    rw [lreadOf_inside inFile]
    simp only [run]
    omega

theorem lreadIndices_inside {size position : UInt32} (inFile : position.toNat ≤ size.toNat)
    (disk ein : Mem)
    (siz : UInt32) : lreadIndices disk sb ein size position siz =
      (lreadTrace disk sb ein position (clip size position siz)
      (clip size position siz).toNat zeroed 0 []).2 := by
  have start : ¬ position > size := by
    rw [gt_iff_lt, UInt32.lt_iff_toNat_lt]
    omega
  rw [lreadIndices, if_neg start]

theorem indexed_iff (m : Mounted sb) {size position siz : UInt32}
    (inFile : position.toNat ≤ size.toNat)
    (few : (clip size position siz).toNat ≤ size.toNat - position.toNat) :
    (∀ disk ein, ∀ i ∈ lreadIndices disk sb ein size position siz, i.toNat < 15) ↔
      ∀ x, position.toNat ≤ x → x < position.toNat + (clip size position siz).toNat →
      x / sb.bs % 256 < 15 := by
  have fits : position.toNat + (clip size position siz).toNat < 2 ^ 32 := by
    have := size.toNat_lt
    omega
  constructor
  · intro indexed x above below
    have first : position.toNat + (0 : UInt32).toNat ≤ x := above
    obtain ⟨i, member, same⟩ :=
      lreadTrace_visits m iBlockAt_ones fits zeroed (clip size position siz).toNat zeroed []
      (Nat.le_add_left _ _) first below
    rw [← same]
    apply indexed zeroed ones
    rwa [lreadIndices_inside inFile]
  · intro low disk ein i member
    rw [lreadIndices_inside inFile] at member
    obtain ⟨x, above, below, same⟩ := lreadTrace_index m fits member
    rw [same]
    exact low x above below

end Clip

/-- A call is clipped and indexes the array, whatever the inode, exactly if the sum in its test does
    not wrap to a value within the file, and no block it is for has an index that is 15 or more
    in 8 bits. -/
theorem clipped_iff {sb : SuperBlock} (m : Mounted sb) {size position : UInt32}
    (inFile : position.toNat ≤ size.toNat)
    (siz : UInt32) :
    Clipped sb size position siz ↔
      (position.toNat + siz.toNat < 2 ^ 32 ∨ size.toNat + 2 ^ 32 < position.toNat + siz.toNat) ∧
      ∀ x, position.toNat ≤ x → x < position.toNat + min siz.toNat (size.toNat - position.toNat) →
        x / sb.bs % 256 < 15 := by
  rw [← clip_le_iff inFile siz]
  constructor
  · rintro ⟨returned, indexed⟩
    have few := (returned_iff m inFile siz).mp returned
    have low := (indexed_iff m inFile few).mp indexed
    rw [clip_eq_min inFile few] at low
    exact ⟨few, low⟩
  · rintro ⟨few, low⟩
    rw [← clip_eq_min inFile few] at low
    exact ⟨(returned_iff m inFile siz).mpr few, (indexed_iff m inFile few).mpr low⟩

theorem fifteen_blocks_clipped : Clipped twoGroups 20000 0 15360 := by
  refine (clipped_iff twoGroups_mounted (by decide) 15360).mpr ⟨Or.inl (by decide), ?_⟩
  intro x _ below
  have block : twoGroups.bs = 1024 := rfl
  have asked : x < 15360 := below
  rw [block]
  omega

/-- A request of `2 ^ 32 - 8` bytes at position 10 of a file of 100 is not clipped, and the byte
    at 15360 of a longer file has its pointer looked up behind the array. -/
theorem wrapped_and_unindexed : ¬ Clipped twoGroups 100 10 0xfffffff8 ∧
    ¬ Clipped twoGroups 20000 15360 1 := by
  constructor
  · rintro ⟨returned, -⟩
    have few := (returned_iff twoGroups_mounted (by decide) 0xfffffff8).mp returned
    exact absurd few (by decide)
  · rintro ⟨returned, indexed⟩
    have few := (returned_iff twoGroups_mounted (by decide) 1).mp returned
    have low := (indexed_iff twoGroups_mounted (by decide) few).mp indexed 15360
      (by decide) (by decide)
    exact absurd low (by decide)

end Ext2
