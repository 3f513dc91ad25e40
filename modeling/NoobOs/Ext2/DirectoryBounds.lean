import NoobOs.Ext2.Directory

/-!
Which bytes the scanners of `ext2.c` touch. They trust `d_rec_len` and `d_name_len` as the disk
has them: `ext2_lookup` and `ext2_readdir` are run again here with every read of the block
buffer compared with its size. `ext2_readdir` also compares what it has written with `count`
only before a record, and copies a name without a terminator.
-/
namespace Ext2
open ByteMemory Strings

inductive ScanFault where
  | outside
  | endless
  deriving DecidableEq

def within (blocksiz stop : Nat) : Except ScanFault Unit :=
  if stop ≤ blocksiz then .ok () else .error .outside

def compared : List UInt8 → List UInt8 → Nat
  | c :: cs, d :: ds => if c = d then compared cs ds + 1 else 1
  | _, _ => 0

/-- One turn of the loop of `ext2_lookup`: `d_ino`, `d_name_len` and the name, and `d_rec_len`
    if it goes on. -/
def lookupEntry (buf : Mem) (blocksiz : Nat) (name : Str) (off : Nat) :
    Except ScanFault (Option Nat) := do
  let ent := direntryAt buf off
  within blocksiz (off + 4)
  if ent.ino ≠ 0 then within blocksiz (off + 7)
  if ent.ino ≠ 0 ∧ ent.name.length = name.length then
    within blocksiz (off + 8 + compared ent.name name)
  if ent.ino ≠ 0 ∧ ent.name.length = name.length ∧ memcmp ent.name name = 0 then return some ent.ino
  within blocksiz (off + 6)
  return none

def lookupScan (buf : Mem) (blocksiz : Nat) (name : Str) : Nat → Nat → Except ScanFault (Option Nat)
  | 0, _ => .error .endless
  | fuel + 1, off =>
    if off < blocksiz then do
      match ← lookupEntry buf blocksiz name off with
      | some ino => return some ino
      | none => lookupScan buf blocksiz name fuel ((off + (direntryAt buf off).recLen) % 2 ^ 32)
    else return none

def lookupScans (disk : Mem) (sb : SuperBlock) (name : Str) :
    List UInt32 → Mem → Except ScanFault Nat
  | [], _ => return notFound
  | blk :: blks, buf =>
    if blk = 0 then lookupScans disk sb name blks buf
    else do
      let buf := ext2Read disk sb blk 1 buf
      match ← lookupScan buf sb.sBlocksize.toNat name (2 ^ 32) 0 with
      | some ino => return ino
      | none => lookupScans disk sb name blks buf

def readdirEntry (buf : Mem) (blocksiz off : Nat) : Except ScanFault Unit := do
  let e := direntryAt buf off
  within blocksiz (off + 4)
  if e.ino ≠ 0 then within blocksiz (off + 8 + e.name.length)
  within blocksiz (off + 6)

def readdirScan (buf : Mem) (blocksiz count : Nat) :
    Nat → Nat → Nat → Mem → Except ScanFault (Nat × Mem)
  | 0, _, _, _ => .error .endless
  | fuel + 1, off, read, dirp =>
    if off < blocksiz ∧ read < count then do
      readdirEntry buf blocksiz off
      let e := direntryAt buf off
      let next := (off + e.recLen) % 2 ^ 32
      if e.ino ≠ 0 then
        readdirScan buf blocksiz count fuel next ((read + reclen e) % 2 ^ 32)
          (putDirent dirp read e off)
      else readdirScan buf blocksiz count fuel next read dirp
    else return (read, dirp)

def readdirScans (disk : Mem) (sb : SuperBlock) (count : Nat) :
    List UInt32 → Mem → Nat → Mem → Except ScanFault (Nat × Mem)
  | [], _, read, dirp => return (read, dirp)
  | blk :: blks, buf, read, dirp =>
    if blk = 0 then readdirScans disk sb count blks buf read dirp
    else do
      let buf := ext2Read disk sb blk 1 buf
      let (read, dirp) ← readdirScan buf sb.sBlocksize.toNat count (2 ^ 64) 0 read dirp
      readdirScans disk sb count blks buf read dirp

/-- Both scanners return, for every name and every count, and stay in the block buffer. -/
structure ScansInside (disk : Mem) (d : Directory) : Prop where
  lookup : ∀ name : Str, 0 ∉ name → ∃ ino, ext2Lookup disk d name = some ino ∧
    lookupScans disk d.sb name d.blocks zeroed = .ok ino
  readdir : ∀ (count : UInt32) (dirp : Mem), ∃ out, ext2Readdir disk d dirp count = some out ∧
    readdirScans disk d.sb count.toNat d.blocks zeroed 0 dirp = .ok out

/-- From `off` the lengths lead past the end of the block, over entries that are `inside`. -/
inductive Chain (buf : Mem) (blocksiz : Nat) (inside : Nat → Prop) : Nat → Prop where
  | past {off : Nat} (behind : blocksiz ≤ off) : Chain buf blocksiz inside off
  | entry {off : Nat} (within : off < blocksiz) (here : inside off)
    (moves : 0 < (direntryAt buf off).recLen)
      (rest : Chain buf blocksiz inside (off + (direntryAt buf off).recLen)) :
        Chain buf blocksiz inside off

def HeaderInside (blocksiz off : Nat) : Prop := off + 6 ≤ blocksiz

def EntryInside (blocksiz : Nat) (buf : Mem) (off : Nat) : Prop :=
  HeaderInside blocksiz off ∧
    ((direntryAt buf off).ino ≠ 0 → off + 8 + (direntryAt buf off).name.length ≤ blocksiz)

/-- Every mapped block has such a chain from its first byte on. -/
def BlocksSound (disk : Mem) (sb : SuperBlock) (inside : Mem → Nat → Prop) (blks : List UInt32) :
    Prop :=
  ∀ blk ∈ blks, blk ≠ 0 → Chain (blockBytes disk sb blk) sb.sBlocksize.toNat
    (inside (blockBytes disk sb blk)) 0

section Bounds
variable {disk buf : Mem} {sb : SuperBlock} {blocksiz : Nat}

@[simp] theorem within_ok {stop : Nat} (inside : stop ≤ blocksiz) : within blocksiz stop = .ok () :=
  if_pos inside

theorem within_bind_ok {α : Type} {stop : Nat} {k : Unit → Except ScanFault α} {r : α} :
    (within blocksiz stop >>= k) = .ok r ↔ stop ≤ blocksiz ∧ k () = .ok r := by
  by_cases inside : stop ≤ blocksiz
  · simp [inside, bind, Except.bind]
  · simp [within, inside, bind, Except.bind]

theorem compared_le (s d : List UInt8) : compared s d ≤ s.length := by
  induction s generalizing d with
  | nil => simp [compared]
  | cons c cs ih =>
    cases d with
    | nil => simp [compared]
    | cons e ds =>
      have rest := ih ds
      rw [compared]
      split <;> simp only [List.length_cons] <;> omega

def matched (buf : Mem) (name : Str) (off : Nat) : Option Nat :=
  let ent := direntryAt buf off
  if ent.ino ≠ 0 ∧ ent.name.length = name.length ∧ memcmp ent.name name = 0 then
    some ent.ino
  else none

theorem lookupEntry_ok (name : Str) {off : Nat} (inside : EntryInside blocksiz buf off) :
    lookupEntry buf blocksiz name off = .ok (matched buf name off) := by
  obtain ⟨header, inside⟩ := inside
  have last : off + 6 ≤ blocksiz := header
  have start : off + 4 ≤ blocksiz := by omega
  by_cases used : (direntryAt buf off).ino ≠ 0
  · have room := inside used
    have length : off + 7 ≤ blocksiz := by omega
    have few := compared_le (direntryAt buf off).name name
    have read : off + 8 + compared (direntryAt buf off).name name ≤ blocksiz := by omega
    by_cases same : (direntryAt buf off).name.length = name.length
    · by_cases equal : memcmp (direntryAt buf off).name name = 0
      · simp [lookupEntry, matched, start, length, read, used, same, equal, bind, Except.bind,
          pure, Except.pure]
      · simp [lookupEntry, matched, start, length, read, last, used, same, equal, bind, Except.bind,
          pure, Except.pure]
    · simp [lookupEntry, matched, start, length, last, used, same, bind, Except.bind,
        pure, Except.pure]
  · simp [lookupEntry, matched, start, last, used, bind, Except.bind, pure, Except.pure]

/-- A name longer than any `d_name_len` is never found, and only the headers are read. -/
theorem lookupEntry_long {name : Str} {off : Nat} {found : Option Nat} (long : 256 ≤ name.length)
    (ran : lookupEntry buf blocksiz name off = .ok found) :
    found = none ∧ HeaderInside blocksiz off := by
  have short := direntryAt_name buf off
  have different : ¬ (direntryAt buf off).name.length = name.length := by omega
  by_cases used : (direntryAt buf off).ino ≠ 0
  · simp only [lookupEntry, used, different, and_false, false_and, if_true, if_false,
      within_bind_ok, ne_eq,
      not_false_eq_true] at ran
    obtain ⟨-, -, header, same⟩ := ran
    exact ⟨(Except.ok.inj same).symm, header⟩
  · simp only [lookupEntry, used, different, and_false, false_and, if_false, within_bind_ok] at ran
    obtain ⟨-, header, same⟩ := ran
    exact ⟨(Except.ok.inj same).symm, header⟩

theorem lookupScan_go {name : Str} {fuel off : Nat} (inside : off < blocksiz)
    (missed : lookupEntry buf blocksiz name off = .ok none) :
    lookupScan buf blocksiz name (fuel + 1) off =
      lookupScan buf blocksiz name fuel ((off + (direntryAt buf off).recLen) % 2 ^ 32) := by
  rw [lookupScan, if_pos inside, missed]
  rfl

theorem Chain.small {inside : Nat → Prop} {off : Nat} (chain : Chain buf blocksiz inside off)
    (tail : ∀ i, reach ≤ i → buf i = 0) (low : off ≤ reach + 65535) : blocksiz ≤ reach + 65535 := by
  induction chain with
  | past behind => omega
  | @entry off within here moves rest ih => exact ih (entry_near tail moves)

theorem Chain.small_block {inside : Nat → Prop} {blk : UInt32}
    (chain : Chain (blockBytes disk sb blk) sb.sBlocksize.toNat inside 0) :
    sb.sBlocksize.toNat ≤ 196607 :=
  chain.small (fun _ far => blockBytes_tail disk sb blk far) (Nat.zero_le _)

theorem Chain.word_block {inside : Nat → Prop} {blk : UInt32}
    (chain : Chain (blockBytes disk sb blk) sb.sBlocksize.toNat inside 0) :
    sb.sBlocksize.toNat + 65535 < 2 ^ 32 := by
  have := chain.small_block
  omega

theorem BlocksSound.tail {inside : Mem → Nat → Prop} {blk : UInt32} {blks : List UInt32}
    (sound : BlocksSound disk sb inside (blk :: blks)) : BlocksSound disk sb inside blks :=
  fun blk' member => sound blk' (List.mem_cons_of_mem blk member)

/-! ### Where they return, the scans with bounds are those of the model -/

theorem lookupEntry_matched {name : Str} {off : Nat} {hit : Option Nat}
    (read : lookupEntry buf blocksiz name off = .ok hit) : hit = matched buf name off := by
  by_cases used : (direntryAt buf off).ino ≠ 0
  · by_cases same : (direntryAt buf off).name.length = name.length
    · by_cases equal : memcmp (direntryAt buf off).name name = 0
      · simp only [lookupEntry, used, same, equal, and_self, if_true, within_bind_ok, ne_eq,
          not_false_eq_true] at read
        obtain ⟨-, -, -, hit'⟩ := read
        simpa [matched, used, same, equal] using (Except.ok.inj hit').symm
      · simp only [lookupEntry, used, same, equal, and_self, and_false, if_true, if_false,
          within_bind_ok, ne_eq,
          not_false_eq_true] at read
        obtain ⟨-, -, -, -, hit'⟩ := read
        simpa [matched, equal] using (Except.ok.inj hit').symm
    · simp only [lookupEntry, used, same, and_false, false_and, if_true, if_false,
        within_bind_ok, ne_eq,
        not_false_eq_true] at read
      obtain ⟨-, -, -, hit'⟩ := read
      simpa [matched, same] using (Except.ok.inj hit').symm
  · simp only [lookupEntry, used, false_and, if_false, within_bind_ok] at read
    obtain ⟨-, -, hit'⟩ := read
    simpa [matched, used] using (Except.ok.inj hit').symm

theorem lookupBlock_step {name : Str} {fuel off : Nat} (inside : off < blocksiz) :
    lookupBlock buf blocksiz name (fuel + 1) off =
      match matched buf name off with
      | some ino => some (some ino)
      | none => lookupBlock buf blocksiz name fuel
        ((off + (direntryAt buf off).recLen) % 2 ^ 32) := by
  rw [lookupBlock, if_pos inside, matched]
  by_cases found : (direntryAt buf off).ino ≠ 0 ∧ (direntryAt buf off).name.length = name.length ∧
      memcmp (direntryAt buf off).name name = 0
  · simp only [if_pos found]
  · simp only [if_neg found]

theorem lookupScan_eq {name : Str} {fuel off : Nat} {found : Option Nat}
    (ran : lookupScan buf blocksiz name fuel off = .ok found) :
    lookupBlock buf blocksiz name fuel off = some found := by
  induction fuel generalizing off with
  | zero => simp [lookupScan] at ran
  | succ fuel ih =>
    by_cases inside : off < blocksiz
    · rw [lookupBlock_step inside]
      cases read : lookupEntry buf blocksiz name off with
      | error fault => simp [lookupScan, inside, read, bind, Except.bind] at ran
      | ok hit =>
        have same := lookupEntry_matched read
        cases hit with
        | some ino =>
          rw [lookupScan, if_pos inside, read] at ran
          rw [← same]
          exact congrArg some (Except.ok.inj ran)
        | none =>
          rw [lookupScan_go inside read] at ran
          rw [← same]
          exact ih ran
    · rw [lookupScan, if_neg inside] at ran
      rw [lookupBlock, if_neg inside]
      exact congrArg some (Except.ok.inj ran)

theorem lookupScans_eq {blks : List UInt32} {name : Str} {ino : Nat}
    (ran : lookupScans disk sb name blks buf = .ok ino) :
    lookupBlocks disk sb name blks buf = some ino := by
  induction blks generalizing buf with
  | nil => exact congrArg some (Except.ok.inj ran)
  | cons blk blks ih =>
    by_cases hole : blk = 0
    · rw [lookupScans, if_pos hole] at ran
      rw [lookupBlocks, if_pos hole]
      exact ih ran
    · rw [lookupScans, if_neg hole] at ran
      rw [lookupBlocks, if_neg hole]
      cases scanned : lookupScan (ext2Read disk sb blk 1 buf) sb.sBlocksize.toNat name
        (2 ^ 32) 0 with
      | error fault => simp only [scanned, bind, Except.bind, reduceCtorEq] at ran
      | ok found =>
        simp only [scanned, bind, Except.bind] at ran
        simp only [lookupScan_eq scanned, Option.bind_eq_bind, Option.bind_some]
        cases found with
        | some ino' => exact congrArg some (Except.ok.inj ran)
        | none => exact ih ran

theorem readdirScan_eq {count fuel off read : Nat} {dirp : Mem} {out : Nat × Mem}
    (ran : readdirScan buf blocksiz count fuel off read dirp = .ok out) :
    readdirBlock buf blocksiz count fuel off read dirp = some out := by
  induction fuel generalizing off read dirp with
  | zero => simp [readdirScan] at ran
  | succ fuel ih =>
    rw [readdirScan] at ran
    rw [readdirBlock]
    by_cases more : off < blocksiz ∧ read < count
    · rw [if_pos more] at ran ⊢
      cases entry : readdirEntry buf blocksiz off with
      | error fault => simp [entry, bind, Except.bind] at ran
      | ok done =>
        simp only [entry, bind, Except.bind] at ran
        by_cases used : (direntryAt buf off).ino ≠ 0
        · rw [if_pos used] at ran ⊢
          exact ih ran
        · rw [if_neg used] at ran ⊢
          exact ih ran
    · rw [if_neg more] at ran ⊢
      exact congrArg some (Except.ok.inj ran)

theorem readdirScans_eq {blks : List UInt32} {count read : Nat} {dirp : Mem} {out : Nat × Mem}
    (ran : readdirScans disk sb count blks buf read dirp = .ok out) :
    readdirBlocks disk sb count blks buf read dirp = some out := by
  induction blks generalizing buf read dirp with
  | nil => exact congrArg some (Except.ok.inj ran)
  | cons blk blks ih =>
    by_cases hole : blk = 0
    · rw [readdirScans, if_pos hole] at ran
      rw [readdirBlocks, if_pos hole]
      exact ih ran
    · rw [readdirScans, if_neg hole] at ran
      rw [readdirBlocks, if_neg hole]
      cases scanned : readdirScan (ext2Read disk sb blk 1 buf) sb.sBlocksize.toNat count
        (2 ^ 64) 0 read dirp with
      | error fault => simp only [scanned, bind, Except.bind, reduceCtorEq] at ran
      | ok between =>
        simp only [scanned, bind, Except.bind] at ran
        simp only [readdirScan_eq scanned, Option.bind_eq_bind, Option.bind_some]
        exact ih ran

/-! ### Entries that are inside are enough -/

theorem Chain.lookup {off : Nat} (chain : Chain buf blocksiz (EntryInside blocksiz buf) off)
    (word : blocksiz + 65535 < 2 ^ 32) (name : Str) (fuel : Nat) (enough : blocksiz - off < fuel) :
    ∃ found, lookupScan buf blocksiz name fuel off = .ok found := by
  obtain ⟨fuel, rfl⟩ : ∃ n, fuel = n + 1 := ⟨fuel - 1, by omega⟩
  induction chain generalizing fuel with
  | past behind => exact ⟨none, by rw [lookupScan, if_neg (by omega)]; rfl⟩
  | @entry off within here moves rest ih =>
    obtain ⟨fuel, rfl⟩ : ∃ n, fuel = n + 1 := ⟨fuel - 1, by omega⟩
    have length : (direntryAt buf off).recLen < 2 ^ 16 := load16_bound buf (off + 4)
    have unwrapped : (off + (direntryAt buf off).recLen) % 2 ^ 32 =
        off + (direntryAt buf off).recLen :=
      Nat.mod_eq_of_lt (by omega)
    have read := lookupEntry_ok name here
    cases hit : matched buf name off with
    | some ino =>
      rw [hit] at read
      exact ⟨some ino, by rw [lookupScan, if_pos within, read]; rfl⟩
    | none =>
      rw [hit] at read
      rw [lookupScan_go within read, unwrapped]
      exact ih fuel (by omega)

theorem readdirEntry_ok_iff {off : Nat} :
    readdirEntry buf blocksiz off = .ok () ↔ EntryInside blocksiz buf off := by
  by_cases used : (direntryAt buf off).ino ≠ 0
  · simp only [readdirEntry, used, if_true, within_bind_ok, EntryInside, HeaderInside, ne_eq,
      not_false_eq_true,
      true_implies]
    constructor
    · rintro ⟨-, name, -⟩
      exact ⟨by omega, name⟩
    · rintro ⟨header, name⟩
      exact ⟨by omega, name, within_ok header⟩
  · simp only [readdirEntry, used, if_false, within_bind_ok, EntryInside, HeaderInside,
      false_implies, and_true]
    constructor
    · rintro ⟨-, last⟩
      by_contra outside
      simp [within, outside] at last
    · intro header
      exact ⟨by omega, within_ok header⟩

theorem readdirScan_go (buf : Mem) (fuel : Nat) {count off read : Nat} (dirp : Mem)
    (inside : off < blocksiz) (more : read < count) :
    ∃ read' dirp', read' ≤ read + 272 ∧
      readdirScan buf blocksiz count (fuel + 1) off read dirp = (do
        readdirEntry buf blocksiz off
        readdirScan buf blocksiz count fuel ((off + (direntryAt buf off).recLen) %
        2 ^ 32) read' dirp') := by
  have short := direntryAt_name buf off
  have long : reclen (direntryAt buf off) ≤ 272 := by
    simp only [reclen, direntSize]
    omega
  by_cases used : (direntryAt buf off).ino ≠ 0
  · refine ⟨(read + reclen (direntryAt buf off)) % 2 ^ 32,
      putDirent dirp read (direntryAt buf off) off, ?_, ?_⟩
    · have := Nat.mod_le (read + reclen (direntryAt buf off)) (2 ^ 32)
      omega
    · simp only [readdirScan, inside, more, and_self, if_true, if_pos used]
  · refine ⟨read, dirp, Nat.le_add_right _ _, ?_⟩
    simp only [readdirScan, inside, more, and_self, if_true, if_neg used]

theorem Chain.readdir {off : Nat} (chain : Chain buf blocksiz (EntryInside blocksiz buf) off)
    (word : blocksiz + 65535 < 2 ^ 32) (count read : Nat) (dirp : Mem) (fuel : Nat)
    (enough : blocksiz - off < fuel) :
    ∃ out, readdirScan buf blocksiz count fuel off read dirp = .ok out := by
  obtain ⟨fuel, rfl⟩ : ∃ n, fuel = n + 1 := ⟨fuel - 1, by omega⟩
  induction chain generalizing fuel read dirp with
  | past behind => exact ⟨(read, dirp), by rw [readdirScan, if_neg (by omega)]; rfl⟩
  | @entry off within here moves rest ih =>
    obtain ⟨fuel, rfl⟩ : ∃ n, fuel = n + 1 := ⟨fuel - 1, by omega⟩
    have length : (direntryAt buf off).recLen < 2 ^ 16 := load16_bound buf (off + 4)
    have unwrapped : (off + (direntryAt buf off).recLen) %
        2 ^ 32 = off + (direntryAt buf off).recLen :=
      Nat.mod_eq_of_lt (by omega)
    by_cases more : read < count
    · obtain ⟨read', dirp', -, step⟩ := readdirScan_go buf (fuel + 1) dirp within more
      rw [step, readdirEntry_ok_iff.mpr here, unwrapped]
      exact ih read' dirp' fuel (by omega)
    · exact ⟨(read, dirp), by rw [readdirScan, if_neg fun both => more both.2]; rfl⟩

theorem lookupScans_inside {blks : List UInt32} (name : Str)
    (fresh : ∀ blk, ext2Read disk sb blk 1 buf = blockBytes disk sb blk)
    (sound : BlocksSound disk sb (EntryInside sb.sBlocksize.toNat) blks) :
    ∃ ino, lookupScans disk sb name blks buf = .ok ino := by
  induction blks generalizing buf with
  | nil => exact ⟨notFound, rfl⟩
  | cons blk blks ih =>
    by_cases hole : blk = 0
    · rw [lookupScans, if_pos hole]
      exact ih fresh sound.tail
    · have chain := sound blk List.mem_cons_self hole
      have small := chain.small_block
      obtain ⟨found, ran⟩ := chain.lookup chain.word_block name (2 ^ 32) (by omega)
      rw [lookupScans, if_neg hole, fresh]
      simp only [ran, bind, Except.bind]
      cases found with
      | some ino => exact ⟨ino, rfl⟩
      | none => exact ih (fun blk' => ext2Read_again disk sb blk' blk) sound.tail

theorem readdirScans_inside {blks : List UInt32} (count : Nat)
    (fresh : ∀ blk, ext2Read disk sb blk 1 buf = blockBytes disk sb blk) (read : Nat) (dirp : Mem)
    (sound : BlocksSound disk sb (EntryInside sb.sBlocksize.toNat) blks) :
    ∃ out, readdirScans disk sb count blks buf read dirp = .ok out := by
  induction blks generalizing buf read dirp with
  | nil => exact ⟨(read, dirp), rfl⟩
  | cons blk blks ih =>
    by_cases hole : blk = 0
    · rw [readdirScans, if_pos hole]
      exact ih fresh read dirp sound.tail
    · have chain := sound blk List.mem_cons_self hole
      have small := chain.small_block
      obtain ⟨⟨read', dirp'⟩, ran⟩ :=
        chain.readdir chain.word_block count read dirp (2 ^ 64) (by omega)
      rw [readdirScans, if_neg hole, fresh]
      simp only [ran, bind, Except.bind]
      exact ih (fun blk' => ext2Read_again disk sb blk' blk) read' dirp' sound.tail

/-! ### And they are needed -/

theorem lookupScan_stuck {name : Str} {fuel off : Nat} (long : 256 ≤ name.length)
    (word : off < 2 ^ 32)
    (inside : off < blocksiz) (stuck : (direntryAt buf off).recLen = 0) (found : Option Nat) :
    lookupScan buf blocksiz name fuel off ≠ .ok found := by
  induction fuel with
  | zero => simp [lookupScan]
  | succ fuel ih =>
    intro ran
    cases read : lookupEntry buf blocksiz name off with
    | error fault => simp [lookupScan, inside, read, bind, Except.bind] at ran
    | ok hit =>
      obtain ⟨rfl, -⟩ := lookupEntry_long long read
      rw [lookupScan_go inside read, stuck, Nat.add_zero, Nat.mod_eq_of_lt word] at ran
      exact ih ran

theorem lookupScan_headers {name : Str} {fuel off : Nat} {found : Option Nat}
    (long : 256 ≤ name.length)
    (tail : ∀ i, reach ≤ i → buf i = 0) (ran : lookupScan buf blocksiz name fuel off = .ok found)
    (word : off < 2 ^ 32) :
    found = none ∧ Chain buf blocksiz (HeaderInside blocksiz) off := by
  induction fuel generalizing off with
  | zero => simp [lookupScan] at ran
  | succ fuel ih =>
    by_cases inside : off < blocksiz
    · have length : (direntryAt buf off).recLen < 2 ^ 16 := load16_bound buf (off + 4)
      have moves : 0 < (direntryAt buf off).recLen := by
        by_contra stuck
        exact lookupScan_stuck long word inside (by omega) found ran
      have near : off < reach := by
        by_contra far
        have empty : (direntryAt buf off).recLen = 0 := by
          simp [direntryAt, load16, tail (off + 4) (by omega), tail (off + 4 + 1) (by omega)]
        omega
      rw [reach] at near
      cases read : lookupEntry buf blocksiz name off with
      | error fault => simp [lookupScan, inside, read, bind, Except.bind] at ran
      | ok hit =>
        obtain ⟨rfl, header⟩ := lookupEntry_long long read
        rw [lookupScan_go inside read, Nat.mod_eq_of_lt (by omega)] at ran
        obtain ⟨missed, rest⟩ := ih ran (by omega)
        exact ⟨missed, Chain.entry inside header moves rest⟩
    · rw [lookupScan, if_neg inside] at ran
      exact ⟨(Except.ok.inj ran).symm, Chain.past (by omega)⟩

theorem lookupScans_headers {blks : List UInt32} {name : Str} {ino : Nat} (long : 256 ≤ name.length)
    (fresh : ∀ blk, ext2Read disk sb blk 1 buf = blockBytes disk sb blk)
    (ran : lookupScans disk sb name blks buf = .ok ino) :
    BlocksSound disk sb (fun _ => HeaderInside sb.sBlocksize.toNat) blks := by
  induction blks generalizing buf with
  | nil => exact fun blk member => absurd member List.not_mem_nil
  | cons blk blks ih =>
    intro blk' member mapped
    by_cases hole : blk = 0
    · rw [lookupScans, if_pos hole] at ran
      rcases List.mem_cons.mp member with rfl | there
      · exact absurd hole mapped
      · exact ih fresh ran blk' there mapped
    · rw [lookupScans, if_neg hole, fresh] at ran
      cases scanned : lookupScan (blockBytes disk sb blk) sb.sBlocksize.toNat name (2 ^ 32) 0 with
      | error fault => simp only [scanned, bind, Except.bind, reduceCtorEq] at ran
      | ok found =>
        obtain ⟨rfl, chain⟩ :=
          lookupScan_headers long (fun _ far => blockBytes_tail disk sb blk far) scanned
          (Nat.two_pow_pos 32)
        simp only [scanned, bind, Except.bind] at ran
        rcases List.mem_cons.mp member with rfl | there
        · exact chain
        · exact ih (fun blk'' => ext2Read_again disk sb blk'' blk) ran blk' there mapped

theorem readdirScan_names {count fuel off read : Nat} {dirp : Mem} {out : Nat × Mem}
    (chain : Chain buf blocksiz (HeaderInside blocksiz) off) (word : blocksiz + 65535 < 2 ^ 32)
    (never : read + 272 * (blocksiz - off) < count)
    (ran : readdirScan buf blocksiz count fuel off read dirp = .ok out) :
    Chain buf blocksiz (EntryInside blocksiz buf) off ∧ out.1 ≤ read + 272 * (blocksiz - off) := by
  induction chain generalizing fuel read dirp with
  | past behind =>
    cases fuel with
    | zero => simp [readdirScan] at ran
    | succ fuel =>
      rw [readdirScan, if_neg (by omega)] at ran
      obtain rfl := Except.ok.inj ran
      exact ⟨Chain.past behind, Nat.le_add_right _ _⟩
  | @entry off within here moves rest ih =>
    have length : (direntryAt buf off).recLen < 2 ^ 16 := load16_bound buf (off + 4)
    cases fuel with
    | zero => simp [readdirScan] at ran
    | succ fuel =>
      obtain ⟨read', dirp', little, step⟩ :=
        readdirScan_go buf fuel dirp within (show read < count by omega)
      rw [step, Nat.mod_eq_of_lt (by omega)] at ran
      cases entry : readdirEntry buf blocksiz off with
      | error fault => simp [entry, bind, Except.bind] at ran
      | ok done =>
        rw [entry] at ran
        have less : 272 * (blocksiz - (off + (direntryAt buf off).recLen)) +
          272 ≤ 272 * (blocksiz - off) := by omega
        obtain ⟨onward, few⟩ := ih (by omega) ran
        exact ⟨Chain.entry within (readdirEntry_ok_iff.mp entry) moves onward, by omega⟩

theorem readdirScans_names {blks : List UInt32} {count read : Nat} {dirp : Mem} {out : Nat × Mem}
    (fresh : ∀ blk, ext2Read disk sb blk 1 buf = blockBytes disk sb blk)
    (headers : BlocksSound disk sb (fun _ => HeaderInside sb.sBlocksize.toNat) blks)
    (never : read + 53477104 * blks.length < count)
    (ran : readdirScans disk sb count blks buf read dirp = .ok out) :
    BlocksSound disk sb (EntryInside sb.sBlocksize.toNat) blks := by
  induction blks generalizing buf read dirp with
  | nil => exact fun blk member => absurd member List.not_mem_nil
  | cons blk blks ih =>
    rw [List.length_cons, Nat.mul_add_one] at never
    intro blk' member mapped
    by_cases hole : blk = 0
    · rw [readdirScans, if_pos hole] at ran
      rcases List.mem_cons.mp member with rfl | there
      · exact absurd hole mapped
      · exact ih fresh headers.tail (by omega) ran blk' there mapped
    · have chain := headers blk List.mem_cons_self hole
      have small := chain.small_block
      rw [readdirScans, if_neg hole, fresh] at ran
      cases scanned : readdirScan (blockBytes disk sb blk) sb.sBlocksize.toNat count
        (2 ^ 64) 0 read dirp with
      | error fault => simp only [scanned, bind, Except.bind, reduceCtorEq] at ran
      | ok between =>
        have room : read + 272 * (sb.sBlocksize.toNat - 0) < count := by omega
        obtain ⟨names, few⟩ := readdirScan_names chain chain.word_block room scanned
        simp only [scanned, bind, Except.bind] at ran
        rcases List.mem_cons.mp member with rfl | there
        · exact names
        · exact ih (fun blk'' => ext2Read_again disk sb blk'' blk) headers.tail
            (by omega) ran blk' there mapped

end Bounds

/-- The scanners return and stay in the buffer, for every name and count, exactly if in each mapped
    block the lengths are not 0 and lead past the end over entries that are inside it. -/
theorem scans_inside_iff (disk : Mem) (d : Directory) :
    ScansInside disk d ↔ BlocksSound disk d.sb (EntryInside d.sb.sBlocksize.toNat) d.blocks := by
  have fresh : ∀ blk, ext2Read disk d.sb blk 1 zeroed = blockBytes disk d.sb blk := fun _ => rfl
  constructor
  · intro scans
    obtain ⟨ino, -, ran⟩ := scans.lookup (List.replicate 256 1) fun member =>
      absurd (List.eq_of_mem_replicate member) (by decide)
    obtain ⟨out, -, ran'⟩ := scans.readdir 0xffffffff zeroed
    have headers := lookupScans_headers (by rw [List.length_replicate]) fresh ran
    refine readdirScans_names fresh headers ?_ ran'
    have twelve : d.blocks.length = 12 := by simp [Directory.blocks]
    rw [twelve]
    decide
  · intro sound
    constructor
    · intro name _
      obtain ⟨ino, ran⟩ := lookupScans_inside name fresh sound
      exact ⟨ino, lookupScans_eq ran, ran⟩
    · intro count dirp
      obtain ⟨out, ran⟩ := readdirScans_inside count.toNat fresh 0 dirp sound
      exact ⟨out, readdirScans_eq ran, ran⟩

/-- A directory block of zeros: its first entry has length 0. -/
theorem zero_block_scanned_for_ever : ¬ ScansInside zeroed smallDir := by
  intro scans
  obtain ⟨ino, -, ran⟩ := scans.lookup (List.replicate 256 1) fun member =>
    absurd (List.eq_of_mem_replicate member) (by decide)
  have headers := lookupScans_headers (by rw [List.length_replicate]) (fun _ => rfl) ran
  have empty : (direntryAt (blockBytes zeroed smallDir.sb 1) 0).recLen = 0 := by decide +kernel
  rcases headers 1 (by decide) (by decide) with behind | ⟨-, -, moves, -⟩
  · exact absurd behind (by decide)
  · omega

/-! ## The result buffer -/

def Whole (dirp : Mem) : Nat → List Direntry → Prop
  | _, [] => True
  | off, e :: es => load32 dirp off = e.ino ∧ load32 dirp (off + 8) = reclen e ∧
    bytes dirp (off + 14) e.name.length = e.name ∧ dirp (off + 14 + e.name.length) = 0 ∧
      Whole dirp (off + reclen e) es

/-- The byte behind the name of each record these entries would get from `off` on is 0. -/
def Cleared (old : Mem) : Nat → List Direntry → Prop
  | _, [] => True
  | off, e :: es => old (off + 14 + e.name.length) = 0 ∧ Cleared old (off + reclen e) es

/-- `ext2_readdir` keeps to a buffer of `count` bytes that holds `old`: whatever the buffer holds,
    the bytes from `count` on stay, and what is returned counts whole records of the first entries.
    -/
structure KeepsToBuffer (disk : Mem) (d : Directory) (es : List Direntry) (count : UInt32)
    (old : Mem) : Prop where
  stores : ∀ before read dirp, ext2Readdir disk d before count = some (read, dirp) →
    ∀ x, count.toNat ≤ x → dirp x = before x
  records : ∃ read dirp rs, ext2Readdir disk d old count = some (read, dirp) ∧ read ≤ count.toNat ∧
    rs <+: live es ∧ read = size rs ∧ Whole dirp 0 rs

section Result
variable {disk old dirp : Mem} {d : Directory} {es : List Direntry} {count : UInt32}

theorem reclen_pos (e : Direntry) : 0 < reclen e := by
  simp [reclen]

theorem listed_prefix (count read : Nat) (es : List Direntry) : listed count read es <+: es := by
  induction es generalizing read with
  | nil => exact List.prefix_refl []
  | cons e es ih =>
    rw [listed]
    split
    · exact (List.prefix_cons_inj e).mpr (ih (read + reclen e))
    · exact List.nil_prefix

/-- Every record has bytes, so the size of a prefix determines it. -/
theorem size_prefix_inj {rs rs' es : List Direntry} (first : rs <+: es) (second : rs' <+: es)
    (same : size rs = size rs') : rs = rs' := by
  induction es generalizing rs rs' with
  | nil => rw [List.prefix_nil.mp first, List.prefix_nil.mp second]
  | cons e es ih =>
    have some' := reclen_pos e
    rcases List.prefix_cons_iff.mp first with rfl | ⟨ts, rfl, rest⟩
    · rcases List.prefix_cons_iff.mp second with rfl | ⟨ts', rfl, -⟩
      · rfl
      · rw [size_cons, size] at same
        simp only [List.map_nil, List.sum_nil] at same
        omega
    · rcases List.prefix_cons_iff.mp second with rfl | ⟨ts', rfl, rest'⟩
      · rw [size_cons, size, size] at same
        simp only [List.map_nil, List.sum_nil] at same
        omega
      · rw [size_cons, size_cons] at same
        have equal := ih rest rest' (by omega)
        rw [equal]

theorem Encoded.whole_iff {off : Nat} {rs : List Direntry} (encoded : Encoded old dirp off rs) :
    Whole dirp off rs ↔ Cleared old off rs := by
  induction rs generalizing off with
  | nil => exact Iff.rfl
  | cons e rs ih =>
    obtain ⟨ino, len, name, gap, rest⟩ := encoded
    have long : reclen e = 17 + e.name.length := by
      simp only [reclen, direntSize]
      omega
    have behind : dirp (off + 14 + e.name.length) = old (off + 14 + e.name.length) :=
      gap _ (Nat.le_refl _) (by omega)
    rw [Whole, Cleared, behind, ih rest]
    simp only [ino, len, name, true_and]

theorem listed_of_filled {count read : Nat} {rs es : List Direntry} (first : rs <+: es)
    (fits : read + size rs ≤ count) (filled : rs = es ∨ read + size rs = count) :
    listed count read es = rs := by
  induction es generalizing rs read with
  | nil => rw [List.prefix_nil.mp first, listed]
  | cons e es ih =>
    rcases List.prefix_cons_iff.mp first with rfl | ⟨ts, rfl, rest⟩
    · have full : read + 0 = count := filled.resolve_left (List.cons_ne_nil e es).symm
      exact listed_full (by omega) _
    · have some' := reclen_pos e
      rw [size_cons, ← Nat.add_assoc] at fits filled
      rw [listed, if_pos (by omega), ih rest fits]
      exact filled.imp_left fun same => (List.cons.inj same).2

theorem listed_filled {count read : Nat} (start : read ≤ count) (es : List Direntry)
    (fits : read + size (listed count read es) ≤ count) :
    listed count read es = es ∨ read + size (listed count read es) = count := by
  induction es generalizing read with
  | nil => exact Or.inl rfl
  | cons e es ih =>
    by_cases more : read < count
    · rw [listed, if_pos more, size_cons, ← Nat.add_assoc] at fits ⊢
      exact (ih (by omega) fits).imp_left fun same => by rw [same]
    · rw [listed, if_neg more]
      exact Or.inr (Nat.le_antisymm start (by omega))

theorem keepsToBuffer_iff_listed (wellFormed : WellFormed disk d es) :
    KeepsToBuffer disk d es count old ↔
      size (listed count.toNat 0 (live es)) ≤ count.toNat ∧
      Cleared old 0 (listed count.toNat 0 (live es)) := by
  obtain ⟨dirp, ran, written⟩ := ext2Readdir_eq wellFormed old count
  have first := listed_prefix count.toNat 0 (live es)
  constructor
  · intro keeps
    obtain ⟨read, dirp', rs, ran', fits, prefix', counted, whole⟩ := keeps.records
    rw [ran, Option.some.injEq, Prod.mk.injEq] at ran'
    obtain ⟨rfl, rfl⟩ := ran'
    obtain rfl := size_prefix_inj first prefix' counted
    exact ⟨fits, written.encoded.whole_iff.mp whole⟩
  · rintro ⟨fits, cleared⟩
    refine ⟨?_, _, dirp, _, ran, fits, first, rfl, written.encoded.whole_iff.mpr cleared⟩
    intro before read dirp' ran' x far
    obtain ⟨after, ran'', written'⟩ := ext2Readdir_eq wellFormed before count
    rw [ran', Option.some.injEq, Prod.mk.injEq] at ran''
    rw [ran''.2]
    exact written'.behind x (by omega)

end Result

/-- `ext2_readdir` keeps to its buffer exactly if some first live entries have records that all
    fit, and are all the entries or fill the buffer to the last byte, and the buffer already
    holds the terminators of their names. -/
theorem readdir_keeps_to_buffer_iff {disk : Mem} {d : Directory} {es : List Direntry}
    (wellFormed : WellFormed disk d es)
    (count : UInt32) (old : Mem) :
    KeepsToBuffer disk d es count old ↔
      ∃ rs, rs <+: live es ∧ size rs ≤ count.toNat ∧ (rs = live es ∨ size rs = count.toNat) ∧
      Cleared old 0 rs := by
  rw [keepsToBuffer_iff_listed wellFormed]
  constructor
  · rintro ⟨fits, cleared⟩
    have filled := listed_filled (Nat.zero_le count.toNat) (live es) (by omega)
    rw [Nat.zero_add] at filled
    exact ⟨_, listed_prefix count.toNat 0 (live es), fits, filled, cleared⟩
  · rintro ⟨rs, first, fits, filled, cleared⟩
    rw [listed_of_filled first (by omega) (by rwa [Nat.zero_add])]
    exact ⟨fits, cleared⟩

theorem small_directory_kept : KeepsToBuffer smallDisk smallDir smallEntries 36 zeroed :=
  (readdir_keeps_to_buffer_iff smallDir_wellFormed 36 zeroed).mpr
    ⟨live smallEntries, List.prefix_refl _, by decide,
      Or.inl rfl, by simp [Cleared, live, smallEntries, zeroed]⟩

/-- In a buffer of 20 bytes the second record is begun at byte 18; in one of ones nothing ends the
    names. -/
theorem small_buffer_overrun : ¬ KeepsToBuffer smallDisk smallDir smallEntries 20 zeroed ∧
    ¬ KeepsToBuffer smallDisk smallDir smallEntries 1024 (fun _ => 1) := by
  rw [keepsToBuffer_iff_listed smallDir_wellFormed, keepsToBuffer_iff_listed smallDir_wellFormed]
  constructor
  · rintro ⟨fits, -⟩
    exact absurd fits (by decide)
  · rintro ⟨-, cleared⟩
    simp [live, smallEntries, listed, Cleared, reclen, direntSize] at cleared

end Ext2
