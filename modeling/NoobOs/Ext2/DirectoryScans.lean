import NoobOs.Ext2.DirectoryBounds

/- When the scanners of a directory return. Lengths only lead forward, so a scan that does not
   end stays at one entry of length 0. -/
namespace Ext2
open ByteMemory Strings

/-- From `off` the lengths lead to a place where the scan stops, or past the block, and no
    entry that is left behind has length 0. -/
inductive Passable (buf : Mem) (blocksiz : Nat) (stop : Nat → Prop) : Nat → Prop where
  | past {off : Nat} (behind : blocksiz ≤ off) : Passable buf blocksiz stop off
  | found {off : Nat} (inside : off < blocksiz) (here : stop off) : Passable buf blocksiz stop off
  | next {off : Nat} (inside : off < blocksiz) (moves : 0 < (direntryAt buf off).recLen)
      (rest : Passable buf blocksiz stop (off + (direntryAt buf off).recLen)) :
      Passable buf blocksiz stop off

/-- The mapped blocks up to the one that has the name. -/
def Searchable (disk : Mem) (sb : SuperBlock) (name : Str) : List UInt32 → Prop
  | [] => True
  | blk :: blks =>
    if blk = 0 then Searchable disk sb name blks
    else
      let buf := blockBytes disk sb blk
      Passable buf sb.sBlocksize.toNat (fun off => matched buf name off ≠ none) 0 ∧
        (lookupBlock buf sb.sBlocksize.toNat name (2 ^ 32) 0 = some none →
          Searchable disk sb name blks)

/-- With `read` of `count` bytes reported, an entry in use needs no length: it is reported until
    they are. -/
inductive Reportable (buf : Mem) (blocksiz count : Nat) : Nat → Nat → Prop where
  | done {off read : Nat} (stop : ¬ (off < blocksiz ∧ read < count)) :
      Reportable buf blocksiz count off read
  | used {off read : Nat}
      (more : off < blocksiz ∧ read < count) (used : (direntryAt buf off).ino ≠ 0)
      (rest : Reportable buf blocksiz count (off + (direntryAt buf off).recLen)
        (read + reclen (direntryAt buf off))) : Reportable buf blocksiz count off read
  | unused {off read : Nat} (more : off < blocksiz ∧ read < count)
      (unused : (direntryAt buf off).ino = 0) (moves : 0 < (direntryAt buf off).recLen)
      (rest : Reportable buf blocksiz count (off + (direntryAt buf off).recLen) read) :
      Reportable buf blocksiz count off read

/-- The mapped blocks, with what is reported before each. -/
def Listable (disk : Mem) (sb : SuperBlock) (count : Nat) : List UInt32 → Nat → Prop
  | [], _ => True
  | blk :: blks, read =>
    if blk = 0 then Listable disk sb count blks read
    else
      let buf := blockBytes disk sb blk
      Reportable buf sb.sBlocksize.toNat count 0 read ∧
        ∀ read' dirp dirp', readdirBlock buf sb.sBlocksize.toNat count (2 ^ 64) 0 read dirp =
          some (read', dirp') → Listable disk sb count blks read'

section Searching
variable {disk buf : Mem} {sb : SuperBlock} {blocksiz : Nat} {name : Str} {fuel off : Nat}

theorem onward (small : blocksiz ≤ 2 ^ 31) (inside : off < blocksiz) :
    (off + (direntryAt buf off).recLen) % 2 ^ 32 = off + (direntryAt buf off).recLen := by
  have length : (direntryAt buf off).recLen < 2 ^ 16 := load16_bound buf (off + 4)
  exact Nat.mod_eq_of_lt (by omega)

theorem lookupBlock_stuck (small : blocksiz ≤ 2 ^ 31) (inside : off < blocksiz)
    (other : matched buf name off = none) (still : (direntryAt buf off).recLen = 0) :
    lookupBlock buf blocksiz name fuel off = none := by
  induction fuel with
  | zero => rfl
  | succ fuel ih =>
    rw [lookupBlock_step inside, other, onward small inside, still]
    exact ih

theorem passable_of_lookupBlock (small : blocksiz ≤ 2 ^ 31) {r : Option Nat}
    (ran : lookupBlock buf blocksiz name fuel off = some r) :
    Passable buf blocksiz (fun off => matched buf name off ≠ none) off := by
  induction fuel generalizing off with
  | zero => cases ran
  | succ fuel ih =>
    by_cases inside : off < blocksiz
    · by_cases other : matched buf name off = none
      · rcases Nat.eq_zero_or_pos (direntryAt buf off).recLen with still | moves
        · rw [lookupBlock_stuck small inside other still] at ran
          cases ran
        · rw [lookupBlock_step inside, other, onward small inside] at ran
          exact .next inside moves (ih ran)
      · exact .found inside other
    · exact .past (Nat.not_lt.mp inside)

theorem Passable.lookupBlock (small : blocksiz ≤ 2 ^ 31)
    (passable : Passable buf blocksiz (fun off => matched buf name off ≠ none) off)
    (enough : blocksiz - off < fuel) :
    ∃ r, lookupBlock buf blocksiz name fuel off = some r := by
  induction passable generalizing fuel with
  | past behind =>
    obtain ⟨n, rfl⟩ : ∃ n, fuel = n + 1 := ⟨fuel - 1, by omega⟩
    exact ⟨none, by rw [Ext2.lookupBlock, if_neg (Nat.not_lt.mpr behind)]⟩
  | found inside here =>
    obtain ⟨n, rfl⟩ : ∃ n, fuel = n + 1 := ⟨fuel - 1, by omega⟩
    obtain ⟨ino, hit⟩ := Option.ne_none_iff_exists'.mp here
    exact ⟨some ino, by rw [lookupBlock_step inside, hit]⟩
  | @next off inside moves rest ih =>
    obtain ⟨n, rfl⟩ : ∃ n, fuel = n + 1 := ⟨fuel - 1, by omega⟩
    rw [lookupBlock_step inside, onward small inside]
    cases matched buf name off with
    | some ino => exact ⟨some ino, rfl⟩
    | none => exact ih (by omega)

theorem lookupBlocks_returns_iff (small : sb.sBlocksize.toNat ≤ 2 ^ 31) {blks : List UInt32}
    (fresh : ∀ blk, ext2Read disk sb blk 1 buf = blockBytes disk sb blk) :
    lookupBlocks disk sb name blks buf ≠ none ↔ Searchable disk sb name blks := by
  induction blks generalizing buf with
  | nil => exact iff_of_true (Option.some_ne_none _) trivial
  | cons blk blks ih =>
    rw [lookupBlocks, Searchable]
    by_cases hole : blk = 0
    · rw [if_pos hole, if_pos hole]
      exact ih fresh
    · rw [if_neg hole, if_neg hole]
      simp only [fresh]
      cases scanned : lookupBlock (blockBytes disk sb blk) sb.sBlocksize.toNat name (2 ^ 32) 0 with
      | none =>
        refine iff_of_false (fun returned => returned rfl) fun searchable => ?_
        have enough : sb.sBlocksize.toNat - 0 < 2 ^ 32 := by omega
        obtain ⟨r, ran⟩ := searchable.1.lookupBlock small enough
        rw [scanned] at ran
        cases ran
      | some r =>
        have passable := passable_of_lookupBlock small scanned
        rw [and_iff_right passable]
        cases r with
        | some ino => exact iff_of_true (Option.some_ne_none _) fun none' => by cases none'
        | none =>
          have rest := ih fun blk' => ext2Read_again disk sb blk' blk
          exact rest.trans ⟨fun searchable _ => searchable, fun searchable => searchable rfl⟩

theorem ext2Lookup_returns_iff (d : Directory) (small : d.sb.sBlocksize.toNat ≤ 2 ^ 31) :
    ext2Lookup disk d name ≠ none ↔ Searchable disk d.sb name d.blocks :=
  lookupBlocks_returns_iff small fun _ => rfl

end Searching

section Reporting
variable {disk buf dirp : Mem} {sb : SuperBlock} {blocksiz count : Nat} {fuel off read : Nat}

theorem reported (few : count ≤ 2 ^ 31) (more : read < count) :
    (read + reclen (direntryAt buf off)) % 2 ^ 32 = read + reclen (direntryAt buf off) := by
  have short := direntryAt_name buf off
  unfold reclen direntSize
  exact Nat.mod_eq_of_lt (by omega)

theorem readdirBlock_stuck (small : blocksiz ≤ 2 ^ 31) (more : off < blocksiz ∧ read < count)
    (unused : (direntryAt buf off).ino = 0) (still : (direntryAt buf off).recLen = 0) :
    readdirBlock buf blocksiz count fuel off read dirp = none := by
  induction fuel with
  | zero => rfl
  | succ fuel ih =>
    have here : off % 2 ^ 32 = off := Nat.mod_eq_of_lt (by omega)
    rw [readdirBlock, if_pos more]
    simp only [unused, still, Nat.add_zero, here, ne_eq, not_true_eq_false, if_false]
    exact ih

theorem reportable_of_readdirBlock (small : blocksiz ≤ 2 ^ 31) (few : count ≤ 2 ^ 31)
    {out : Nat × Mem} (ran : readdirBlock buf blocksiz count fuel off read dirp = some out) :
    Reportable buf blocksiz count off read := by
  induction fuel generalizing off read dirp with
  | zero => cases ran
  | succ fuel ih =>
    by_cases more : off < blocksiz ∧ read < count
    · by_cases unused : (direntryAt buf off).ino = 0
      · rcases Nat.eq_zero_or_pos (direntryAt buf off).recLen with still | moves
        · rw [readdirBlock_stuck small more unused still] at ran
          cases ran
        · rw [readdirBlock, if_pos more] at ran
          simp only [onward small more.1, unused, ne_eq, not_true_eq_false, if_false] at ran
          exact .unused more unused moves (ih ran)
      · rw [readdirBlock, if_pos more] at ran
        simp only [onward small more.1, reported few more.2, unused, ne_eq, not_false_eq_true,
          if_true] at ran
        exact .used more unused (ih ran)
    · exact .done more

theorem Reportable.readdirBlock (small : blocksiz ≤ 2 ^ 31) (few : count ≤ 2 ^ 31)
    (reportable : Reportable buf blocksiz count off read) (dirp : Mem)
    (enough : (blocksiz - off) + (count - read) < fuel) :
    ∃ out, readdirBlock buf blocksiz count fuel off read dirp = some out := by
  induction reportable generalizing fuel dirp with
  | @done off read stop =>
    obtain ⟨n, rfl⟩ : ∃ n, fuel = n + 1 := ⟨fuel - 1, by omega⟩
    exact ⟨(read, dirp), by rw [Ext2.readdirBlock, if_neg stop]⟩
  | @used off read more used rest ih =>
    obtain ⟨n, rfl⟩ : ∃ n, fuel = n + 1 := ⟨fuel - 1, by omega⟩
    have grows : 0 < reclen (direntryAt buf off) := by
      unfold reclen
      omega
    rw [Ext2.readdirBlock, if_pos more]
    simp only [onward small more.1, reported few more.2, used, ne_eq, not_false_eq_true, if_true]
    exact ih _ (by omega)
  | @unused off read more unused moves rest ih =>
    obtain ⟨n, rfl⟩ : ∃ n, fuel = n + 1 := ⟨fuel - 1, by omega⟩
    rw [Ext2.readdirBlock, if_pos more]
    simp only [onward small more.1, unused, ne_eq, not_true_eq_false, if_false]
    exact ih _ (by omega)

theorem readdirBlock_reported {out : Nat × Mem}
    (ran : readdirBlock buf blocksiz count fuel off read dirp = some out) (dirp' : Mem) :
    ∃ m, readdirBlock buf blocksiz count fuel off read dirp' = some (out.1, m) := by
  induction fuel generalizing off read dirp dirp' with
  | zero => cases ran
  | succ fuel ih =>
    rw [readdirBlock] at ran ⊢
    by_cases more : off < blocksiz ∧ read < count
    · rw [if_pos more] at ran ⊢
      by_cases used : (direntryAt buf off).ino ≠ 0
      · simp only [used, ne_eq, not_false_eq_true, if_true] at ran ⊢
        exact ih ran _
      · simp only [used, if_false] at ran ⊢
        exact ih ran _
    · rw [if_neg more] at ran ⊢
      cases ran
      exact ⟨dirp', rfl⟩

theorem readdirBlocks_returns_iff (small : sb.sBlocksize.toNat ≤ 2 ^ 31) (few : count ≤ 2 ^ 31)
    {blks : List UInt32} (fresh : ∀ blk, ext2Read disk sb blk 1 buf = blockBytes disk sb blk) :
    readdirBlocks disk sb count blks buf read dirp ≠ none ↔ Listable disk sb count blks read := by
  induction blks generalizing buf read dirp with
  | nil => exact iff_of_true (Option.some_ne_none _) trivial
  | cons blk blks ih =>
    rw [readdirBlocks, Listable]
    by_cases hole : blk = 0
    · rw [if_pos hole, if_pos hole]
      exact ih fresh
    · rw [if_neg hole, if_neg hole]
      simp only [fresh]
      cases scanned : readdirBlock (blockBytes disk sb blk) sb.sBlocksize.toNat count (2 ^ 64) 0
          read dirp with
      | none =>
        refine iff_of_false (fun returned => returned rfl) fun listable => ?_
        have enough : sb.sBlocksize.toNat - 0 + (count - read) < 2 ^ 64 := by omega
        obtain ⟨out, ran⟩ := listable.1.readdirBlock small few dirp enough
        rw [scanned] at ran
        cases ran
      | some out =>
        obtain ⟨read', dirp'⟩ := out
        have reportable := reportable_of_readdirBlock small few scanned
        rw [and_iff_right reportable]
        have rest : readdirBlocks disk sb count blks (blockBytes disk sb blk) read' dirp' ≠ none ↔
            Listable disk sb count blks read' := ih fun blk' => ext2Read_again disk sb blk' blk
        constructor
        · intro returned read'' dirp₁ dirp₂ ran
          obtain ⟨m, again⟩ := readdirBlock_reported scanned dirp₁
          rw [ran, Option.some.injEq, Prod.mk.injEq] at again
          rw [again.1]
          exact rest.mp returned
        · intro listable
          exact rest.mpr (listable read' dirp dirp' scanned)

theorem ext2Readdir_returns_iff (d : Directory) (small : d.sb.sBlocksize.toNat ≤ 2 ^ 31)
    {count : UInt32} (few : count.toNat ≤ 2 ^ 31) :
    ext2Readdir disk d dirp count ≠ none ↔ Listable disk d.sb count.toNat d.blocks 0 :=
  readdirBlocks_returns_iff small few fun _ => rfl

end Reporting

end Ext2
