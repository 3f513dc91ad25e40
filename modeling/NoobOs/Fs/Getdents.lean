import NoobOs.Ext2.Directory
import NoobOs.Fs.FileCalls

/-!
Successive calls of `fsys_getdents` on a descriptor open on an ext2 directory. Each one ends
in `ext2_readdir`, which keeps nothing in the open file and begins at the first block.
-/
namespace Getdents
open ByteMemory Ext2 FileTable FileCalls

structure Call where
  dirp : Mem
  count : UInt32

structure Answer where
  call : Call
  ret : Int
  dirp : Mem

def reading (k : Kernel) (read : Nat) : Kernel :=
  { k with perform := fun f s => if f = .ext2Readdir then (s, read) else k.perform f s }

def getdents (k : Kernel) (disk : Mem) (d : Directory) (fd : Int) (s : State) (c : Call) :
    Option (State × Answer) := do
  let (read, dirp) ← ext2Readdir disk d c.dirp c.count
  match fsysGetdents (reading k read) s fd c.count.toNat with
  | .error _ => none
  | .ok (s, ret) => return (s, ⟨c, ret, dirp⟩)

def getdentsAll (k : Kernel) (disk : Mem) (d : Directory) (fd : Int) :
    State → List Call → Option (List Answer)
  | _, [] => some []
  | s, c :: cs => do
    let (s, a) ← getdents k disk d fd s c
    let rest ← getdentsAll k disk d fd s cs
    return a :: rest

structure OpenDir (k : Kernel) (s : State) (fd : Int) : Prop where
  low : fd < nofile
  open' : ∃ f a t, slot s fd = some (some f) ∧ (s.file f).flags &&& fUsed ≠ 0 ∧
    (s.file f).inode = some a ∧
    Vfs.isDir (k.inode a).mode ∧ (s.file f).fops = some t ∧ (k.fops t).readdir = some .ext2Readdir

/-- The calls return the entries of `left`, each once and in order, and then 0; nothing is asked
    of them once a count is too small for the next record. -/
def Enumerated : List Direntry → List Answer → Prop
  | _, [] => True
  | left, a :: rest => (∀ e, left.head? = some e → reclen e ≤ a.call.count.toNat) →
    ∃ rs left', left = rs ++ left' ∧ a.ret = size rs ∧ Encoded a.call.dirp a.dirp 0 rs ∧
      (rs = [] → left = []) ∧
      Enumerated left' rest

section Calls
variable {k : Kernel} {s : State} {fd : Int} {disk : Mem} {d : Directory} {es : List Direntry}

theorem fsysGetdents_reading (opened : OpenDir k s fd) (read : Nat) {count : Nat}
    (some' : count ≠ 0) :
    fsysGetdents (reading k read) s fd count = .ok (s, read) := by
  obtain ⟨low, f, a, t, held, used, inode, directory, fops, readdir⟩ := opened
  have inside' : ¬ (nofile : Int) < fd := by omega
  have checked : checkFd s fd = some (0, some f) := by
    simp [checkFd, inside', held, used, inode]
  have found : FileCalls.opened (reading k read) s (some f) = .ok (s.file f, k.inode a) := by
    simp [FileCalls.opened, used, inode, reading]
  have called : guarded (reading k read) s (k.inode a) (s.file f).fops FileOps.readdir =
      .ok (s, (read : Int)) := by
    simp [guarded, fops, reading, readdir, callPtr]
  simp only [fsysGetdents, if_neg some', checked, inside, bind, Except.bind, found,
    called, directory]
  rfl

/-- What one call does: the first records again, and the state as it was. -/
theorem getdents_eq (opened : OpenDir k s fd) (wellFormed : WellFormed disk d es) (c : Call) :
    ∃ dirp, getdents k disk d fd s c = some
    (s, ⟨c, size (listed c.count.toNat 0 (live es)), dirp⟩) ∧
      Encoded c.dirp dirp 0 (listed c.count.toNat 0 (live es)) := by
  obtain ⟨dirp, ran, written⟩ := ext2Readdir_eq wellFormed c.dirp c.count
  refine ⟨dirp, ?_, written.encoded⟩
  by_cases zero : c.count.toNat = 0
  · have nothing : size (listed c.count.toNat 0 (live es)) = 0 := by
      rw [listed_full (by omega)]
      rfl
    rw [nothing] at ran ⊢
    simp [getdents, ran, fsysGetdents, zero]
  · simp [getdents, ran, fsysGetdents_reading opened _ zero]

structure Restarted (left : List Direntry) (c : Call) (a : Answer) : Prop where
  call : a.call = c
  ret : a.ret = size (listed c.count.toNat 0 left)
  encoded : Encoded c.dirp a.dirp 0 (listed c.count.toNat 0 left)

theorem getdentsAll_eq (opened : OpenDir k s fd) (wellFormed : WellFormed disk d es)
    (cs : List Call) :
    ∃ answers, getdentsAll k disk d fd s cs = some answers ∧
    List.Forall₂ (Restarted (live es)) cs answers := by
  induction cs with
  | nil => exact ⟨[], rfl, List.Forall₂.nil⟩
  | cons c cs ih =>
    obtain ⟨dirp, ran, encoded⟩ := getdents_eq opened wellFormed c
    obtain ⟨answers, rest, each⟩ := ih
    refine ⟨⟨c, size (listed c.count.toNat 0 (live es)), dirp⟩ :: answers, ?_,
      List.Forall₂.cons ⟨rfl, rfl, encoded⟩ each⟩
    simp [getdentsAll, ran, rest]

theorem listed_front (count read : Nat) (left : List Direntry) :
    ∃ left', left = listed count read left ++ left' := by
  induction left generalizing read with
  | nil => exact ⟨[], rfl⟩
  | cons e left ih =>
    by_cases more : read < count
    · obtain ⟨left', rest⟩ := ih (read + reclen e)
      refine ⟨left', ?_⟩
      rw [listed, if_pos more, List.cons_append, ← rest]
    · exact ⟨e :: left, by rw [listed, if_neg more, List.nil_append]⟩

theorem size_eq_zero {left : List Direntry} : size left = 0 ↔ left = [] := by
  cases left with
  | nil => simp [size]
  | cons e left => simp [size, reclen]

theorem enumerated_empty {cs : List Call} {answers : List Answer}
    (each : List.Forall₂ (Restarted []) cs answers) :
    Enumerated [] answers := by
  induction each with
  | nil => trivial
  | cons one rest ih => exact fun _ => ⟨[], [], rfl, one.ret, trivial, fun _ => rfl, ih⟩

theorem enumerated_once {left : List Direntry} {c : Call} {a : Answer} (one : Restarted left c a) :
    Enumerated left [a] := by
  intro large
  obtain ⟨left', split⟩ := listed_front c.count.toNat 0 left
  refine ⟨listed c.count.toNat 0 left, left', split, one.ret, one.call ▸ one.encoded, ?_, trivial⟩
  intro none'
  cases left with
  | nil => rfl
  | cons e left =>
    have room := large e rfl
    rw [one.call] at room
    have positive : 0 < c.count.toNat := by
      simp only [reclen] at room
      omega
    rw [listed, if_pos positive] at none'
    exact absurd none' (List.cons_ne_nil _ _)

theorem not_enumerated_twice {left : List Direntry} (entries : left ≠ []) {c c' : Call}
    {a a' : Answer}
    {rest : List Answer} (first : Restarted left c a) (second : Restarted left c' a')
    (large : size left ≤ c.count.toNat) (positive : 0 < c'.count.toNat) :
    ¬ Enumerated left (a :: a' :: rest) := by
  intro enumerated
  obtain ⟨e, es, rfl⟩ := List.exists_cons_of_ne_nil entries
  rw [size_cons] at large
  obtain ⟨rs, left', split, ret, -, -, again⟩ := enumerated (by
    intro e' head
    obtain rfl : e = e' := by simpa using head
    rw [first.call]
    omega)
  have all : listed c.count.toNat 0 (e :: es) = e :: es := listed_all (by rw [size_cons]; omega)
  have whole : size (e :: es) = size rs := by
    have := first.ret
    rw [all, ret] at this
    exact_mod_cast this.symm
  have nothing : left' = [] := by
    rw [split, size_append] at whole
    exact size_eq_zero.mp (by omega)
  subst nothing
  obtain ⟨rs', left'', split', ret', -⟩ := again (by simp)
  obtain ⟨rfl, rfl⟩ := List.append_eq_nil_iff.mp split'.symm
  have repeated := second.ret
  rw [ret', listed, if_pos positive, size_cons, reclen] at repeated
  simp only [size, List.map_nil, List.sum_nil] at repeated
  omega

end Calls

/-- Successive calls enumerate a directory whatever their counts only where there is nothing to
    enumerate or a single call is made. -/
theorem getdents_enumerates_iff (k : Kernel) (s : State) (fd : Int) (opened : OpenDir k s fd)
    (disk : Mem) (d : Directory)
    (es : List Direntry) (wellFormed : WellFormed disk d es) (n : Nat) :
    (∀ cs : List Call, cs.length = n →
        ∃ answers, getdentsAll k disk d fd s cs = some answers ∧ Enumerated (live es) answers) ↔
      live es = [] ∨ n ≤ 1 := by
  constructor
  · intro every
    by_contra neither
    rw [not_or] at neither
    obtain ⟨entries, more⟩ := neither
    obtain ⟨m, rfl⟩ : ∃ m, n = m + 2 := ⟨n - 2, by omega⟩
    let large : Call := ⟨zeroed, 2 ^ 24⟩
    let small : Call := ⟨zeroed, 1⟩
    obtain ⟨answers, ran, enumerated⟩ := every (large :: small :: List.replicate m small) (by simp)
    obtain ⟨answers', ran', each⟩ :=
      getdentsAll_eq opened wellFormed (large :: small :: List.replicate m small)
    obtain rfl := Option.some.inj (ran.symm.trans ran')
    obtain _ | ⟨first, _ | ⟨second, _⟩⟩ := each
    exact not_enumerated_twice entries first second (Nat.le_of_lt wellFormed.size_lt)
      (by decide) enumerated
  · intro meets cs length
    obtain ⟨answers, ran, each⟩ := getdentsAll_eq opened wellFormed cs
    refine ⟨answers, ran, ?_⟩
    rcases meets with empty | one
    · rw [empty] at each ⊢
      exact enumerated_empty each
    · obtain _ | ⟨first, _ | ⟨second, _⟩⟩ := each
      · trivial
      · exact enumerated_once first
      · simp only [List.length_cons] at length
        omega

def dirKernel : Kernel where
  iops _ := ⟨some .ext2Lookup, none, none⟩
  fops _ := ⟨none, none, some .ext2Lread, none, some .ext2Readdir, none⟩
  inode _ := { InodeCache.Inode.zero with mode := 0o040755 }
  chrdevTab _ _ := none
  blkdev _ := none
  cred := ⟨0, 0⟩
  sDev _ := 0x800
  perform _ s := (s, 0)

def dirOpened : State :=
  ⟨fun _ => ⟨some 16, 0, 0, 1, fUsed, some 0⟩, [some 8, none, none, none, none], [8], []⟩

theorem dirOpened_opens : OpenDir dirKernel dirOpened 0 :=
  ⟨by decide, 8, 16, 0, rfl, by decide, rfl, by decide, rfl, rfl⟩

theorem getdents_enumerates_small_once :
    ∃ answers, getdentsAll dirKernel smallDisk smallDir 0 dirOpened
    [⟨zeroed, 1024⟩] = some answers ∧
      Enumerated (live smallEntries) answers :=
  (getdents_enumerates_iff dirKernel dirOpened 0 dirOpened_opens smallDisk smallDir smallEntries
    smallDir_wellFormed
    1).mpr (Or.inr (by decide)) [⟨zeroed, 1024⟩] rfl

/-- Read with a buffer of 1024 bytes each time, the two entries come back from every call. -/
theorem second_getdents_repeats :
    OpenDir dirKernel dirOpened 0 ∧ WellFormed smallDisk smallDir smallEntries ∧
    ∃ answers, getdentsAll dirKernel smallDisk smallDir 0 dirOpened
    [⟨zeroed, 1024⟩, ⟨zeroed, 1024⟩] = some answers ∧
      ¬ Enumerated (live smallEntries) answers := by
  obtain ⟨answers, ran, each⟩ :=
    getdentsAll_eq dirOpened_opens smallDir_wellFormed [⟨zeroed, 1024⟩, ⟨zeroed, 1024⟩]
  refine ⟨dirOpened_opens, smallDir_wellFormed, answers, ran, ?_⟩
  obtain _ | ⟨first, _ | ⟨second, _⟩⟩ := each
  exact not_enumerated_twice (by decide) first second (by decide) (by decide)

end Getdents
