import NoobOs.Lib.Runs
import Mathlib.Algebra.Group.Nat.Defs
import Mathlib.Data.List.Nodup
import Mathlib.Logic.Function.Basic

/-!
The descriptor table of a process and the open files its slots share: `fsys_open`,
`fsys_close`, `fsys_dup` and `fsys_dup2` of `vfs.c`. `none` is an access outside
the table.
-/
namespace FileTable
open Runs

def nofile : Nat := 5
def fUsed : Nat := 0x1000
def eBadf : Int := -9
def eNoent : Int := -2
def eInval : Int := -22
def eNfile : Int := -23

structure File where
  inode : Option Nat
  mode : Nat
  position : Nat
  refcont : Nat
  flags : Nat
  fops : Option Nat

/-- The calls that end the life of a file, in the order the code makes them. -/
inductive Event where
  | close (f : Nat)
  | iput (inode : Nat)
  | free (f : Nat)
  deriving DecidableEq

structure Fops where
  hasOpen : Nat → Bool
  hasClose : Nat → Bool

/-- `alive` are the files allocated and not freed; no function reads it or `log`. -/
structure State where
  file : Nat → File
  ofile : List (Option Nat)
  alive : List Nat
  log : List Event

def slot (s : State) (fd : Int) : Option (Option Nat) :=
  if 0 ≤ fd then s.ofile[fd.toNat]? else none

def setSlot (s : State) (fd : Int) (f : Option Nat) : State :=
  { s with ofile := s.ofile.set fd.toNat f }

def storeSlot (s : State) (fd : Int) (f : Option Nat) : Option State :=
  (slot s fd).map fun _ => setSlot s fd f

def setFile (s : State) (f : Nat) (v : File) : State :=
  { s with file := Function.update s.file f v }

def inUse (s : State) (o : Option Nat) : Bool :=
  o.any fun f => (s.file f).flags &&& fUsed ≠ 0

def findfreefdFrom (s : State) : List (Option Nat) → Int → Int
  | [], _ => -1
  | o :: os, fd => if inUse s o then findfreefdFrom s os (fd + 1) else fd

def findfreefd (s : State) : Int := findfreefdFrom s s.ofile 0

/-- The error code, and the file when it is 0. A descriptor equal to `NOFILE` gets past
    the first test. -/
def checkFd (s : State) (fd : Int) : Option (Int × Option Nat) :=
  if (nofile : Int) < fd then some (eBadf, none)
  else do
    match ← slot s fd with
    | none => return (eBadf, none)
    | some f =>
      if (s.file f).flags &&& fUsed = 0 then return (eBadf, none)
      if (s.file f).inode = none then return (eBadf, none)
      return (0, some f)

/-- The inode a path leads to, with the fields `fsys_open` copies. -/
structure Found where
  inode : Nat
  fops : Option Nat
  mode : Nat

/-- `found` is what `lookup_vfs` returns, `new` what `malloc` returns and `opened`
    what the file's own `open` returns. -/
def fsysOpen (ops : Fops) (s : State) (flags : Nat) (found : Option Found) (new : Nat)
    (opened : Int) : State × Int :=
  if flags &&& 3 = 3 then (s, eInval)
  else
    match found with
    | none => (s, eNoent)
    | some n =>
      let fd := findfreefd s
      if fd = -1 then ({ s with log := s.log ++ [.iput n.inode] }, eNfile)
      else
        let f : File := ⟨some n.inode, n.mode, 0, 1, flags ||| fUsed, n.fops⟩
        if n.fops.any ops.hasOpen ∧ opened < 0 then
          ({ s with log := s.log ++ [.free new, .iput n.inode] }, opened)
        else
          (setSlot { setFile s new f with alive := new :: s.alive } fd (some new), fd)

def decrement (n : Nat) : Nat := (n + 2 ^ 32 - 1) % 2 ^ 32

/-- The branch of `fsys_close` for a count of 0. -/
def release (ops : Fops) (s : State) (f : Nat) : List Event :=
  (if (s.file f).fops.any ops.hasClose then [.close f] else []) ++
    (s.file f).inode.toList.map .iput ++ [.free f]

def fsysClose (ops : Fops) (s : State) (fd : Int) : Option (State × Int) :=
  if (nofile : Int) ≤ fd then some (s, eBadf)
  else do
    match ← slot s fd with
    | none => return (s, eBadf)
    | some f =>
      if (s.file f).flags ||| fUsed = 0 then return (s, eBadf)
      let s := setSlot s fd none
      let s := setFile s f { s.file f with refcont := decrement (s.file f).refcont }
      if (s.file f).refcont = 0 then
        return ({ s with alive := s.alive.erase f, log := s.log ++ release ops s f }, 0)
      return (s, 0)

def fsysDup2 (ops : Fops) (s : State) (oldfd newfd : Int) : Option (State × Int) := do
  let (r, f) ← checkFd s oldfd
  match f with
  | none => return (s, r)
  | some f =>
    let (_, n) ← checkFd s newfd
    -- `close(newfd)` goes through the system call; its result is ignored
    let s ← match n with
      | some _ => (fsysClose ops s newfd).map Prod.fst
      | none => some s
    let s := setFile s f { s.file f with refcont := ((s.file f).refcont + 1) % 2 ^ 32 }
    let s ← storeSlot s newfd (some f)
    return (s, newfd)

def fsysDup (ops : Fops) (s : State) (oldfd : Int) : Option (State × Int) := do
  let newfd := findfreefd s
  if newfd = -1 then return (s, eNfile)
  let (s, _) ← fsysDup2 ops s oldfd newfd
  return (s, newfd)

/-! ## Runs -/

inductive Request where
  | openPath (flags : Nat) (found : Option Found) (new : Nat) (opened : Int)
  | close (fd : Int)
  | dup (oldfd : Int)
  | dup2 (oldfd newfd : Int)

def InTable (fd : Int) : Prop := 0 ≤ fd ∧ fd < nofile

def Legal (s : State) : Request → Prop
  | .openPath _ _ new _ => new ∉ s.alive
  | .close fd => InTable fd
  | .dup oldfd => InTable oldfd
  | .dup2 oldfd newfd => InTable oldfd ∧ InTable newfd ∧ oldfd ≠ newfd

def call (ops : Fops) (s : State) : Request → Option (State × Int)
  | .openPath flags found new opened => some (fsysOpen ops s flags found new opened)
  | .close fd => fsysClose ops s fd
  | .dup oldfd => fsysDup ops s oldfd
  | .dup2 oldfd newfd => fsysDup2 ops s oldfd newfd

def machine (ops : Fops) : Machine State Request :=
  ⟨Legal, fun s r => (call ops s r).map Prod.fst⟩

def start (file : Nat → File) : State := ⟨file, List.replicate nofile none, [], []⟩

/-- The files a step from `s` to `t` frees. -/
def freed (s t : State) : List Nat := s.alive.filter fun f => f ∉ t.alive

/-- Between `s` and `t` no file was freed, or one was, closed if it can be, and its
    inode given back. -/
def Settled (ops : Fops) (s t : State) : Prop :=
  (freed s t = [] ∧ t.log = s.log) ∨
  ∃ f i, freed s t = [f] ∧ (s.file f).inode = some i ∧
    t.log = s.log ++ (if (s.file f).fops.any ops.hasClose then [.close f] else []) ++
      [.iput i, .free f]

structure Inv (s : State) : Prop where
  size : s.ofile.length = nofile
  slots : ∀ f, some f ∈ s.ofile ↔ f ∈ s.alive
  counts : ∀ f ∈ s.alive, (s.file f).refcont = s.ofile.count (some f)
  used : ∀ f ∈ s.alive, (s.file f).flags &&& fUsed ≠ 0 ∧ (s.file f).inode ≠ none
  distinct : s.alive.Nodup

section Steps
variable (ops : Fops) {s : State} {fd : Int} {f : Nat}

theorem slot_set {i : Nat} {o : Option Nat} (inside : i < s.ofile.length) (g : Nat) :
    (s.ofile.set i o).count (some g) =
      s.ofile.count (some g) - (if s.ofile[i] = some g then 1 else 0) +
        if o = some g then 1 else 0 := by
  rw [List.count_set inside]
  simp only [beq_iff_eq]

theorem slot_inTable (inv : Inv s) (inside : InTable fd) :
    ∃ bound : fd.toNat < s.ofile.length, slot s fd = some s.ofile[fd.toNat] := by
  have bound : fd.toNat < s.ofile.length := by
    have := inv.size
    simp only [InTable, nofile] at *
    omega
  refine ⟨bound, ?_⟩
  simp only [slot, if_pos inside.1, List.getElem?_eq_getElem bound]

theorem inUse_slot (inv : Inv s) {o : Option Nat} (member : o ∈ s.ofile) :
    inUse s o = o.isSome := by
  cases o with
  | none => rfl
  | some f =>
    have used := (inv.used f ((inv.slots f).mp member)).1
    simpa [inUse] using used

theorem findfreefdFrom_range (os : List (Option Nat)) (fd : Int) :
    findfreefdFrom s os fd = -1 ∨
    (fd ≤ findfreefdFrom s os fd ∧ findfreefdFrom s os fd < fd + os.length) := by
  induction os generalizing fd with
  | nil => exact Or.inl rfl
  | cons o os ih =>
    rw [findfreefdFrom, List.length_cons]
    split
    · have rest := ih (fd + 1)
      omega
    · omega

theorem findfreefd_inTable (size : s.ofile.length = nofile) :
    findfreefd s = -1 ∨ InTable (findfreefd s) := by
  have range := findfreefdFrom_range (s := s) s.ofile 0
  rw [size] at range
  unfold InTable findfreefd
  omega

theorem findfreefdFrom_eq {os : List (Option Nat)} (used : ∀ o ∈ os, inUse s o = o.isSome)
    (fd : Int) : findfreefdFrom s os fd =
      match os.findIdx? Option.isNone with
      | some i => fd + i
      | none => -1 := by
  induction os generalizing fd with
  | nil => rfl
  | cons o os ih =>
    have first := used o List.mem_cons_self
    have rest := ih (fun p member => used p (List.mem_cons_of_mem _ member)) (fd + 1)
    cases o with
    | none => simp [findfreefdFrom, first, List.findIdx?_cons]
    | some f =>
      rw [findfreefdFrom, first, Option.isSome_some, if_pos rfl, rest, List.findIdx?_cons]
      cases os.findIdx? Option.isNone with
      | none => rfl
      | some i =>
        show fd + 1 + (i : Int) = fd + ((i + 1 : Nat) : Int)
        omega

theorem findfreefd_eq (used : ∀ o ∈ s.ofile, inUse s o = o.isSome) : findfreefd s =
    match s.ofile.findIdx? Option.isNone with
    | some i => (i : Int)
    | none => -1 := by
  rw [findfreefd, findfreefdFrom_eq used]
  cases s.ofile.findIdx? Option.isNone <;> simp

theorem findfreefd_first (used : ∀ o ∈ s.ofile, inUse s o = o.isSome) :
    (findfreefd s = -1 ∧ none ∉ s.ofile) ∨
    ∃ i, ∃ bound : i < s.ofile.length, findfreefd s = i ∧ s.ofile[i] = none ∧
      ∀ j, ∀ less : j < i, s.ofile[j] ≠ none := by
  rw [findfreefd_eq used]
  cases found : s.ofile.findIdx? Option.isNone with
  | none =>
    left
    refine ⟨rfl, fun member => ?_⟩
    have full := List.findIdx?_eq_none_iff.mp found none member
    simp at full
  | some i =>
    right
    obtain ⟨bound, empty, lower⟩ := List.findIdx?_eq_some_iff_getElem.mp found
    refine ⟨i, bound, rfl, by simpa using empty, ?_⟩
    intro j less null
    have full := lower j less
    simp [null] at full

theorem findfreefd_slot (inv : Inv s) :
    (findfreefd s = -1 ∧ none ∉ s.ofile) ∨
    ∃ i, ∃ bound : i < s.ofile.length, findfreefd s = i ∧ s.ofile[i] = none ∧
      ∀ j, ∀ less : j < i, s.ofile[j] ≠ none :=
  findfreefd_first fun _ member => inUse_slot inv member

theorem Inv.of_counts {s : State} (size : s.ofile.length = nofile) (distinct : s.alive.Nodup)
    (live : ∀ f ∈ s.alive, 0 < s.ofile.count (some f) ∧
      (s.file f).refcont = s.ofile.count (some f) ∧ (s.file f).flags &&& fUsed ≠ 0 ∧
      (s.file f).inode ≠ none)
    (dead : ∀ f, f ∉ s.alive → s.ofile.count (some f) = 0) : Inv s := by
  refine ⟨size, ?_, fun f mf => (live f mf).2.1, fun f mf => (live f mf).2.2, distinct⟩
  intro f
  constructor
  · intro member
    by_contra gone
    have none := dead f gone
    rw [List.count_eq_zero] at none
    exact none member
  · intro member
    exact List.count_pos_iff.mp (live f member).1

theorem Inv.count_pos (inv : Inv s) (member : f ∈ s.alive) : 0 < s.ofile.count (some f) :=
  List.count_pos_iff.mpr ((inv.slots f).mpr member)

theorem Inv.count_zero (inv : Inv s) (gone : f ∉ s.alive) : s.ofile.count (some f) = 0 :=
  List.count_eq_zero.mpr fun member => gone ((inv.slots f).mp member)

theorem freed_one {t : State} (inv : Inv s) (member : f ∈ s.alive)
    (left : t.alive = s.alive.erase f) : freed s t = [f] := by
  have only : ∀ g ∈ s.alive, decide (g ∉ t.alive) = decide (g = f) := by
    intro g mg
    simp [left, inv.distinct.mem_erase_iff, mg]
  rw [freed, List.filter_congr only, List.filter_eq, List.count_eq_one_of_mem inv.distinct member]
  rfl

theorem freed_none {t : State} (kept : ∀ g ∈ s.alive, g ∈ t.alive) : freed s t = [] := by
  rw [freed, List.filter_eq_nil_iff]
  intro g mg
  simpa using kept g mg

theorem settled_unchanged {t : State} (same : t.log = s.log) (kept : ∀ g ∈ s.alive, g ∈ t.alive) :
    Settled ops s t :=
  Or.inl ⟨freed_none kept, same⟩

theorem decrement_eq {n : Nat} (positive : 0 < n) (small : n < 2 ^ 32) : decrement n = n - 1 := by
  unfold decrement
  omega

/-- Closing a slot that holds `f`. The file goes with its last slot. -/
theorem fsysClose_spec (inv : Inv s) (inside : InTable fd) (held : slot s fd = some (some f)) :
    ∃ t, fsysClose ops s fd = some (t, 0) ∧ Inv t ∧ t.ofile = s.ofile.set fd.toNat none ∧
      Settled ops s t ∧ ∀ g ∈ t.alive, g ∈ s.alive := by
  obtain ⟨bound, here⟩ := slot_inTable inv inside
  rw [held, Option.some.injEq] at here
  have member : f ∈ s.alive := (inv.slots f).mp (here ▸ List.getElem_mem bound)
  have positive := inv.count_pos member
  have small : s.ofile.count (some f) ≤ nofile := inv.size ▸ List.count_le_length
  have count := inv.counts f member
  have less : decrement (s.file f).refcont = s.ofile.count (some f) - 1 := by
    rw [count]
    apply decrement_eq positive
    simp only [nofile] at small
    omega
  have flagged : ¬ (s.file f).flags ||| fUsed = 0 := by simp [fUsed]
  have range : ¬ (nofile : Int) ≤ fd := by
    have := inside.2
    omega
  have counted : ∀ g, (s.ofile.set fd.toNat none).count (some g) =
      s.ofile.count (some g) - if g = f then 1 else 0 := by
    intro g
    rw [slot_set bound, ← here]
    simp [eq_comm]
  by_cases last : s.ofile.count (some f) = 1
  · refine ⟨{ setFile (setSlot s fd none) f { s.file f with refcont := 0 } with
      alive := s.alive.erase f, log := s.log ++ release ops s f }, ?_, ?_, rfl, ?_, ?_⟩
    · have zero : decrement (s.file f).refcont = 0 := by rw [less, last]
      simp only [fsysClose, if_neg range, held, Option.bind_eq_bind, Option.bind_some,
        if_neg flagged,
        setFile, setSlot, zero, Function.update_self, if_pos, Option.pure_def, release]
    · apply Inv.of_counts
      · simp [setFile, setSlot, inv.size]
      · exact inv.distinct.erase f
      · intro g mg
        obtain ⟨other, mg⟩ := inv.distinct.mem_erase_iff.mp mg
        simp only [setFile, setSlot, counted, if_neg other, Nat.sub_zero,
          Function.update_of_ne other]
        exact ⟨inv.count_pos mg, inv.counts g mg, inv.used g mg⟩
      · intro g gone
        simp only [setFile, setSlot, counted]
        by_cases same : g = f
        · rw [same, last, if_pos rfl]
        · rw [if_neg same, Nat.sub_zero]
          exact inv.count_zero fun mg => gone (inv.distinct.mem_erase_iff.mpr ⟨same, mg⟩)
    · obtain ⟨i, inode⟩ := Option.ne_none_iff_exists'.mp (inv.used f member).2
      refine Or.inr ⟨f, i, freed_one inv member rfl, inode, ?_⟩
      simp only [release, inode, Option.toList_some, List.map_cons, List.map_nil, List.append_assoc,
        List.singleton_append]
    · exact fun g mg => List.mem_of_mem_erase mg
  · refine ⟨setFile (setSlot s fd none) f
      { s.file f with refcont := s.ofile.count (some f) - 1 }, ?_, ?_, rfl, ?_, ?_⟩
    · have nonzero : s.ofile.count (some f) - 1 ≠ 0 := by omega
      simp only [fsysClose, if_neg range, held, Option.bind_eq_bind, Option.bind_some,
        if_neg flagged,
        setFile, setSlot, less, Function.update_self, if_neg nonzero, Option.pure_def]
    · apply Inv.of_counts
      · simp [setFile, setSlot, inv.size]
      · exact inv.distinct
      · intro g mg
        simp only [setFile, setSlot, counted]
        by_cases same : g = f
        · subst same
          simp only [if_pos, Function.update_self]
          exact ⟨by omega, trivial, inv.used g mg⟩
        · simp only [if_neg same, Nat.sub_zero, Function.update_of_ne same]
          exact ⟨inv.count_pos mg, inv.counts g mg, inv.used g mg⟩
      · intro g gone
        simp only [setFile, setSlot, counted]
        rw [inv.count_zero gone, Nat.zero_sub]
    · exact settled_unchanged ops rfl fun g mg => mg
    · exact fun g mg => mg

theorem fsysClose_empty (inside : InTable fd) (empty : slot s fd = some none) :
    fsysClose ops s fd = some (s, eBadf) := by
  have range : ¬ (nofile : Int) ≤ fd := by
    have := inside.2
    omega
  simp only [fsysClose, if_neg range, empty, Option.bind_eq_bind, Option.bind_some, Option.pure_def]

def share (s : State) (f : Nat) (fd : Int) : State :=
  setSlot (setFile s f { s.file f with refcont := ((s.file f).refcont + 1) % 2 ^ 32 }) fd (some f)

theorem share_inv (inv : Inv s) (member : f ∈ s.alive) (inside : InTable fd)
    (empty : slot s fd = some none) : Inv (share s f fd) := by
  obtain ⟨bound, here⟩ := slot_inTable inv inside
  rw [empty, Option.some.injEq] at here
  have counted : ∀ g, (s.ofile.set fd.toNat (some f)).count (some g) =
      s.ofile.count (some g) + if g = f then 1 else 0 := by
    intro g
    rw [slot_set bound, ← here]
    simp [eq_comm]
  have small : s.ofile.count (some f) ≤ nofile := inv.size ▸ List.count_le_length
  apply Inv.of_counts
  · simp [share, setFile, setSlot, inv.size]
  · exact inv.distinct
  · intro g mg
    simp only [share, setFile, setSlot, counted]
    by_cases same : g = f
    · subst same
      have count := inv.counts g mg
      simp only [if_pos, Function.update_self]
      simp only [nofile] at small
      exact ⟨by omega, by omega, inv.used g mg⟩
    · simp only [if_neg same, Nat.add_zero, Function.update_of_ne same]
      exact ⟨inv.count_pos mg, inv.counts g mg, inv.used g mg⟩
  · intro g gone
    simp only [share, setFile, setSlot, counted]
    have other : g ≠ f := fun same => gone (same ▸ member)
    rw [if_neg other, inv.count_zero gone]

theorem checkFd_inTable (inv : Inv s) (inside : InTable fd) :
    (slot s fd = some none ∧ checkFd s fd = some (eBadf, none)) ∨
    ∃ f ∈ s.alive, slot s fd = some (some f) ∧ checkFd s fd = some (0, some f) := by
  obtain ⟨bound, here⟩ := slot_inTable inv inside
  have range : ¬ (nofile : Int) < fd := by
    have := inside.2
    omega
  cases content : s.ofile[fd.toNat] with
  | none =>
    rw [content] at here
    exact Or.inl ⟨here, by simp [checkFd, range, here]⟩
  | some f =>
    rw [content] at here
    have member : f ∈ s.alive := (inv.slots f).mp (content ▸ List.getElem_mem bound)
    obtain ⟨flagged, inode⟩ := inv.used f member
    exact Or.inr ⟨f, member, here, by simp [checkFd, range, here, flagged, inode]⟩

theorem storeSlot_held {old : Option Nat} (held : slot s fd = some old) (g : Nat) (w : File)
    (o : Option Nat) :
    storeSlot (setFile s g w) fd o = some (setSlot (setFile s g w) fd o) := by
  have same : slot (setFile s g w) fd = slot s fd := rfl
  simp [storeSlot, same, held]

theorem fsysDup2_spec {oldfd newfd : Int} (inv : Inv s) (inOld : InTable oldfd)
    (inNew : InTable newfd) (different : oldfd ≠ newfd) :
    ∃ t r, fsysDup2 ops s oldfd newfd = some (t, r) ∧ Inv t ∧ Settled ops s t := by
  rcases checkFd_inTable inv inOld with ⟨_, checked⟩ | ⟨f, member, held, checked⟩
  · refine ⟨s, eBadf, ?_, inv, settled_unchanged ops rfl fun g mg => mg⟩
    simp only [fsysDup2, checked, Option.bind_eq_bind, Option.bind_some, Option.pure_def]
  · rcases checkFd_inTable inv inNew with ⟨empty, checked'⟩ | ⟨g, member', held', checked'⟩
    · refine ⟨share s f newfd, newfd, ?_, share_inv inv member inNew empty,
        settled_unchanged ops rfl fun g mg => mg⟩
      simp only [fsysDup2, checked, checked', storeSlot_held empty, Option.bind_eq_bind,
        Option.bind_some, Option.pure_def, share]
    · obtain ⟨t, closed, inv', slots, log, _⟩ := fsysClose_spec ops inv inNew held'
      obtain ⟨bound, _⟩ := slot_inTable inv inOld
      obtain ⟨bound', _⟩ := slot_inTable inv inNew
      have apart : oldfd.toNat ≠ newfd.toNat := by
        have := inOld.1
        have := inNew.1
        omega
      -- the old descriptor still holds its file, so the close did not free it
      have alive : f ∈ t.alive := by
        rw [← inv'.slots f, slots]
        simp only [slot, if_pos inOld.1, List.getElem?_eq_getElem bound, Option.some.injEq] at held
        rw [← held, ← List.getElem_set_ne apart.symm (a := none) (by simpa using bound)]
        exact List.getElem_mem _
      have empty : slot t newfd = some none := by
        simp [slot, inNew.1, slots, bound']
      refine ⟨share t f newfd, newfd, ?_, share_inv inv' alive inNew empty, log⟩
      simp only [fsysDup2, checked, checked', closed, storeSlot_held empty, Option.map_some,
        Option.bind_eq_bind, Option.bind_some, Option.pure_def, share]

def abandoned (ops : Fops) (s : State) : Request → List Event
  | .openPath flags (some n) new opened =>
    if flags &&& 3 = 3 then []
    else if none ∉ s.ofile then [.iput n.inode]
    else if n.fops.any ops.hasOpen ∧ opened < 0 then [.free new, .iput n.inode]
    else []
  | _ => []

theorem Settled.quiet {t : State} {r : Request} (settled : Settled ops s t)
    (nothing : abandoned ops s r = []) :
    (freed s t = [] ∧ t.log = s.log ++ abandoned ops s r) ∨
    ∃ f i, freed s t = [f] ∧ (s.file f).inode = some i ∧
      t.log = s.log ++ (if (s.file f).fops.any ops.hasClose then [.close f] else []) ++
      [.iput i, .free f] := by
  rcases settled with ⟨none', log⟩ | one
  · exact Or.inl ⟨none', by rw [nothing, log, List.append_nil]⟩
  · exact Or.inr one

theorem fsysOpen_spec (inv : Inv s) (flags : Nat) (found : Option Found) (opened : Int) {new : Nat}
    (fresh : new ∉ s.alive) :
    Inv (fsysOpen ops s flags found new opened).1 ∧
    (fsysOpen ops s flags found new opened).1.log =
      s.log ++ abandoned ops s (.openPath flags found new opened) ∧
    ∀ g ∈ s.alive, g ∈ (fsysOpen ops s flags found new opened).1.alive := by
  by_cases mode : flags &&& 3 = 3
  · cases found <;> simpa [fsysOpen, mode, abandoned] using inv
  · cases found with
    | none => simpa [fsysOpen, mode, abandoned] using inv
    | some n =>
      rcases findfreefd_slot inv with ⟨none', full⟩ | ⟨i, bound, free, empty, _⟩
      · simp only [fsysOpen, if_neg mode, none', if_pos, abandoned, if_pos full]
        exact ⟨⟨inv.size, inv.slots, inv.counts, inv.used, inv.distinct⟩, trivial, fun g mg => mg⟩
      · have room : ¬ none ∉ s.ofile := fun full => full (empty ▸ List.getElem_mem bound)
        have real : ¬ findfreefd s = -1 := by omega
        simp only [fsysOpen, if_neg mode, if_neg real, abandoned, if_neg room]
        by_cases refused : n.fops.any ops.hasOpen ∧ opened < 0
        · simp only [if_pos refused]
          exact ⟨⟨inv.size, inv.slots, inv.counts, inv.used, inv.distinct⟩, trivial, fun g mg => mg⟩
        · simp only [if_neg refused, free, List.append_nil]
          refine ⟨?_, rfl, fun g mg => List.mem_cons_of_mem _ mg⟩
          have counted : ∀ g, (s.ofile.set i (some new)).count (some g) =
              s.ofile.count (some g) + if g = new then 1 else 0 := by
            intro g
            rw [slot_set bound, empty]
            simp [eq_comm]
          apply Inv.of_counts
          · simp [setSlot, setFile, inv.size]
          · exact List.nodup_cons.mpr ⟨fresh, inv.distinct⟩
          · intro g mg
            simp only [setSlot, setFile, Int.toNat_natCast, counted]
            by_cases same : g = new
            · subst same
              have flagged : (flags ||| fUsed) &&& fUsed ≠ 0 := by
                rw [Nat.and_comm, Nat.and_or_distrib_left]
                simp [fUsed]
              simp [inv.count_zero fresh, flagged]
            · have old := (List.mem_cons.mp mg).resolve_left same
              simp only [if_neg same, Nat.add_zero, Function.update_of_ne same]
              exact ⟨inv.count_pos old, inv.counts g old, inv.used g old⟩
          · intro g gone
            have other : g ≠ new := fun same => gone (same ▸ List.mem_cons_self)
            have old : g ∉ s.alive := fun mg => gone (List.mem_cons_of_mem _ mg)
            simp only [setSlot, setFile, Int.toNat_natCast, counted, if_neg other, Nat.add_zero]
            exact inv.count_zero old

/-- Every legal call returns, keeps the invariant and ends the files that lost their
    last slot; only an `open` gives a lookup back. -/
theorem request_step (inv : Inv s) {r : Request} (ok : Legal s r) :
    ∃ t ret, call ops s r = some (t, ret) ∧ Inv t ∧
      ((freed s t = [] ∧ t.log = s.log ++ abandoned ops s r) ∨
        ∃ f i, freed s t = [f] ∧ (s.file f).inode = some i ∧
          t.log = s.log ++ (if (s.file f).fops.any ops.hasClose then [.close f] else []) ++
            [.iput i, .free f]) := by
  have unchanged : Settled ops s s := settled_unchanged ops rfl fun g mg => mg
  cases r with
  | openPath flags found new opened =>
    obtain ⟨inv', log, kept⟩ := fsysOpen_spec ops inv flags found opened ok
    exact ⟨(fsysOpen ops s flags found new opened).1,
      (fsysOpen ops s flags found new opened).2, rfl,
      inv', Or.inl ⟨freed_none kept, log⟩⟩
  | close fd =>
    obtain ⟨bound, here⟩ := slot_inTable inv ok
    cases content : s.ofile[fd.toNat] with
    | none =>
      rw [content] at here
      exact ⟨s, eBadf, fsysClose_empty ops ok here, inv, unchanged.quiet ops rfl⟩
    | some f =>
      rw [content] at here
      obtain ⟨t, closed, inv', _, settled, _⟩ := fsysClose_spec ops inv ok here
      exact ⟨t, 0, closed, inv', settled.quiet ops rfl⟩
  | dup2 oldfd newfd =>
    obtain ⟨t, ret, ran, inv', settled⟩ := fsysDup2_spec ops inv ok.1 ok.2.1 ok.2.2
    exact ⟨t, ret, ran, inv', settled.quiet ops rfl⟩
  | dup oldfd =>
    rcases findfreefd_slot inv with ⟨none', _⟩ | ⟨i, bound, free, empty, _⟩
    · exact ⟨s, eNfile, by simp [call, fsysDup, none'], inv, unchanged.quiet ops rfl⟩
    · have real : ¬ findfreefd s = -1 := by omega
      have inNew : InTable (i : Int) := by
        have := inv.size
        simp only [InTable, nofile] at *
        omega
      by_cases same : oldfd = i
      · -- an empty slot cannot be duplicated onto itself
        have nothing : slot s (i : Int) = some none := by simp [slot, bound, empty]
        rcases checkFd_inTable inv inNew with ⟨_, checked⟩ | ⟨f, _, held, _⟩
        · exact ⟨s, i, by simp [call, fsysDup, free, fsysDup2, same, checked],
            inv, unchanged.quiet ops rfl⟩
        · simp [nothing] at held
      · obtain ⟨t, ret, ran, inv', settled⟩ := fsysDup2_spec ops inv ok inNew same
        refine ⟨t, i, ?_, inv', settled.quiet ops rfl⟩
        simp only [call, fsysDup, free, ran, Option.bind_eq_bind, Option.bind_some,
          Option.pure_def]
        rfl

theorem fsysOpen_lowest (inv : Inv s) (flags new : Nat) (found : Option Found) (opened : Int)
    (success : 0 ≤ (fsysOpen ops s flags found new opened).2) :
    let (t, ret) := fsysOpen ops s flags found new opened
    slot s ret = some none ∧ (∀ i, 0 ≤ i → i < ret → ∃ f, slot s i = some (some f)) ∧
      slot t ret = some (some new) := by
  by_cases mode : flags &&& 3 = 3
  · simp [fsysOpen, mode, eInval] at success
  · cases found with
    | none => simp [fsysOpen, mode, eNoent] at success
    | some n =>
      rcases findfreefd_slot inv with ⟨none', _⟩ | ⟨i, bound, free, empty, lower⟩
      · simp [fsysOpen, mode, none', eNfile] at success
      · have real : ¬ (i : Int) = -1 := by omega
        by_cases refused : n.fops.any ops.hasOpen ∧ opened < 0
        · simp only [fsysOpen, if_neg mode, free, if_neg real, if_pos refused] at success
          omega
        · simp only [fsysOpen, if_neg mode, free, if_neg real, if_neg refused]
          refine ⟨by simp [slot, bound, empty], ?_, by simp [slot, setSlot, setFile, bound]⟩
          intro j low high
          have less : j.toNat < i := by omega
          obtain ⟨f, full⟩ := Option.ne_none_iff_exists'.mp (lower j.toNat less)
          refine ⟨f, ?_⟩
          rw [slot, if_pos low, List.getElem?_eq_getElem (by omega), full]

end Steps

theorem start_inv (file : Nat → File) : Inv (start file) := by
  refine ⟨rfl, ?_, ?_, ?_, List.nodup_nil⟩
  all_goals simp [start, nofile]

theorem reach_inv {ops : Fops} {file : Nat → File} {s : State}
    (reach : Reach (machine ops) (start file) s) : Inv s := by
  refine reach_invariant Inv (start_inv file) ?_ reach
  intro s r t inv ok stepped
  obtain ⟨u, ret, ran, inv', _⟩ := request_step ops inv ok
  have same : u = t := by
    simpa [machine, ran] using stepped
  exact same ▸ inv'

/-- In every reachable state the slots point at live files, each counted once per
    slot, and the next call frees exactly the files whose last slot it clears, at most
    one, with one `close` and one `iput`; `open` returns the lowest empty slot. -/
theorem open_files_counted (ops : Fops) (file : Nat → File) (s : State)
    (reach : Reach (machine ops) (start file) s) :
    (∀ f, some f ∈ s.ofile ↔ f ∈ s.alive) ∧
    (∀ f ∈ s.alive, (s.file f).refcont = s.ofile.count (some f)) ∧
    ∀ r, Legal s r → ∃ t ret, call ops s r = some (t, ret) ∧
      (∀ f ∈ s.alive, f ∉ t.alive ↔ some f ∉ t.ofile) ∧
      ((freed s t = [] ∧ t.log = s.log ++ abandoned ops s r) ∨
        ∃ f i, freed s t = [f] ∧ (s.file f).inode = some i ∧
          t.log = s.log ++ (if (s.file f).fops.any ops.hasClose then [.close f] else []) ++
            [.iput i, .free f]) ∧
      ∀ flags n new opened, r = .openPath flags (some n) new opened → flags &&& 3 ≠ 3 →
        ¬ (n.fops.any ops.hasOpen ∧ opened < 0) →
        (none ∉ s.ofile ∧ ret = eNfile) ∨
          (0 ≤ ret ∧ slot s ret = some none ∧ slot t ret = some (some new) ∧
            ∀ i, 0 ≤ i → i < ret → ∃ f, slot s i = some (some f)) := by
  have inv := reach_inv reach
  refine ⟨inv.slots, inv.counts, ?_⟩
  intro r ok
  obtain ⟨t, ret, ran, inv', ended⟩ := request_step ops inv ok
  refine ⟨t, ret, ran, fun f _ => not_congr (inv'.slots f).symm, ended, ?_⟩
  rintro flags n new opened rfl mode accepted
  simp only [call, Option.some.injEq] at ran
  rcases findfreefd_slot inv with ⟨none', full⟩ | ⟨i, bound, free, empty, _⟩
  · left
    refine ⟨full, ?_⟩
    simpa [fsysOpen, mode, none'] using (congrArg Prod.snd ran).symm
  · right
    have real : ¬ (i : Int) = -1 := by omega
    have result : (fsysOpen ops s flags (some n) new opened).2 = i := by
      simp only [fsysOpen, if_neg mode, free, if_neg real, if_neg accepted]
    have lowest := fsysOpen_lowest ops inv flags new (some n) opened (by omega)
    rw [ran] at lowest result
    simp only at lowest result
    exact ⟨by omega, lowest.1, lowest.2.2, lowest.2.1⟩

theorem open_files_counted_last_close : ∃ s t ret, s.ofile = [none, some 16, none, none, none] ∧
    call ⟨fun _ => false, fun _ => true⟩ s (.close 1) = some (t, ret) ∧
    t.log = s.log ++ [.close 16, .iput 7, .free 16] := by
  let ops : Fops := ⟨fun _ => false, fun _ => true⟩
  let blank : Nat → File := fun _ => ⟨none, 0, 0, 0, 0, none⟩
  let request : Request := .openPath 0 (some ⟨7, some 1, 0⟩) 16 0
  let opened : State := (fsysOpen ops (start blank) 0 (some ⟨7, some 1, 0⟩) 16 0).1
  have ran : ((call ops opened (.dup 0)).bind fun r => call ops r.1 (.close 0)).map
      (fun r => (r.1.ofile, r.1.alive, (r.1.file 16).inode, (r.1.file 16).fops)) =
        some ([none, some 16, none, none, none], [16], some 7, some 1) := by
    decide +kernel
  have closes : (((call ops opened (.dup 0)).bind fun r => call ops r.1 (.close 0)).bind
      fun r => call ops r.1 (.close 1)).map (fun r => r.1.alive) = some [] := by
    decide +kernel
  obtain ⟨⟨s, ret⟩, closed, shape⟩ := Option.map_eq_some_iff.mp ran
  rw [closed] at closes
  obtain ⟨⟨d, ret'⟩, dup, close⟩ := Option.bind_eq_some_iff.mp closed
  simp only [Prod.mk.injEq] at shape
  obtain ⟨slots, alive, inode, fops⟩ := shape
  have first : InTable 0 := by simp [InTable, nofile]
  have run : Run (machine ops) (start blank) [request, .dup 0, .close 0] s := by
    refine Run.cons (t := opened) (show Legal (start blank) request from ?_) rfl ?_
    · simp [request, Legal, start]
    · refine Run.cons (t := d) (show Legal opened (.dup 0) from first) ?_ ?_
      · simp [machine, dup]
      · refine Run.cons (t := s) (show Legal d (.close 0) from first) ?_ (Run.nil s)
        simpa [machine] using ⟨ret, close⟩
  obtain ⟨_, _, next⟩ := open_files_counted ops blank s ⟨_, run⟩
  obtain ⟨t, ret'', ran', _, log, _⟩ := next (.close 1) (by simp [Legal, InTable, nofile])
  refine ⟨s, t, ret'', slots, ran', ?_⟩
  simp only [Option.bind_some, ran', Option.map_some, Option.some.injEq] at closes
  have gone : freed s t = [16] := by simp [freed, alive, closes]
  simpa [gone, inode, fops, ops] using log

end FileTable
