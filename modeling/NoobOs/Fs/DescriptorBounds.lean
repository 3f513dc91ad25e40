import NoobOs.Fs.FileCalls

/-!
Where the system calls index `u_ofile`. Most of them compare the signed descriptor with
`NOFILE` only from above, `check_fd` lets `NOFILE` itself pass, `fsys_getdents` looks at the
count first, and `fsys_dup` and `fsys_dup2` ignore what `check_fd` says of the new one.
-/
namespace FileCalls
open FileTable

inductive Call where
  | read (fd : Int) (count : Nat)
  | write (fd : Int) (count : Nat)
  | close (fd : Int)
  | fstat (fd : Int)
  | ioctl (fd : Int) (arg : Bool)
  | getdents (fd : Int) (count : Nat)
  | dup (oldfd : Int)
  | dup2 (oldfd newfd : Int)

def run (k : Kernel) (s : State) : Call → Except Fault (State × Int)
  | .read fd count => fsysRead k s fd count
  | .write fd count => fsysWrite k s fd count
  | .close fd => inside (fsysClose (hooks k) s fd)
  | .fstat fd => (fsysFstat k s fd).map fun r => (s, r.2)
  | .ioctl fd arg => fsysIoctl k s fd arg
  | .getdents fd count => fsysGetdents k s fd count
  | .dup oldfd => inside (fsysDup (hooks k) s oldfd)
  | .dup2 oldfd newfd => inside (fsysDup2 (hooks k) s oldfd newfd)

def Call.fds : Call → List Int
  | .read fd _ | .write fd _ | .close fd | .fstat fd | .ioctl fd _ | .getdents fd _ | .dup fd =>
    [fd]
  | .dup2 oldfd newfd => [oldfd, newfd]

def Bounded (k : Kernel) (s : State) (c : Call) : Prop :=
  run k s c ≠ .error .outside ∧ ((∃ fd ∈ c.fds, ¬ InTable fd) → run k s c = .ok (s, eBadf))

def Open (s : State) (fd : Int) : Prop :=
  ∃ f, slot s fd = some (some f) ∧ (s.file f).flags &&& fUsed ≠ 0 ∧ (s.file f).inode ≠ none

def Checked (s : State) : Call → Prop
  | .read fd _ | .write fd _ | .close fd | .fstat fd | .ioctl fd _ => 0 ≤ fd
  | .getdents fd count => InTable fd ∨ (count ≠ 0 ∧ nofile < fd)
  | .dup oldfd => InTable oldfd
  | .dup2 oldfd newfd => nofile < oldfd ∨ (InTable oldfd ∧ (InTable newfd ∨ ¬ Open s oldfd))

section Slots
variable {k : Kernel} {s t : State} {fd : Int}

theorem slot_inside (size : s.ofile.length = nofile) (inside : InTable fd) :
    ∃ o, slot s fd = some o := by
  have bound : fd.toNat < s.ofile.length := by
    simp only [InTable] at inside
    omega
  exact ⟨s.ofile[fd.toNat], by rw [slot, if_pos inside.1, List.getElem?_eq_getElem bound]⟩

theorem slot_outside (size : s.ofile.length = nofile) (outside : ¬ InTable fd) :
    slot s fd = none := by
  unfold slot
  split
  next positive =>
    apply List.getElem?_eq_none
    simp only [InTable, not_and, Int.not_lt] at outside
    have := outside positive
    omega
  next => rfl

theorem not_inTable_of_le (above : (nofile : Int) ≤ fd) : ¬ InTable fd := by
  simp only [InTable]
  omega

theorem inTable_of_lt (positive : 0 ≤ fd) (below : ¬ (nofile : Int) ≤ fd) : InTable fd :=
  ⟨positive, by omega⟩

theorem bounded_of_guard {c : Call} (size : s.ofile.length = nofile) (only : c.fds = [fd])
    (above : (nofile : Int) ≤ fd → run k s c = .ok (s, eBadf))
    (held : ¬ (nofile : Int) ≤ fd → ∀ o, slot s fd = some o → run k s c ≠ .error .outside)
    (missed : ¬ (nofile : Int) ≤ fd → slot s fd = none →
      run k s c = .error .outside ∨ ∃ code, code ≠ eBadf ∧ run k s c = .ok (s, code)) :
    Bounded k s c ↔ 0 ≤ fd := by
  unfold Bounded
  rw [only]
  constructor
  · rintro ⟨safe, refused⟩
    by_contra below
    have out : ¬ InTable fd := fun member => below member.1
    have code := refused ⟨fd, List.mem_singleton_self fd, out⟩
    have low : ¬ (nofile : Int) ≤ fd := by
      simp only [nofile]
      omega
    rcases missed low (slot_outside size out) with outside | ⟨other, different, ran⟩
    · exact safe outside
    · rw [ran] at code
      simp only [Except.ok.injEq, Prod.mk.injEq, true_and] at code
      exact different code
  · intro positive
    by_cases high : (nofile : Int) ≤ fd
    · have ran := above high
      exact ⟨by simp [ran], fun _ => ran⟩
    · obtain ⟨o, here⟩ := slot_inside size (inTable_of_lt positive high)
      refine ⟨held high o here, ?_⟩
      rintro ⟨fd', member, out⟩
      rw [List.mem_singleton] at member
      exact absurd (inTable_of_lt positive high) (member ▸ out)

theorem fsysClose_returns (ops : Fops) (below : ¬ (nofile : Int) ≤ fd) {o : Option Nat}
    (held : slot s fd = some o) :
    ∃ r, fsysClose ops s fd = some r ∧ r.1.ofile.length = s.ofile.length := by
  unfold fsysClose
  rw [if_neg below, held]
  cases o with
  | none => exact ⟨(s, eBadf), rfl, rfl⟩
  | some f =>
    have flagged : ¬ (s.file f).flags ||| fUsed = 0 := by simp [fUsed]
    simp only [Option.bind_eq_bind, Option.bind_some, if_neg flagged]
    split
    · exact ⟨_, rfl, by simp [setFile, setSlot]⟩
    · exact ⟨_, rfl, by simp [setFile, setSlot]⟩

end Slots

/-! ## The calls that go through a table -/

section Tables
variable (k : Kernel) (s : State) (n : InodeCache.Inode)

theorem callDev_inside (p : Option Fn) : callDev k s p ≠ .error .outside := by
  cases p <;> simp [callDev]

theorem viaDevice_inside (missing : Int) (op : DevOps → Option Fn) :
    viaDevice k s n missing op ≠ .error .outside := by
  unfold viaDevice
  split
  · simp
  · split
    · simp
    · exact callDev_inside k s _

theorem writeDevfs_inside : writeDevfs k s n ≠ .error .outside := by
  unfold writeDevfs
  split
  · simp
  · split
    · simp
    · exact callDev_inside k s _

theorem callPtr_inside (p : Option Fn) : callPtr k s n p ≠ .error .outside := by
  unfold callPtr
  split
  · simp
  · exact viaDevice_inside k s n _ _
  · exact writeDevfs_inside k s n
  · exact viaDevice_inside k s n _ _
  · exact viaDevice_inside k s n _ _
  · exact viaDevice_inside k s n _ _
  · simp

theorem guarded_inside (fops : Option Nat) (op : FileOps → Option Fn) :
    guarded k s n fops op ≠ .error .outside := by
  unfold guarded
  split
  · simp
  · split
    · simp
    · exact callPtr_inside k s n _

end Tables

section Calls
variable {k : Kernel} {s : State}

theorem transfer_bounded (size : s.ofile.length = nofile) {refused mask : Nat}
    {op : Option Nat → State → InodeCache.Inode → Except Fault (State × Int)}
    (safe : ∀ fops n, op fops s n ≠ .error .outside) {c : Call} {fd : Int} {count : Nat}
    (only : c.fds = [fd])
    (ran : run k s c = transfer k s refused mask op fd count) : Bounded k s c ↔ 0 ≤ fd := by
  apply bounded_of_guard size only
  · intro above
    rw [ran, transfer, if_pos above]
  · intro below o here
    rw [ran]
    apply transfer_cases (P := (· ≠ .error .outside))
    · simp
    · simp [here]
    · simp
    · exact fun f a _ _ => safe _ _
  · intro below missed
    rw [ran, transfer, if_neg below, missed]
    split
    · exact Or.inr ⟨0, by decide, rfl⟩
    · exact Or.inl rfl

theorem close_bounded (size : s.ofile.length = nofile) (fd : Int) :
    Bounded k s (.close fd) ↔ 0 ≤ fd := by
  apply bounded_of_guard size rfl
  · intro above
    simp [run, fsysClose, above, inside]
  · intro below o here
    obtain ⟨r, closed, -⟩ := fsysClose_returns (hooks k) below here
    simp [run, closed, inside]
  · intro below missed
    left
    simp [run, fsysClose, below, missed, inside]

theorem fstat_bounded (size : s.ofile.length = nofile) (fd : Int) :
    Bounded k s (.fstat fd) ↔ 0 ≤ fd := by
  apply bounded_of_guard size rfl
  · intro above
    simp [run, fsysFstat, above, Except.map]
  · intro below o here
    simp only [run, fsysFstat, if_neg below, here]
    cases file : opened k s o with
    | error code => simp [inside, file, bind, Except.bind, pure, Except.pure, Except.map]
    | ok f => simp [inside, file, bind, Except.bind, pure, Except.pure, Except.map]
  · intro below missed
    left
    simp only [run, fsysFstat, if_neg below, missed]
    rfl

theorem ioctl_bounded (size : s.ofile.length = nofile) (fd : Int) (arg : Bool) :
    Bounded k s (.ioctl fd arg) ↔ 0 ≤ fd := by
  apply bounded_of_guard size rfl
  · intro above
    simp [run, fsysIoctl, above]
  · intro below o here
    apply fsysIoctl_cases (P := (· ≠ .error .outside))
    · simp
    · simp [here]
    · exact fun f a _ _ => guarded_inside k s _ _ _
  · intro below missed
    simp only [run, fsysIoctl, if_neg below, missed]
    split
    · exact Or.inr ⟨eFault, by decide, rfl⟩
    · exact Or.inl rfl

theorem checkFd_above {fd : Int} (above : (nofile : Int) < fd) :
    checkFd s fd = some (eBadf, none) := by
  rw [checkFd, if_pos above]

theorem checkFd_missed (size : s.ofile.length = nofile) {fd : Int} (below : fd ≤ nofile)
    (outside : ¬ InTable fd) :
    checkFd s fd = none := by
  rw [checkFd, if_neg (by omega), slot_outside size outside]
  rfl

theorem checkFd_inside (size : s.ofile.length = nofile) {fd : Int} (within : InTable fd) :
    (¬ Open s fd ∧ checkFd s fd = some (eBadf, none)) ∨
      ∃ f, Open s fd ∧ checkFd s fd = some (0, some f) := by
  obtain ⟨o, here⟩ := slot_inside size within
  have below : ¬ (nofile : Int) < fd := by
    have := within.2
    omega
  unfold checkFd Open
  rw [if_neg below, here]
  cases o with
  | none => exact Or.inl ⟨by simp, rfl⟩
  | some f =>
    simp only [Option.bind_eq_bind, Option.bind_some, Option.pure_def, Option.some.injEq]
    by_cases unused : (s.file f).flags &&& fUsed = 0
    · left
      rw [if_pos unused]
      refine ⟨?_, rfl⟩
      rintro ⟨g, rfl, used, -⟩
      exact used unused
    · rw [if_neg unused]
      by_cases bare : (s.file f).inode = none
      · left
        rw [if_pos bare]
        refine ⟨?_, rfl⟩
        rintro ⟨g, rfl, -, inode⟩
        exact inode bare
      · right
        rw [if_neg bare]
        exact ⟨f, ⟨f, rfl, unused, bare⟩, rfl⟩

theorem getdents_bounded (size : s.ofile.length = nofile) (fd : Int) (count : Nat) :
    Bounded k s (.getdents fd count) ↔ InTable fd ∨ (count ≠ 0 ∧ (nofile : Int) < fd) := by
  by_cases within : InTable fd
  · refine iff_of_true ⟨?_, ?_⟩ (Or.inl within)
    · obtain ⟨o, here⟩ := slot_inside size within
      apply fsysGetdents_cases (P := (· ≠ .error .outside))
      · simp
      · simp [here]
      · simp
      · exact fun f a _ _ => guarded_inside k s _ _ _
    · rintro ⟨fd', member, out⟩
      rw [Call.fds, List.mem_singleton] at member
      exact absurd within (member ▸ out)
  · have refused : (∃ fd' ∈ (Call.getdents fd count).fds, ¬ InTable fd') :=
      ⟨fd, by simp [Call.fds], within⟩
    unfold Bounded
    by_cases zero : count = 0
    · have ran : run k s (.getdents fd count) = .ok (s, 0) := by simp [run, fsysGetdents, zero]
      refine iff_of_false ?_ ?_
      · rintro ⟨-, code⟩
        have same := code refused
        rw [ran] at same
        simp [eBadf] at same
      · rintro (member | ⟨nonzero, -⟩)
        · exact within member
        · exact nonzero zero
    · by_cases above : (nofile : Int) < fd
      · have ran : run k s (.getdents fd count) = .ok (s, eBadf) := by
          simp [run, fsysGetdents, zero, checkFd_above above, inside, bind, Except.bind, pure,
            Except.pure, eBadf]
        exact iff_of_true ⟨by simp [ran], fun _ => ran⟩ (Or.inr ⟨zero, above⟩)
      · have ran : run k s (.getdents fd count) = .error .outside := by
          simp [run, fsysGetdents, zero, checkFd_missed size (by omega) within, inside,
            bind, Except.bind]
        refine iff_of_false (fun bounded => bounded.1 ran) ?_
        rintro (member | ⟨-, high⟩)
        · exact within member
        · exact above high

theorem storeSlot_missed {fd : Int} (missed : slot s fd = none) (g : Nat) (w : File)
    (o : Option Nat) :
    storeSlot (setFile s g w) fd o = none := by
  have same : slot (setFile s g w) fd = slot s fd := rfl
  simp [storeSlot, same, missed]

theorem dup2_returns (ops : Fops) (size : s.ofile.length = nofile) {oldfd newfd : Int} {f : Nat}
    (held : checkFd s oldfd = some (0, some f)) (within : InTable newfd) :
    ∃ t, fsysDup2 ops s oldfd newfd = some (t, newfd) := by
  obtain ⟨o, here⟩ := slot_inside size within
  rcases checkFd_inside size within with ⟨_, checked⟩ | ⟨g, _, checked⟩
  · refine ⟨share s f newfd, ?_⟩
    simp only [fsysDup2, held, checked, storeSlot_held here, Option.bind_eq_bind, Option.bind_some,
      Option.pure_def,
      share]
  · have below : ¬ (nofile : Int) ≤ newfd := fun above => not_inTable_of_le above within
    obtain ⟨⟨t, r⟩, closed, length⟩ := fsysClose_returns ops below here
    obtain ⟨o', here'⟩ := slot_inside (length.trans size) within
    refine ⟨share t f newfd, ?_⟩
    simp only [fsysDup2, held, checked, closed, Option.map_some, storeSlot_held here',
      Option.bind_eq_bind,
      Option.bind_some, Option.pure_def, share]

theorem dup2_bounded (size : s.ofile.length = nofile) (oldfd newfd : Int) :
    Bounded k s (.dup2 oldfd newfd) ↔
      (nofile : Int) < oldfd ∨ (InTable oldfd ∧ (InTable newfd ∨ ¬ Open s oldfd)) := by
  unfold Bounded
  by_cases above : (nofile : Int) < oldfd
  · have ran : run k s (.dup2 oldfd newfd) = .ok (s, eBadf) := by
      simp [run, fsysDup2, checkFd_above above, inside]
    exact iff_of_true ⟨by simp [ran], fun _ => ran⟩ (Or.inl above)
  by_cases within : InTable oldfd
  · rcases checkFd_inside size within with ⟨closed, checked⟩ | ⟨f, opened, checked⟩
    · have ran : run k s (.dup2 oldfd newfd) = .ok (s, eBadf) := by
        simp [run, fsysDup2, checked, inside]
      exact iff_of_true ⟨by simp [ran], fun _ => ran⟩ (Or.inr ⟨within, Or.inr closed⟩)
    · by_cases within' : InTable newfd
      · obtain ⟨t, returned⟩ := dup2_returns (hooks k) size checked within'
        refine iff_of_true ⟨by simp [run, returned, inside], ?_⟩ (Or.inr ⟨within, Or.inl within'⟩)
        rintro ⟨fd, member, out⟩
        simp only [Call.fds, List.mem_cons, List.not_mem_nil, or_false] at member
        rcases member with rfl | rfl
        · exact absurd within out
        · exact absurd within' out
      · -- the new descriptor is never compared with the size of the table
        have ran : run k s (.dup2 oldfd newfd) = .error .outside := by
          by_cases above' : (nofile : Int) < newfd
          · simp [run, fsysDup2, checked, checkFd_above above',
              storeSlot_missed (slot_outside size within'), inside]
          · simp [run, fsysDup2, checked, checkFd_missed size (by omega) within', inside]
        refine iff_of_false (fun bounded => bounded.1 ran) ?_
        rintro (high | ⟨-, member | closed⟩)
        · exact above high
        · exact within' member
        · exact closed opened
  · have ran : run k s (.dup2 oldfd newfd) = .error .outside := by
      simp [run, fsysDup2, checkFd_missed size (by omega) within, inside]
    refine iff_of_false (fun bounded => bounded.1 ran) ?_
    rintro (high | ⟨member, -⟩)
    · exact above high
    · exact within member

theorem dup_bounded (size : s.ofile.length = nofile) (oldfd : Int) :
    Bounded k s (.dup oldfd) ↔ InTable oldfd := by
  unfold Bounded
  by_cases within : InTable oldfd
  · refine iff_of_true ⟨?_, ?_⟩ within
    · rcases findfreefd_inTable size with full | free
      · simp [run, fsysDup, full, inside]
      · have real : findfreefd s ≠ -1 := by
          have := free.1
          omega
        rcases checkFd_inside size within with ⟨_, checked⟩ | ⟨f, _, checked⟩
        · simp [run, fsysDup, fsysDup2, real, checked, inside]
        · obtain ⟨t, returned⟩ := dup2_returns (hooks k) size checked free
          simp [run, fsysDup, real, returned, inside]
    · rintro ⟨fd, member, out⟩
      rw [Call.fds, List.mem_singleton] at member
      exact absurd within (member ▸ out)
  · refine iff_of_false ?_ within
    rintro ⟨safe, refused⟩
    have code := refused ⟨oldfd, by simp [Call.fds], within⟩
    rcases findfreefd_inTable size with full | free
    · simp [run, fsysDup, full, inside, eNfile, eBadf] at code
    · have real : findfreefd s ≠ -1 := by
        have := free.1
        omega
      by_cases above : (nofile : Int) < oldfd
      · -- the error of `fsys_dup2` is dropped
        simp only [run, fsysDup, if_neg real, fsysDup2, checkFd_above above, inside,
          Option.bind_eq_bind,
          Option.bind_some, Option.pure_def, Except.ok.injEq, Prod.mk.injEq, true_and] at code
        have := free.1
        simp only [eBadf] at code
        omega
      · apply safe
        simp [run, fsysDup, real, fsysDup2, checkFd_missed size (by omega) within, inside]

end Calls

/-- For every state of the table, a call indexes only inside it and answers a descriptor
    outside it with `-EBADF` exactly when the checks it makes are enough. -/
theorem descriptor_bounds_iff_checked (k : Kernel) (s : State)
    (size : s.ofile.length = nofile) (c : Call) :
    Bounded k s c ↔ Checked s c := by
  cases c with
  | read fd count =>
    have ran : run k s (.read fd count) =
      transfer k s 1 sIroth (fun fops s n => readFs k s n fops) fd count := rfl
    exact transfer_bounded size (fun fops n => guarded_inside k s n fops _) rfl ran
  | write fd count =>
    have ran : run k s (.write fd count) =
      transfer k s 0 sIwoth (fun fops s n => writeFs k s n fops) fd count := rfl
    exact transfer_bounded size (fun fops n => guarded_inside k s n fops _) rfl ran
  | close fd => exact close_bounded size fd
  | fstat fd => exact fstat_bounded size fd
  | ioctl fd arg => exact ioctl_bounded size fd arg
  | getdents fd count => exact getdents_bounded size fd count
  | dup oldfd => exact dup_bounded size oldfd
  | dup2 oldfd newfd => exact dup2_bounded size oldfd newfd

def bareKernel : Kernel where
  iops _ := ⟨none, none, none⟩
  fops _ := ⟨none, none, none, none, none, none⟩
  inode _ := InodeCache.Inode.zero
  chrdevTab _ _ := none
  blkdev _ := none
  cred := ⟨0, 0⟩
  sDev _ := 0
  perform _ s := (s, 0)

def oneOpen : State :=
  ⟨fun _ => ⟨some 16, 0, 0, 1, fUsed, none⟩, [some 32, none, none, none, none], [32], []⟩

theorem descriptor_bounds_of_one_open : Bounded bareKernel oneOpen (.dup2 0 4) ∧
    Bounded bareKernel oneOpen (.read 7 1) :=
  ⟨(descriptor_bounds_iff_checked bareKernel oneOpen rfl (.dup2 0 4)).mpr
      (Or.inr ⟨⟨by decide, by decide⟩, Or.inl ⟨by decide, by decide⟩⟩),
    (descriptor_bounds_iff_checked bareKernel oneOpen rfl (.read 7 1)).mpr
    (show (0 : Int) ≤ 7 by decide)⟩

/-- The descriptor -1 is looked up by `fsys_read`, `NOFILE` by `fsys_getdents`; `fsys_dup2`
    stores to the slot 9, and `fsys_dup` of 9 returns the descriptor 1. -/
theorem descriptors_leave_table :
    run bareKernel oneOpen (.read (-1) 1) = .error .outside ∧
      run bareKernel oneOpen (.getdents 5 1) = .error .outside ∧
      run bareKernel oneOpen (.dup2 0 9) = .error .outside ∧
      run bareKernel oneOpen (.dup 9) = .ok (oneOpen, 1) ∧
      ¬ ∀ c, Bounded bareKernel oneOpen c := by
  refine ⟨rfl, rfl, rfl, rfl, ?_⟩
  intro bounded
  exact (bounded (.read (-1) 1)).1 rfl

end FileCalls
