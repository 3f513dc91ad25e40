import NoobOs.Fs.FileTable

/-!
What `fsys_dup` and `fsys_dup2` promise, and when `vfs.c` keeps it. `fsys_dup2` closes
`newfd` before it takes its share of the file, so a file whose only slot is `newfd`
itself is freed on the way; `fsys_dup` drops the error of `fsys_dup2`.
-/
namespace FileTable

structure Table (s : State) : Prop where
  size : s.ofile.length = nofile
  small : ∀ f, (s.file f).refcont < 2 ^ 32
  distinct : s.alive.Nodup

structure Open (s : State) (fd : Int) (f : Nat) : Prop where
  held : slot s fd = some (some f)
  flagged : (s.file f).flags &&& fUsed ≠ 0
  inode : (s.file f).inode ≠ none

structure Lowest (s : State) (fd : Int) : Prop where
  inside : InTable fd
  free : (slot s fd).any (inUse s) = false
  lower : ∀ i, 0 ≤ i → i < fd → (slot s i).any (inUse s) = true

structure Shares (s t : State) (oldfd newfd : Int) (f : Nat) : Prop where
  old : slot t oldfd = some (some f)
  new : slot t newfd = some (some f)
  live : f ∈ t.alive
  others : ∀ fd, fd ≠ newfd → slot t fd = slot s fd

structure DupContract (ops : Fops) (s : State) (oldfd newfd : Int) : Prop where
  shares : ∀ f, Open s oldfd f → ∃ t, fsysDup2 ops s oldfd newfd = some (t, newfd) ∧
    Shares s t oldfd newfd f ∧ (oldfd = newfd → t = s)
  refuses : (∀ f, ¬ Open s oldfd f) →
    fsysDup2 ops s oldfd newfd = some (s, eBadf) ∧ fsysDup ops s oldfd = some (s, eBadf)
  lowest : ∀ f fd, Open s oldfd f → Lowest s fd →
    ∃ t, fsysDup ops s oldfd = some (t, fd) ∧ Shares s t oldfd fd f

section Calls
variable {ops : Fops} {s : State} {fd oldfd newfd : Int} {f g : Nat}

theorem Open.unique (here : Open s fd f) (there : Open s fd g) : f = g := by
  have same := here.held.symm.trans there.held
  simpa using same

theorem slot_setSlot {o : Option Nat} (size : s.ofile.length = nofile) (inside : InTable newfd) :
    slot (setSlot s newfd o) fd = if fd = newfd then some o else slot s fd := by
  obtain ⟨low, high⟩ := inside
  have bound : newfd.toNat < s.ofile.length := by omega
  simp only [slot, setSlot]
  by_cases same : fd = newfd
  · rw [if_pos same, same, if_pos low, List.getElem?_set_self bound]
  · rw [if_neg same]
    by_cases signed : 0 ≤ fd
    · have apart : newfd.toNat ≠ fd.toNat := by omega
      rw [if_pos signed, if_pos signed, List.getElem?_set_ne apart]
    · rw [if_neg signed, if_neg signed]

theorem checkFd_open (table : Table s) (inside : InTable fd) :
    (∃ f, Open s fd f ∧ checkFd s fd = some (0, some f)) ∨
    ((∀ f, ¬ Open s fd f) ∧ checkFd s fd = some (eBadf, none)) := by
  obtain ⟨low, high⟩ := inside
  have bound : fd.toNat < s.ofile.length := by
    have := table.size
    omega
  have range : ¬ (nofile : Int) < fd := by omega
  have here : slot s fd = some s.ofile[fd.toNat] := by
    rw [slot, if_pos low, List.getElem?_eq_getElem bound]
  cases content : s.ofile[fd.toNat] with
  | none =>
    rw [content] at here
    refine Or.inr ⟨fun f opened => ?_, by simp [checkFd, range, here]⟩
    simpa [here] using opened.held
  | some f =>
    rw [content] at here
    by_cases usable : (s.file f).flags &&& fUsed ≠ 0 ∧ (s.file f).inode ≠ none
    · exact Or.inl ⟨f, ⟨here, usable.1, usable.2⟩, by simp [checkFd, range, here, usable]⟩
    · refine Or.inr ⟨?_, ?_⟩
      · intro g opened
        have same : f = g := by simpa [here] using opened.held
        exact usable (same ▸ ⟨opened.flagged, opened.inode⟩)
      · by_cases flagged : (s.file f).flags &&& fUsed = 0
        · simp [checkFd, range, here, flagged]
        · have empty : (s.file f).inode = none := by
            by_contra node
            exact usable ⟨flagged, node⟩
          simp [checkFd, range, here, flagged, empty]

/-- What closing the slot of `g` leaves: `g` itself is freed if it was counted once. -/
def dropped (ops : Fops) (s : State) (fd : Int) (g : Nat) : State :=
  let t := setFile (setSlot s fd none) g { s.file g with refcont := decrement (s.file g).refcont }
  if decrement (s.file g).refcont = 0 then
    { t with alive := s.alive.erase g, log := s.log ++ release ops t g }
  else t

theorem fsysClose_held (inside : InTable fd) (held : slot s fd = some (some g)) :
    fsysClose ops s fd = some (dropped ops s fd g, 0) := by
  have range : ¬ (nofile : Int) ≤ fd := by
    have := inside.2
    omega
  have flagged : ¬ (s.file g).flags ||| fUsed = 0 := by simp [fUsed]
  simp only [fsysClose, if_neg range, held, Option.bind_eq_bind, Option.bind_some, if_neg flagged,
    setFile, setSlot, Function.update_self, Option.pure_def, dropped]
  by_cases last : decrement (s.file g).refcont = 0
  · rw [if_pos last, if_pos last]
  · rw [if_neg last, if_neg last]

theorem decrement_eq_zero {n : Nat} (small : n < 2 ^ 32) : decrement n = 0 ↔ n = 1 := by
  unfold decrement
  omega

theorem dropped_slots : (dropped ops s fd g).ofile = s.ofile.set fd.toNat none := by
  by_cases last : decrement (s.file g).refcont = 0
  · simp only [dropped, if_pos last, setFile, setSlot]
  · simp only [dropped, if_neg last, setFile, setSlot]

theorem alive_of_dropped (live : f ∈ (dropped ops s fd g).alive) : f ∈ s.alive := by
  by_cases last : decrement (s.file g).refcont = 0
  · simp only [dropped, if_pos last] at live
    exact List.mem_of_mem_erase live
  · simpa only [dropped, if_neg last, setFile, setSlot] using live

theorem dropped_alive (table : Table s) (member : f ∈ s.alive) :
    f ∈ (dropped ops s fd g).alive ↔ ¬ (g = f ∧ (s.file f).refcont = 1) := by
  have zero := decrement_eq_zero (table.small g)
  unfold dropped
  by_cases last : (s.file g).refcont = 1
  · simp only [zero, if_pos last, table.distinct.mem_erase_iff]
    constructor
    · rintro ⟨other, _⟩ ⟨same, _⟩
      exact other same.symm
    · intro other
      refine ⟨fun same => other ⟨same.symm, same ▸ last⟩, member⟩
  · simp only [zero, if_neg last]
    refine iff_of_true member ?_
    rintro ⟨rfl, once⟩
    exact last once

theorem fsysDup2_open (ops : Fops) (table : Table s) (inOld : InTable oldfd) (inNew : InTable newfd)
    (opened : Open s oldfd f) :
    (∃ g, Open s newfd g ∧
      fsysDup2 ops s oldfd newfd = some (share (dropped ops s newfd g) f newfd, newfd)) ∨
    ((∀ g, ¬ Open s newfd g) ∧ fsysDup2 ops s oldfd newfd = some (share s f newfd, newfd)) := by
  rcases checkFd_open table inOld with ⟨f', opened', checked⟩ | ⟨none', _⟩
  · obtain rfl := opened.unique opened'
    have size : newfd.toNat < s.ofile.length := by
      have := table.size
      have := inNew.2
      have := inNew.1
      omega
    rcases checkFd_open table inNew with ⟨g, taken, checked'⟩ | ⟨free, checked'⟩
    · refine Or.inl ⟨g, taken, ?_⟩
      have empty : slot (dropped ops s newfd g) newfd = some none := by
        rw [slot, if_pos inNew.1, dropped_slots, List.getElem?_set_self size]
      simp only [fsysDup2, checked, checked', fsysClose_held inNew taken.held, storeSlot_held empty,
        Option.map_some, Option.bind_eq_bind, Option.bind_some, Option.pure_def, share]
    · refine Or.inr ⟨free, ?_⟩
      have here : slot s newfd = some s.ofile[newfd.toNat] := by
        rw [slot, if_pos inNew.1, List.getElem?_eq_getElem size]
      simp only [fsysDup2, checked, checked', storeSlot_held here, Option.bind_eq_bind,
        Option.bind_some,
        Option.pure_def, share]
  · exact absurd opened (none' f)

theorem slot_share (size : s.ofile.length = nofile) (inside : InTable newfd) :
    slot (share s f newfd) fd = if fd = newfd then some (some f) else slot s fd :=
  slot_setSlot (s := setFile s f _) size inside

theorem slot_dropped_other (size : s.ofile.length = nofile) (inside : InTable newfd)
    (other : fd ≠ newfd) :
    slot (dropped ops s newfd g) fd = slot s fd := by
  have cleared : slot (setSlot s newfd none) fd = slot s fd := by
    rw [slot_setSlot size inside, if_neg other]
  rw [← cleared, slot, slot, dropped_slots]
  rfl

theorem share_shares {t : State} (size : t.ofile.length = nofile) (inNew : InTable newfd)
    (held : slot s oldfd = some (some f)) (same : ∀ fd, fd ≠ newfd → slot t fd = slot s fd) :
    Shares s (share t f newfd) oldfd newfd f ↔ f ∈ t.alive := by
  constructor
  · exact fun shares => shares.live
  · intro member
    refine ⟨?_, ?_, member, ?_⟩
    · rw [slot_share size inNew]
      by_cases new : oldfd = newfd
      · rw [if_pos new]
      · rw [if_neg new, same oldfd new, held]
    · rw [slot_share size inNew, if_pos rfl]
    · intro fd other
      rw [slot_share size inNew, if_neg other, same fd other]

theorem share_dropped_self (table : Table s) (inside : InTable fd)
    (held : slot s fd = some (some f))
    (more : (s.file f).refcont ≠ 1) : share (dropped ops s fd f) f fd = s := by
  have last : ¬ decrement (s.file f).refcont = 0 := by rwa [decrement_eq_zero (table.small f)]
  have back : (decrement (s.file f).refcont + 1) % 2 ^ 32 = (s.file f).refcont := by
    have := table.small f
    unfold decrement
    omega
  have slots : (s.ofile.set fd.toNat none).set fd.toNat (some f) = s.ofile := by
    rw [slot, if_pos inside.1] at held
    obtain ⟨bound, here⟩ := List.getElem?_eq_some_iff.mp held
    rw [List.set_set, ← here, List.set_getElem_self]
  simp only [share, dropped, if_neg last, setFile, setSlot, Function.update_self,
    Function.update_idem, back, slots,
    Function.update_eq_self]

theorem fsysDup2_shares_iff (ops : Fops) (table : Table s) (inOld : InTable oldfd)
    (inNew : InTable newfd)
    (opened : Open s oldfd f) :
    (∃ t, fsysDup2 ops s oldfd newfd = some (t, newfd) ∧ Shares s t oldfd newfd f ∧
    (oldfd = newfd → t = s)) ↔
      f ∈ s.alive ∧ (slot s newfd = some (some f) → (s.file f).refcont ≠ 1) := by
  rcases fsysDup2_open ops table inOld inNew opened with ⟨g, taken, ran⟩ | ⟨free, ran⟩
  · have size : (dropped ops s newfd g).ofile.length = nofile := by
      rw [dropped_slots, List.length_set, table.size]
    have shares := share_shares (t := dropped ops s newfd g) size inNew opened.held
      fun fd other => slot_dropped_other table.size inNew other
    have same : slot s newfd = some (some f) ↔ g = f := by
      rw [taken.held]
      simp
    simp only [ran, Option.some.injEq, Prod.mk.injEq, and_true, exists_eq_left', shares, same]
    constructor
    · rintro ⟨live, -⟩
      have member := alive_of_dropped live
      refine ⟨member, fun here once => ?_⟩
      exact (dropped_alive table member).mp live ⟨here, once⟩
    · rintro ⟨member, more⟩
      refine ⟨(dropped_alive table member).mpr fun ⟨here, once⟩ => more here once, ?_⟩
      rintro rfl
      obtain rfl := opened.unique taken
      exact share_dropped_self table inOld opened.held (more rfl)
  · have shares := share_shares (t := s) table.size inNew opened.held fun fd _ => rfl
    simp only [ran, Option.some.injEq, Prod.mk.injEq, and_true, exists_eq_left', shares]
    constructor
    · rintro ⟨member, -⟩
      exact ⟨member, fun here => absurd ⟨here, opened.flagged, opened.inode⟩ (free f)⟩
    · rintro ⟨member, -⟩
      refine ⟨member, ?_⟩
      rintro rfl
      exact absurd opened (free f)

theorem findfreefdFrom_first {os : List (Option Nat)} {i : Nat} {o : Option Nat}
    (here : os[i]? = some o)
    (free : inUse s o = false) (lower : ∀ j p, j < i → os[j]? = some p → inUse s p = true)
    (fd : Int) :
    findfreefdFrom s os fd = fd + i := by
  induction os generalizing i fd with
  | nil => simp at here
  | cons q os ih =>
    cases i with
    | zero =>
      have same : q = o := by simpa using here
      rw [findfreefdFrom, same, free, if_neg Bool.false_ne_true]
      exact (Int.add_zero fd).symm
    | succ i =>
      have used := lower 0 q (Nat.succ_pos i) rfl
      rw [findfreefdFrom, used, if_pos rfl,
        ih here (fun j p less there => lower (j + 1) p (Nat.succ_lt_succ less) there) (fd + 1)]
      push_cast
      omega

theorem Lowest.found (table : Table s) (low : Lowest s fd) : findfreefd s = fd := by
  obtain ⟨start, bound⟩ := low.inside
  have inside : fd.toNat < s.ofile.length := by
    have := table.size
    omega
  have free := low.free
  rw [slot, if_pos start, List.getElem?_eq_getElem inside, Option.any_some] at free
  have found := findfreefdFrom_first (s := s) (List.getElem?_eq_getElem inside) free ?_ 0
  · rw [findfreefd, found]
    omega
  · intro j p less there
    have used := low.lower j (Int.natCast_nonneg j) (by omega)
    rwa [slot, if_pos (Int.natCast_nonneg j), Int.toNat_natCast, there, Option.any_some] at used

theorem fsysDup_open (table : Table s) (inOld : InTable oldfd) (opened : Open s oldfd f)
    (member : f ∈ s.alive)
    (low : Lowest s fd) : ∃ t, fsysDup ops s oldfd = some (t, fd) ∧ Shares s t oldfd fd f := by
  have real : ¬ fd = -1 := by
    have := low.inside.1
    omega
  have free : ∀ g, ¬ Open s fd g := by
    intro g taken
    have unused := low.free
    simp [taken.held, inUse, taken.flagged] at unused
  have kept : f ∈ s.alive ∧ (slot s fd = some (some f) → (s.file f).refcont ≠ 1) :=
    ⟨member, fun here => absurd ⟨here, opened.flagged, opened.inode⟩ (free f)⟩
  obtain ⟨t, ran, shares, -⟩ := (fsysDup2_shares_iff ops table inOld low.inside opened).mpr kept
  refine ⟨t, ?_, shares⟩
  simp only [fsysDup, low.found table, if_neg real, ran, Option.bind_eq_bind, Option.bind_some,
    Option.pure_def]

theorem fsysDup_reports (table : Table s) (inOld : InTable oldfd) (closed : ∀ f, ¬ Open s oldfd f) :
    fsysDup ops s oldfd ≠ some (s, eBadf) := by
  intro refused
  rcases checkFd_open table inOld with ⟨f, opened, -⟩ | ⟨-, checked⟩
  · exact closed f opened
  · have failed : fsysDup2 ops s oldfd (findfreefd s) = some (s, eBadf) := by
      simp only [fsysDup2, checked, Option.bind_eq_bind, Option.bind_some, Option.pure_def]
    rcases findfreefd_inTable table.size with full | ⟨low, -⟩
    · simp [fsysDup, full, eNfile, eBadf] at refused
    · have real : ¬ findfreefd s = -1 := by omega
      simp only [fsysDup, if_neg real, failed, Option.bind_eq_bind, Option.bind_some,
        Option.pure_def,
        Option.some.injEq, Prod.mk.injEq, true_and, eBadf] at refused
      omega

theorem Inv.held_alive (inv : Inv s) (inside : InTable fd) (held : slot s fd = some (some f)) :
    f ∈ s.alive := by
  obtain ⟨bound, here⟩ := slot_inTable inv inside
  rw [held, Option.some.injEq] at here
  exact (inv.slots f).mp (here ▸ List.getElem_mem bound)

/-- In a table whose counts are right, a file not counted once is on another slot. -/
theorem refcont_ne_one_iff (inv : Inv s) (inside : InTable fd) (held : slot s fd = some (some f)) :
    (s.file f).refcont ≠ 1 ↔ ∃ other, other ≠ fd ∧ slot s other = some (some f) := by
  obtain ⟨bound, here⟩ := slot_inTable inv inside
  rw [held, Option.some.injEq] at here
  have positive := inv.count_pos (inv.held_alive inside held)
  -- the slots that are left without this one
  have rest := slot_set (o := none) bound f
  rw [← here, if_pos rfl, if_neg (Option.some_ne_none f).symm, Nat.add_zero] at rest
  rw [inv.counts f (inv.held_alive inside held)]
  constructor
  · intro more
    have member : some f ∈ s.ofile.set fd.toNat none := by
      apply List.count_pos_iff.mp
      omega
    obtain ⟨i, inRange, there⟩ := List.mem_iff_getElem.mp member
    rw [List.getElem_set] at there
    by_cases same : fd.toNat = i
    · simp [same] at there
    · rw [if_neg same] at there
      rw [List.length_set] at inRange
      refine ⟨i, fun this => same (by omega), ?_⟩
      rw [slot, if_pos (Int.natCast_nonneg i), Int.toNat_natCast,
        List.getElem?_eq_getElem inRange, there]
  · rintro ⟨other, apart, there⟩
    have low : 0 ≤ other := by
      by_contra negative
      rw [slot, if_neg negative] at there
      cases there
    rw [slot, if_pos low] at there
    have different : fd.toNat ≠ other.toNat := by
      have := inside.1
      omega
    have member : some f ∈ s.ofile.set fd.toNat none := by
      apply List.mem_iff_getElem?.mpr
      exact ⟨other.toNat, by rw [List.getElem?_set_ne different, there]⟩
    have := List.count_pos_iff.mpr member
    omega

end Calls

/-- `fsys_dup2` and `fsys_dup` keep their contract exactly if `oldfd` is open on a live file, which
    is not on `newfd` with a count of one; in a table whose counts are right, exactly if `oldfd`
    is open and is not `newfd`, or shares its file with another slot. -/
theorem dup_contract_iff {ops : Fops} {s : State} {oldfd newfd : Int} (table : Table s)
    (inOld : InTable oldfd) (inNew : InTable newfd) :
    (DupContract ops s oldfd newfd ↔ ∃ f, Open s oldfd f ∧ f ∈ s.alive ∧
      (slot s newfd = some (some f) → (s.file f).refcont ≠ 1)) ∧
    (Inv s → (DupContract ops s oldfd newfd ↔ ∃ f, slot s oldfd = some (some f) ∧
      (oldfd = newfd → ∃ fd, fd ≠ oldfd ∧ slot s fd = some (some f)))) := by
  have exact' : DupContract ops s oldfd newfd ↔ ∃ f, Open s oldfd f ∧ f ∈ s.alive ∧
      (slot s newfd = some (some f) → (s.file f).refcont ≠ 1) := by
    constructor
    · intro contract
      by_cases opened : ∃ f, Open s oldfd f
      · obtain ⟨f, opened⟩ := opened
        exact ⟨f, opened, (fsysDup2_shares_iff _ table inOld inNew opened).mp
          (contract.shares f opened)⟩
      · have closed : ∀ f, ¬ Open s oldfd f := fun f here => opened ⟨f, here⟩
        exact absurd (contract.refuses closed).2 (fsysDup_reports table inOld closed)
    · rintro ⟨f, opened, member, kept⟩
      refine ⟨?_, fun closed => absurd opened (closed f), ?_⟩
      · intro g opened'
        obtain rfl := opened.unique opened'
        exact (fsysDup2_shares_iff _ table inOld inNew opened).mpr ⟨member, kept⟩
      · intro g fd opened' low
        obtain rfl := opened.unique opened'
        exact fsysDup_open table inOld opened member low
  refine ⟨exact', fun inv => exact'.trans ?_⟩
  constructor
  · rintro ⟨f, opened, -, kept⟩
    refine ⟨f, opened.held, ?_⟩
    rintro rfl
    exact (refcont_ne_one_iff inv inOld opened.held).mp (kept opened.held)
  · rintro ⟨f, held, other⟩
    have member := inv.held_alive inOld held
    obtain ⟨flagged, inode⟩ := inv.used f member
    refine ⟨f, ⟨held, flagged, inode⟩, member,
      fun held' => (refcont_ne_one_iff inv inOld held).mpr ?_⟩
    by_cases same : oldfd = newfd
    · exact other same
    · exact ⟨newfd, Ne.symm same, held'⟩

theorem dup_contract_shared : DupContract ⟨fun _ => false, fun _ => false⟩
    ⟨fun _ => ⟨some 7, 0, 0, 2, fUsed, none⟩, [some 0, some 0, none, none, none], [0], []⟩ 1 1 :=
  (dup_contract_iff ⟨rfl, fun _ => by simp, by decide⟩ ⟨by decide, by decide⟩
    ⟨by decide, by decide⟩).1.mpr
    ⟨0, ⟨rfl, by decide, by decide⟩, by decide, fun _ => by decide⟩

/-- A file on descriptor 0 alone: `dup2(0, 0)` returns 0 and leaves the slot on a freed file. -/
theorem dup2_self_frees : ∃ s :
    State, Inv s ∧ Open s 0 0 ∧ ¬ DupContract ⟨fun _ => false, fun _ => false⟩ s 0 0 := by
  let s : State := ⟨fun _ => ⟨some 7, 0, 0, 1, fUsed, none⟩,
    [some 0, none, none, none, none], [0], []⟩
  have inv : Inv s := by
    apply Inv.of_counts rfl (by decide)
    · intro f member
      obtain rfl : f = 0 := by simpa [s] using member
      decide
    · intro f gone
      have other : f ≠ 0 := by simpa [s] using gone
      simp [s, other.symm]
  have table : Table s := ⟨rfl, fun _ => by simp [s], inv.distinct⟩
  have inside : InTable 0 := ⟨by decide, by decide⟩
  have opened : Open s 0 0 := ⟨rfl, by decide, by decide⟩
  refine ⟨s, inv, opened, fun contract => ?_⟩
  have kept := (fsysDup2_shares_iff _ table inside inside opened).mp (contract.shares 0 opened)
  exact kept.2 rfl rfl

end FileTable
