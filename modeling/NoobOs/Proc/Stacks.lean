import NoobOs.Proc.Sched
import Mathlib.Data.Fintype.EquivFin

/-!
The stacks of `proc.c` beside its process table. A stack is its index in `used_stacks`;
its address, a multiple of the index above the heap, and the register frame on it are left
out. `none` is as for the run queue, or a store outside `used_stacks`.
-/
namespace Stacks
open Sched Runs Lists RingList

variable {ω : Type}

structure Table (ω : Type) where
  sched : State ω
  stidx : Slot → Nat
  usedStacks : Fin noProc → Bool

/-- The index, 0xff when every stack is in use. -/
def allocEsp (used : Fin noProc → Bool) : Nat × (Fin noProc → Bool) :=
  match (List.finRange noProc).find? fun n => ¬ used n with
  | some n => (n, Function.update used n true)
  | none => (0xff, used)

def deallocEsp (used : Fin noProc → Bool) (idx : Nat) : Option (Fin noProc → Bool) :=
  if inside : idx < noProc then some (Function.update used ⟨idx, inside⟩ false) else none

section Steps
variable [DecidableEq ω]

def allocProc (t : Table ω) : Option (Slot × Table ω) := do
  let (i, s) ← Sched.allocProc t.sched
  let (idx, used) := allocEsp t.usedStacks
  return (i, ⟨s, Function.update t.stidx i idx, used⟩)

/-- Without a free slot `add_proc` is given a null pointer. -/
def spawnProc (t : Table ω) : Option (Table ω) := do
  let (p, t) ← allocProc t
  let s ← addProc t.sched p
  return { t with sched := s }

/-- The stack stays in use. -/
def freeProc (t : Table ω) (i : Slot) : Option (Table ω) := do
  let s ← dequequeRunqueue t.sched (.runn i)
  return { t with sched := setStat s i .free }

def exitCur (t : Table ω) : Option (Table ω) := do
  let p ← curSlot t.sched
  let s ← dequequeRunqueue t.sched (.runn p)
  let s := setStat s p .free
  let s := { s with run := s.run.setNext (.runn p) none }
  let used ← deallocEsp t.usedStacks (t.stidx p)
  let s ← schedule s
  return ⟨s, t.stidx, used⟩

def initRootProc : Option (Table ω) := do
  let s : State ω := { bss with run := initList bss.run .rqHead }
  let (kproc, t) ← allocProc ⟨s, fun _ => 0, fun _ => false⟩
  let s ← addProc t.sched kproc
  return { t with sched := { s with cur := .runn kproc } }

inductive Request where
  | spawn
  | free (i : Slot)
  | exit
  | tick

def step (t : Table ω) : Request → Option (Table ω)
  | .spawn => spawnProc t
  | .free i => freeProc t i
  | .exit => exitCur t
  | .tick => (schedule t.sched).map fun s => { t with sched := s }

end Steps

/-- Each process has a stack of its own, and a stack is in use exactly if a process has it. -/
structure Owned (t : Table ω) : Prop where
  index : ∀ i, t.sched.stat i ≠ .free → t.stidx i < noProc
  alone : ∀ i j, t.sched.stat i ≠ .free → t.sched.stat j ≠ .free → t.stidx i = t.stidx j → i = j
  used : ∀ n, t.usedStacks n = true ↔ ∃ i, t.sched.stat i ≠ .free ∧ t.stidx i = n

def Full (t : Table ω) : Prop := ∀ i, t.sched.stat i ≠ .free

section Stats
variable [DecidableEq ω] {s s' : State ω} {i : Slot}

theorem enqueque_stat {n : Node ω} (done : enquequeRunqueue s n = some s') : s'.stat = s.stat := by
  simp only [enquequeRunqueue, Option.bind_eq_bind, Option.bind_eq_some_iff, Option.pure_def,
    Option.some.injEq] at done
  obtain ⟨run, -, rfl⟩ := done
  rfl

theorem dequeque_stat {n : Node ω} (done : dequequeRunqueue s n = some s') :
    s'.stat = s.stat ∧ s'.cur = s.cur := by
  simp only [dequequeRunqueue, Option.bind_eq_bind, Option.bind_eq_some_iff, Option.pure_def,
    Option.some.injEq] at done
  obtain ⟨run, -, rfl⟩ := done
  exact ⟨rfl, rfl⟩

theorem schedule_stat (done : schedule s = some s') : s'.stat = s.stat := by
  simp only [schedule, Option.bind_eq_bind, Option.bind_eq_some_iff, Option.pure_def] at done
  obtain ⟨next, -, done⟩ := done
  split at done
  · cases done
    rfl
  · simp only [Option.bind_eq_some_iff] at done
    obtain ⟨stat, -, done⟩ := done
    split at done
    · simp only [Option.bind_eq_some_iff, Option.some.injEq] at done
      obtain ⟨s₁, queued, s₂, removed, rfl⟩ := done
      exact (dequeque_stat removed).1.trans (enqueque_stat queued)
    · simp only [Option.bind_some, Option.bind_eq_some_iff, Option.some.injEq] at done
      obtain ⟨s₂, removed, rfl⟩ := done
      exact (dequeque_stat removed).1

omit [DecidableEq ω] in
theorem curSlot_some (named : curSlot s = some i) : s.cur = .runn i := by
  unfold curSlot at named
  split at named
  · next j mode => rw [mode, Option.some.inj named]
  · cases named

theorem addProc_stat (done : addProc s i = some s') : s'.stat = Function.update s.stat i .run :=
  enqueque_stat done

end Stats

/-! ## The process that runs -/

/-- The lists are in order, and a current process that is one of `procs` runs and is queued
    only in the front. After the last process left the processor there is none. -/
def Running (s : State ω) : Prop :=
  ∃ queue waiting, Inv s queue waiting ∧
    ∀ c, s.cur = .runn c → s.stat c = .run ∧ (c ∈ queue → queue.head? = some c)

section Switch
variable [DecidableEq ω] {s s' : State ω} {waiting : ω → List Slot}

theorem Inv.headless {c : Slot} (inv : Inv s [c] waiting)
    (done : dequequeRunqueue s .rqHead = some s') :
    Inv s' [] waiting := by
  obtain ⟨distinct, first, back, next, prev⟩ := inv.ring
  have turned : Ring s.run (.runn c) [.rqHead] := ⟨by simp, next, prev, first, back⟩
  simp only [dequequeRunqueue, Option.bind_eq_bind, Option.bind_eq_some_iff, Option.pure_def,
    Option.some.injEq] at done
  obtain ⟨run, removed, rfl⟩ := done
  obtain ⟨run', removed', ring⟩ := listDel_ring turned List.mem_cons_self
  obtain rfl : run' = run := Option.some.inj (removed'.symm.trans removed)
  obtain ⟨head, frame⟩ := listDel_frame turned List.mem_cons_self removed
  rw [List.erase_cons_head] at ring
  refine ⟨head, by simp, inv.known, ?_, inv.waits, inv.sleeping, inv.apart⟩
  intro j taken _
  by_cases same : j = c
  · exact same ▸ ring
  · apply (inv.alone j taken (by simpa using same)).congr
    intro n here
    rw [List.mem_singleton] at here
    exact frame n (by simpa [here] using same)

/-- Whatever `schedule` finds, the lists stay in order and what it switches to runs. -/
theorem schedule_running {queue : List Slot} (inv : Inv s queue waiting)
    (front : ∀ c, s.cur = .runn c → c ∈ queue → queue.head? = some c)
    (done : schedule s = some s') :
    Running s' := by
  cases queue with
  | nil =>
    have next : procNext s = some .rqHead := inv.ring.linked.1
    simp only [schedule, next, Option.bind_eq_bind, Option.bind_some, Option.pure_def] at done
    split at done
    · next same =>
      cases done
      exact ⟨[], waiting, inv, fun c named => by simp [named] at same⟩
    · cases mode : s.cur with
      | rqHead => simp [statOf, mode] at done
      | stray q => simp [statOf, mode] at done
      | runn c =>
        simp only [mode, statOf, Option.bind_some] at done
        split at done
        · next running =>
          obtain ⟨s₁, queued, inv₁, -⟩ := enqueque_inv inv (List.not_mem_nil (a := c)) running
          simp only [queued, Option.bind_some, Option.bind_eq_some_iff, Option.some.injEq] at done
          obtain ⟨s₂, removed, rfl⟩ := done
          have inv₂ := Inv.headless inv₁ removed
          exact ⟨[], waiting, ⟨inv₂.ring, inv₂.queued, inv₂.known, inv₂.alone, inv₂.waits,
            inv₂.sleeping, inv₂.apart⟩,
            fun c named => by cases named⟩
        · have removed : dequequeRunqueue s .rqHead = some s := by
            simp [dequequeRunqueue, listDel_alone inv.ring]
          simp only [removed, Option.bind_some, Option.some.injEq] at done
          subst done
          exact ⟨[], waiting, ⟨inv.ring, inv.queued, inv.known, inv.alone, inv.waits,
            inv.sleeping, inv.apart⟩,
            fun c named => by cases named⟩
  | cons j rest =>
    have next : procNext s = some (.runn j) := inv.ring.linked.1
    have running : s.stat j = .run := inv.queued j List.mem_cons_self
    cases mode : s.cur with
    | rqHead => simp [schedule, next, mode, statOf] at done
    | stray q => simp [schedule, next, mode, statOf] at done
    | runn c =>
      by_cases same : j = c
      · subst same
        have stays : schedule s = some s := by simp [schedule, next, mode]
        obtain rfl := Option.some.inj (stays.symm.trans done)
        refine ⟨j :: rest, waiting, inv, ?_⟩
        intro k named
        obtain rfl : j = k := Node.runn.inj (mode.symm.trans named)
        exact ⟨running, fun _ => rfl⟩
      · have outside : c ∉ j :: rest := fun member => same (Option.some.inj (front c mode member))
        obtain ⟨s₁, switched, inv₁, stat, cur⟩ := schedule_switches inv mode outside
        obtain rfl := Option.some.inj (switched.symm.trans done)
        refine ⟨_, waiting, inv₁, ?_⟩
        intro k named
        obtain rfl : j = k := Node.runn.inj (cur.symm.trans named)
        refine ⟨stat ▸ running, ?_⟩
        intro member
        have once := (List.nodup_cons.mp inv.nodup).1
        split at member
        · rcases List.mem_append.mp member with later | last
          · exact absurd later once
          · exact absurd (List.mem_singleton.mp last) same
        · exact absurd member once

theorem tick_running (running : Running s) (done : schedule s = some s') : Running s' := by
  obtain ⟨queue, waiting, inv, current⟩ := running
  exact schedule_running inv (fun c named => (current c named).2) done

theorem exit_running (running : Running s) (done : Sched.exitCur s = some s') : Running s' := by
  obtain ⟨queue, waiting, inv, current⟩ := running
  simp only [Sched.exitCur, Option.bind_eq_bind, Option.bind_eq_some_iff] at done
  obtain ⟨p, named, s₁, removed, switched⟩ := done
  have named' := curSlot_some named
  have live := (current p named').1
  obtain ⟨s₂, removed', inv₁, alone, stat, cur⟩ := dequeque_inv inv (i := p) (by rw [live]; decide)
  obtain rfl := Option.some.inj (removed'.symm.trans removed)
  have off : p ∉ queue.erase p := inv.nodup.not_mem_erase
  have awake := inv.not_waiting (i := p) (by rw [live]; decide)
  have inv₂ := inv₁.setStat off awake (Or.inl rfl) (fun taken => absurd rfl taken)
  have inv₃ := inv₂.clearNext (Function.update_self _ _ _) none
  refine schedule_running inv₃ ?_ switched
  intro c named'' member
  obtain rfl : p = c := Node.runn.inj (named'.symm.trans (cur.symm.trans named''))
  exact absurd member off

theorem spawn_running (running : Running s) (done : Sched.spawnProc s = some s') : Running s' := by
  obtain ⟨queue, waiting, inv, current⟩ := running
  obtain ⟨i, free, inv', stat, cur⟩ := spawnProc_adds inv done
  refine ⟨queue ++ [i], waiting, inv', ?_⟩
  intro c named
  obtain ⟨live, front⟩ := current c (cur.symm.trans named)
  have other : c ≠ i := by
    rintro rfl
    rw [live] at free
    exact absurd free (by decide)
  refine ⟨by rw [stat, Function.update_of_ne other, live], ?_⟩
  intro member
  rw [List.mem_append, List.mem_singleton] at member
  have before := front (member.resolve_right other)
  cases queue with
  | nil => simp at before
  | cons k ks => simpa using before

end Switch

section Ownership
variable {t : Table ω}

/-- As long as a slot is free, so is a stack: otherwise each stack would have an owner, and
    the owners would be all the slots. -/
theorem Owned.stack_left (owned : Owned t) {i : Slot} (free : t.sched.stat i = .free) :
    ∃ n, t.usedStacks n = false := by
  by_contra none'
  have taken : ∀ n : Fin noProc, ∃ j, t.sched.stat j ≠ .free ∧ t.stidx j = n := by
    intro n
    apply (owned.used n).mp
    by_contra unused
    exact none' ⟨n, by simpa using unused⟩
  choose owner live index using taken
  have injective : Function.Injective owner := by
    intro m n same
    have here := index m
    rw [same, index n] at here
    exact (Fin.val_injective here).symm
  obtain ⟨n, same⟩ := Finite.surjective_of_injective injective i
  exact live n (same ▸ free)

theorem allocEsp_left {used : Fin noProc → Bool} (left : ∃ n, used n = false) :
    ∃ n, used n = false ∧ allocEsp used = (n.val, Function.update used n true) := by
  unfold allocEsp
  cases found : (List.finRange noProc).find? fun n => ¬ used n with
  | none =>
    obtain ⟨n, unused⟩ := left
    have all := List.find?_eq_none.mp found n (List.mem_finRange n)
    simp [unused] at all
  | some n =>
    have unused := List.find?_some found
    exact ⟨n, by simpa using unused, rfl⟩

theorem Owned.taken (owned : Owned t) {i : Slot} (free : t.sched.stat i = .free) {n : Fin noProc}
    (unused : t.usedStacks n = false) {s : State ω} {p : PStat} (live : p ≠ .free)
    (stat : s.stat = Function.update t.sched.stat i p) :
    Owned ⟨s, Function.update t.stidx i n, Function.update t.usedStacks n true⟩ := by
  have none' : ∀ j, t.sched.stat j ≠ .free → t.stidx j ≠ n := by
    intro j live' same
    have used := (owned.used n).mpr ⟨j, live', same⟩
    simp [unused] at used
  have other : ∀ j, j ≠ i → s.stat j = t.sched.stat j := by
    intro j different
    rw [stat, Function.update_of_ne different]
  have self : s.stat i = p := by
    rw [stat, Function.update_self]
  constructor
  · intro j live'
    by_cases here : j = i
    · simp [here]
    · rw [other j here] at live'
      simpa [here] using owned.index j live'
  · intro j k livej livek same
    by_cases j' : j = i
    · by_cases k' : k = i
      · rw [j', k']
      · rw [other k k'] at livek
        exact absurd same.symm (by simpa [j', k'] using none' k livek)
    · rw [other j j'] at livej
      by_cases k' : k = i
      · exact absurd same (by simpa [j', k'] using none' j livej)
      · rw [other k k'] at livek
        exact owned.alone j k livej livek (by simpa [j', k'] using same)
  · intro m
    by_cases here : m = n
    · subst here
      simp only [Function.update_self, true_iff]
      exact ⟨i, by rw [self]; exact live, by simp⟩
    · simp only [Function.update_of_ne here, owned.used m]
      constructor
      · rintro ⟨j, livej, index⟩
        have different : j ≠ i := fun same => livej (same ▸ free)
        exact ⟨j, by rw [other j different]; exact livej, by simpa [different] using index⟩
      · rintro ⟨j, livej, index⟩
        have different : j ≠ i := by
          rintro rfl
          simp only [Function.update_self] at index
          exact here (Fin.val_injective index).symm
        rw [other j different] at livej
        exact ⟨j, livej, by simpa [different] using index⟩

theorem Owned.given (owned : Owned t) {i : Slot} (live : t.sched.stat i ≠ .free)
    {used : Fin noProc → Bool}
    (dealloc : deallocEsp t.usedStacks (t.stidx i) = some used) {s : State ω}
    (stat : s.stat = Function.update t.sched.stat i .free) : Owned ⟨s, t.stidx, used⟩ := by
  have inside := owned.index i live
  rw [deallocEsp, dif_pos inside, Option.some.injEq] at dealloc
  have still : ∀ j, s.stat j ≠ .free ↔ t.sched.stat j ≠ .free ∧ j ≠ i := by
    intro j
    rw [stat]
    by_cases here : j = i
    · simp [here]
    · simp [here]
  constructor
  · intro j live'
    exact owned.index j ((still j).mp live').1
  · intro j k livej livek same
    exact owned.alone j k ((still j).mp livej).1 ((still k).mp livek).1 same
  · intro n
    rw [← dealloc]
    by_cases here : n = ⟨t.stidx i, inside⟩
    · subst here
      simp only [Function.update_self, Bool.false_eq_true, false_iff]
      rintro ⟨j, live', index⟩
      exact ((still j).mp live').2 (owned.alone j i ((still j).mp live').1 live index)
    · simp only [Function.update_of_ne here, owned.used n]
      constructor
      · rintro ⟨j, livej, index⟩
        have different : j ≠ i := by
          rintro rfl
          exact here (Fin.ext index.symm)
        exact ⟨j, (still j).mpr ⟨livej, different⟩, index⟩
      · rintro ⟨j, livej, index⟩
        exact ⟨j, ((still j).mp livej).1, index⟩

end Ownership

/-! ## Runs -/

/-- No `free_proc`, and `spawn_proc` with a free slot. -/
def Tidy (t : Table ω) : Request → Prop
  | .spawn => ¬ Full t
  | .free _ => False
  | .exit => True
  | .tick => True

section Requests
variable [DecidableEq ω] {t t' : Table ω}

omit [DecidableEq ω] in
theorem allocProc_some {i : Slot} (done : allocProc t = some (i, t')) :
    t.sched.stat i = .free ∧ t'.sched = setStat t.sched i .runable ∧
      t'.stidx = Function.update t.stidx i (allocEsp t.usedStacks).1 ∧
      t'.usedStacks = (allocEsp t.usedStacks).2 := by
  simp only [allocProc, Sched.allocProc, Option.bind_eq_bind, Option.bind_eq_some_iff,
    Option.pure_def,
    Option.some.injEq, Prod.mk.injEq] at done
  obtain ⟨y, ⟨j, found, rfl⟩, rfl, rfl⟩ := done
  have free := List.find?_some found
  exact ⟨by simpa using free, rfl, rfl, rfl⟩

theorem spawn_taken {i : Slot} {s : State ω} (owned : Owned t)
    (allocated : allocProc t = some (i, t'))
    (added : addProc t'.sched i = some s) : Owned { t' with sched := s } := by
  obtain ⟨free, sched, stidx, used⟩ := allocProc_some allocated
  obtain ⟨n, unused, stack⟩ := allocEsp_left (owned.stack_left free)
  have stat : s.stat = Function.update t.sched.stat i .run := by
    rw [addProc_stat added, sched]
    simp [setStat]
  rw [stack] at stidx used
  rw [stidx, used]
  exact owned.taken free unused (by decide) stat

theorem spawnProc_owned (owned : Owned t) (done : spawnProc t = some t') : Owned t' := by
  simp only [spawnProc, Option.bind_eq_bind, Option.bind_eq_some_iff, Option.pure_def,
    Option.some.injEq] at done
  obtain ⟨⟨i, t₁⟩, allocated, s, added, rfl⟩ := done
  exact spawn_taken owned allocated added

theorem exitCur_owned (owned : Owned t)
    (running : ∀ i, curSlot t.sched = some i → t.sched.stat i ≠ .free)
    (done : exitCur t = some t') : Owned t' := by
  simp only [exitCur, Option.bind_eq_bind, Option.bind_eq_some_iff, Option.pure_def,
    Option.some.injEq] at done
  obtain ⟨p, cur, s₁, removed, used, dealloc, s₂, switched, rfl⟩ := done
  apply owned.given (running p cur) dealloc
  rw [schedule_stat switched]
  simp [setStat, (dequeque_stat removed).1]

theorem spawnProc_sched (done : spawnProc t = some t') :
    Sched.spawnProc t.sched = some t'.sched := by
  simp only [spawnProc, allocProc, Option.bind_eq_bind, Option.bind_eq_some_iff, Option.pure_def,
    Option.some.injEq] at done
  obtain ⟨y, ⟨z, allocated, rfl⟩, s, added, rfl⟩ := done
  simp [Sched.spawnProc, allocated, added]

theorem exitCur_sched (done : exitCur t = some t') : Sched.exitCur t.sched = some t'.sched := by
  simp only [exitCur, Option.bind_eq_bind, Option.bind_eq_some_iff, Option.pure_def,
    Option.some.injEq] at done
  obtain ⟨p, cur, s₁, removed, used, -, s₂, switched, rfl⟩ := done
  simp [Sched.exitCur, cur, removed, switched]

omit [DecidableEq ω] in
theorem Running.live {s : State ω} (running : Running s) {i : Slot} (cur : curSlot s = some i) :
    s.stat i ≠ .free := by
  obtain ⟨queue, waiting, -, current⟩ := running
  rw [(current i (curSlot_some cur)).1]
  decide

theorem step_owned {r : Request} (owned : Owned t) (running : Running t.sched) (tidy : Tidy t r)
    (done : step t r = some t') : Owned t' ∧ Running t'.sched := by
  cases r with
  | spawn => exact ⟨spawnProc_owned owned done, spawn_running running (spawnProc_sched done)⟩
  | free i => exact tidy.elim
  | exit =>
    exact ⟨exitCur_owned owned (fun i cur => running.live cur) done,
      exit_running running (exitCur_sched done)⟩
  | tick =>
    simp only [step, Option.map_eq_some_iff] at done
    obtain ⟨s, switched, rfl⟩ := done
    refine ⟨⟨?_, ?_, ?_⟩, tick_running running switched⟩
    · simpa only [schedule_stat switched] using owned.index
    · simpa only [schedule_stat switched] using owned.alone
    · simpa only [schedule_stat switched] using owned.used

theorem freeProc_not_owned (owned : Owned t) {i : Slot} (live : t.sched.stat i ≠ .free)
    (done : freeProc t i = some t') : ¬ Owned t' := by
  intro owned'
  simp only [freeProc, Option.bind_eq_bind, Option.bind_eq_some_iff, Option.pure_def,
    Option.some.injEq] at done
  obtain ⟨s, removed, rfl⟩ := done
  have used := (owned.used ⟨t.stidx i, owned.index i live⟩).mpr ⟨i, live, rfl⟩
  obtain ⟨j, live', index⟩ := (owned'.used ⟨t.stidx i, owned.index i live⟩).mp used
  simp only [setStat, (dequeque_stat removed).1] at live' index
  by_cases same : j = i
  · simp [same] at live'
  · rw [Function.update_of_ne same] at live'
    exact same (owned.alone j i live' live index)

theorem spawnProc_full (full : Full t) : spawnProc t = none := by
  have none' : (List.finRange noProc).find? (fun i => decide (t.sched.stat i = .free)) = none := by
    rw [List.find?_eq_none]
    intro i _
    simpa using full i
  simp [spawnProc, allocProc, Sched.allocProc, none']

end Requests

section Whole
variable [DecidableEq ω]

theorem initRootProc_owned {t : Table ω} (boot : initRootProc = some t) :
    Owned t ∧ Running t.sched := by
  simp only [initRootProc, Option.bind_eq_bind, Option.bind_eq_some_iff, Option.pure_def,
    Option.some.injEq] at boot
  obtain ⟨⟨kproc, t₁⟩, allocated, s, added, rfl⟩ := boot
  have empty :
      Owned (⟨{ bss with run := initList bss.run .rqHead }, fun _ => 0,
      fun _ => false⟩ : Table ω) :=
    ⟨fun i live => absurd rfl live, fun i _ live => absurd rfl live, fun n => by simp [bss]⟩
  have owned := spawn_taken empty allocated added
  have sched : Sched.initRootProc = some { s with cur := .runn kproc } := by
    obtain ⟨-, same, -⟩ := allocProc_some allocated
    simp only [allocProc, Option.bind_eq_bind, Option.bind_eq_some_iff, Option.pure_def,
      Option.some.injEq,
      Prod.mk.injEq] at allocated
    obtain ⟨y, found, rfl, rfl⟩ := allocated
    simp only [Sched.initRootProc, found, Option.bind_eq_bind, Option.bind_some, added,
      Option.pure_def]
  obtain ⟨queue, waiting, c, inv, current⟩ := initRootProc_good sched
  refine ⟨⟨owned.index, owned.alone, owned.used⟩, queue, waiting, inv, ?_⟩
  intro k named
  obtain rfl : c = k := Node.runn.inj (current.named.symm.trans named)
  exact ⟨current.running, current.front⟩

def tidy : Machine (Table ω) Request where
  legal := Tidy
  step := step

/-- In every state that a run without `free_proc`, and without `spawn_proc` on a full table,
    leads to each process has a stack of its own; from there `free_proc` of any process
    breaks that, and `spawn_proc` on a full table does not leave things as they are. -/
theorem stacks_owned_when_tidy (t₀ t : Table ω) (boot : initRootProc = some t₀)
    (reach : Reach tidy t₀ t) :
    Owned t ∧ (∀ i t', t.sched.stat i ≠ .free → freeProc t i = some t' → ¬ Owned t') ∧
      (Full t → spawnProc t ≠ some t) := by
  have good : Owned t ∧ Running t.sched := by
    apply reach_invariant (fun t => Owned t ∧ Running t.sched) (initRootProc_owned boot) _ reach
    intro t r t' before ok stepped
    exact step_owned before.1 before.2 ok stepped
  refine ⟨good.1, ?_, ?_⟩
  · intro i t' live done
    exact freeProc_not_owned good.1 live done
  · intro full same
    rw [spawnProc_full full] at same
    cases same

end Whole

def booted : Table Unit := (initRootProc : Option (Table Unit)).get (by decide)

theorem stacks_owned_after_exit :
    ∃ t, Reach tidy booted t ∧ t.sched.stat 0 = .free ∧ t.stidx 1 = 1 ∧
    t.usedStacks 0 = false ∧ Owned t := by
  let t₁ : Table Unit := (spawnProc booted).get (by decide)
  let t₂ : Table Unit := (exitCur t₁).get (by decide)
  have boot : initRootProc = some booted := (Option.some_get _).symm
  have room : ¬ Full booted := fun full => full 1 (by decide)
  have reach : Reach tidy booted t₂ :=
    ⟨[.spawn, .exit], .cons room (Option.some_get _).symm
      (.cons trivial (Option.some_get _).symm (.nil _))⟩
  exact ⟨t₂, reach, by decide, by decide, by decide,
    (stacks_owned_when_tidy booted t₂ boot reach).1⟩

/-- A process is spawned and freed; and nine are spawned beside the kernel's. -/
theorem stack_kept_and_table_full :
    (∃ t₀ t₁ t₂ : Table Unit, initRootProc = some t₀ ∧ spawnProc t₀ = some t₁ ∧
    t₁.sched.stat 1 ≠ .free ∧
      freeProc t₁ 1 = some t₂ ∧ t₂.usedStacks 1 = true ∧ ∀ i, t₂.sched.stat i ≠ .free →
      t₂.stidx i ≠ 1) ∧
    ∃ t₀ t : Table Unit, initRootProc = some t₀ ∧
    (List.replicate 9 Request.spawn).foldlM step t₀ = some t ∧
      Full t ∧ spawnProc t = none := by
  have boot : initRootProc = some booted := (Option.some_get _).symm
  let t₁ : Table Unit := (spawnProc booted).get (by decide)
  let t₂ : Table Unit := (freeProc t₁ 1).get (by decide)
  let t : Table Unit := ((List.replicate 9 Request.spawn).foldlM step booted).get (by decide)
  have full : Full t := by
    unfold Full
    decide
  exact ⟨⟨booted, t₁, t₂, boot, (Option.some_get _).symm, by decide,
    (Option.some_get _).symm, by decide, by decide⟩,
    booted, t, boot, (Option.some_get _).symm, full, spawnProc_full full⟩

end Stacks
