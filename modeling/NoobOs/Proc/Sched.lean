import Mathlib.Data.Fintype.Card
import NoobOs.KLib.Lists
import NoobOs.Lib.Runs

/-!
The run queue of `proc.c`. `container_of` never fails, so a list head that is taken for
an entry gives a structure that is none of `procs`; it is named by the node it was
computed from. `none` is a null pointer followed, or `p_stat` read from such a structure.
Stacks and register frames are left out.
-/
namespace Sched
open RingList Lists Runs

abbrev noProc : Nat := 10

abbrev Slot := Fin noProc

inductive PStat where
  | free
  | sleep
  | run
  | runable
  | stop
  | zomb
  deriving DecidableEq

variable {ω : Type}

/-- The run nodes: the head of the queue, those of `procs`, and the one in the structure
    computed from the head of a wait queue. -/
inductive Node (ω : Type) where
  | rqHead
  | runn (i : Slot)
  | stray (q : ω)
  deriving DecidableEq

inductive WaitNode (ω : Type) where
  | head (q : ω)
  | waitn (i : Slot)
  deriving DecidableEq

/-- `cur` is `p_curproc`, named by its run node. -/
structure State (ω : Type) where
  stat : Slot → PStat
  cur : Node ω
  run : Links (Node ω)
  wait : Links (WaitNode ω)

def statOf (s : State ω) : Node ω → Option PStat
  | .runn i => some (s.stat i)
  | _ => none

def curSlot (s : State ω) : Option Slot :=
  match s.cur with
  | .runn i => some i
  | _ => none

def setStat (s : State ω) (i : Slot) (p : PStat) : State ω :=
  { s with stat := Function.update s.stat i p }

section Steps
variable [DecidableEq ω]

def enquequeRunqueue (s : State ω) (p : Node ω) : Option (State ω) := do
  let run ← listAddTail s.run p .rqHead
  return { s with run := run }

def dequequeRunqueue (s : State ω) (p : Node ω) : Option (State ω) := do
  let run ← listDel s.run p
  return { s with run := run }

def procNext (s : State ω) : Option (Node ω) := s.run.next .rqHead

/-- `task_switch` is the assignment to `p_curproc`. -/
def schedule (s : State ω) : Option (State ω) := do
  let prev := s.cur
  let next ← procNext s
  if next = prev then return s
  let stat ← statOf s prev
  let s ← if stat = .run then enquequeRunqueue s prev else some s
  let s ← dequequeRunqueue s next
  return { s with cur := next }

def sleepOn (s : State ω) (q : ω) : Option (State ω) := do
  let p ← curSlot s
  let s ← dequequeRunqueue s (.runn p)
  let s := setStat s p .sleep
  let wait ← listAddTail s.wait (.waitn p) (.head q)
  schedule { s with wait := wait }

def wakeUp (s : State ω) (q : ω) : Option (State ω) := do
  let n ← s.wait.next (.head q)
  let wait ← listDel s.wait n
  let s := { s with wait := wait }
  match n with
  | .waitn p => enquequeRunqueue (setStat s p .run) (.runn p)
  | .head q' => enquequeRunqueue s (.stray q')

def exitCur (s : State ω) : Option (State ω) := do
  let p ← curSlot s
  let s ← dequequeRunqueue s (.runn p)
  let s := setStat s p .free
  schedule { s with run := s.run.setNext (.runn p) none }

def allocProc (s : State ω) : Option (Slot × State ω) := do
  let i ← (List.finRange noProc).find? fun i => s.stat i = .free
  return (i, setStat s i .runable)

def addProc (s : State ω) (p : Slot) : Option (State ω) :=
  let s := { s with run := initList s.run (.runn p), wait := initList s.wait (.waitn p) }
  enquequeRunqueue (setStat s p .run) (.runn p)

def spawnProc (s : State ω) : Option (State ω) := do
  let (p, s) ← allocProc s
  addProc s p

/-- Before `init_root_proc`: zeroed slots, and wait queues their owners initialised. -/
def bss : State ω where
  stat _ := .free
  cur := .rqHead
  run := ⟨fun _ => none, fun _ => none⟩
  wait := ⟨fun | .head q => some (.head q) | .waitn _ => none,
    fun | .head q => some (.head q) | .waitn _ => none⟩

def initRootProc : Option (State ω) := do
  let s : State ω := { bss with run := initList bss.run .rqHead }
  let (kproc, s) ← allocProc s
  let s ← addProc s kproc
  return { s with cur := .runn kproc }

inductive Step (ω : Type) where
  | spawn
  | tick
  | sleep (q : ω)
  | wake (q : ω)
  | exit

def step (s : State ω) : Step ω → Option (State ω)
  | .spawn => spawnProc s
  | .tick => schedule s
  | .sleep q => sleepOn s q
  | .wake q => wakeUp s q
  | .exit => exitCur s

end Steps

def Another (s : State ω) : Prop := ∃ j, s.stat j = .run ∧ s.cur ≠ .runn j

/-- The steps that find what they take: a free slot, a queued process, a sleeper, and for
    one that leaves the processor another process to run. -/
def Ready (s : State ω) : Step ω → Prop
  | .spawn => ∃ i, s.stat i = .free
  | .tick => s.run.next .rqHead ≠ some .rqHead
  | .sleep _ => Another s
  | .wake q => s.wait.next (.head q) ≠ some (.head q)
  | .exit => Another s

/-- The lists behind the links. -/
structure Inv (s : State ω) (queue : List Slot) (waiting : ω → List Slot) : Prop where
  ring : Ring s.run .rqHead (queue.map .runn)
  queued : ∀ i ∈ queue, s.stat i = .run
  known : ∀ i, s.stat i = .free ∨ s.stat i = .run ∨ s.stat i = .sleep
  alone : ∀ i, s.stat i ≠ .free → i ∉ queue → Ring s.run (.runn i) []
  waits : ∀ q, Ring s.wait (.head q) ((waiting q).map .waitn)
  sleeping : ∀ q, ∀ i ∈ waiting q, s.stat i = .sleep
  apart : ∀ p q i, i ∈ waiting p → i ∈ waiting q → p = q

/-- The current process runs, is queued only in the front, and with the queue makes up all
    that can run. -/
structure Current (s : State ω) (queue : List Slot) (c : Slot) : Prop where
  named : s.cur = .runn c
  running : s.stat c = .run
  front : c ∈ queue → queue.head? = some c
  all : ∀ i, s.stat i = .run → i = c ∨ i ∈ queue

section Lists
variable {s : State ω} {queue : List Slot} {waiting : ω → List Slot} {i c : Slot}

theorem mem_runn {ω : Type} {queue : List Slot} {i : Slot} :
    (.runn i : Node ω) ∈ queue.map .runn ↔ i ∈ queue := by
  simp

theorem off_ring (outside : i ∉ queue) : (.runn i : Node ω) ∉ .rqHead :: queue.map .runn := by
  simpa using outside

theorem Inv.nodup (inv : Inv s queue waiting) : queue.Nodup :=
  (List.nodup_cons.mp inv.ring.distinct).2.of_map _

theorem Inv.not_waiting (inv : Inv s queue waiting) (awake : s.stat i ≠ .sleep) (q : ω) :
    i ∉ waiting q :=
  fun member => awake (inv.sleeping q i member)

theorem Inv.not_queued (inv : Inv s queue waiting) (idle : s.stat i ≠ .run) : i ∉ queue :=
  fun member => idle (inv.queued i member)

theorem Inv.setStat (inv : Inv s queue waiting) (outside : i ∉ queue)
    (awake : ∀ q, i ∉ waiting q) {p : PStat}
    (kind : p = .free ∨ p = .run ∨ p = .sleep) (links : p ≠ .free → Ring s.run (.runn i) []) :
    Inv (setStat s i p) queue waiting := by
  obtain ⟨ring, queued, known, alone, waits, sleeping, apart⟩ := inv
  refine ⟨ring, ?_, ?_, ?_, waits, ?_, apart⟩
  · intro j member
    have other : j ≠ i := fun same => outside (same ▸ member)
    exact (Function.update_of_ne other _ _).trans (queued j member)
  · intro j
    by_cases same : j = i
    · simpa [Sched.setStat, same] using kind
    · simpa [Sched.setStat, same] using known j
  · intro j taken off
    by_cases same : j = i
    · subst same
      exact links (by simpa [Sched.setStat] using taken)
    · exact alone j (by simpa [Sched.setStat, same] using taken) off
  · intro q j member
    have other : j ≠ i := fun same => awake q (same ▸ member)
    exact (Function.update_of_ne other _ _).trans (sleeping q j member)

section Queue
variable [DecidableEq ω]

theorem enqueque_inv (inv : Inv s queue waiting) (outside : i ∉ queue) (running : s.stat i = .run) :
    ∃ s', enquequeRunqueue s (.runn i) = some s' ∧ Inv s' (queue ++ [i]) waiting ∧
      s'.stat = s.stat ∧ s'.cur = s.cur := by
  obtain ⟨run, added, ring⟩ := listAddTail_ring inv.ring (off_ring outside)
  have frame := fun c => listAddTail_frame (c := c) inv.ring (off_ring outside) added
  refine ⟨{ s with run := run }, by simp [enquequeRunqueue, added], ?_, rfl, rfl⟩
  refine ⟨by simpa using ring, ?_, inv.known, ?_, inv.waits, inv.sleeping, inv.apart⟩
  · intro j member
    rcases List.mem_append.mp member with before | last
    · exact inv.queued j before
    · rw [List.mem_singleton] at last
      exact last ▸ running
  · intro j taken off
    rw [List.mem_append, List.mem_singleton, not_or] at off
    apply (inv.alone j taken off.1).congr
    intro n here
    rw [List.mem_singleton] at here
    subst here
    exact frame _ (by simpa using off.2) (off_ring off.1)

theorem dequeque_inv (inv : Inv s queue waiting) (taken : s.stat i ≠ .free) :
    ∃ s', dequequeRunqueue s (.runn i) = some s' ∧ Inv s' (queue.erase i) waiting ∧
      Ring s'.run (.runn i) [] ∧ s'.stat = s.stat ∧ s'.cur = s.cur := by
  by_cases member : i ∈ queue
  · obtain ⟨run, removed, ring⟩ := listDel_ring inv.ring (mem_runn.mpr member)
    obtain ⟨self, frame⟩ := listDel_frame inv.ring (mem_runn.mpr member) removed
    have erased : (queue.map (.runn : Slot → Node ω)).erase (.runn i) = (queue.erase i).map .runn :=
      (List.map_erase (fun _ _ same => Node.runn.inj same) queue).symm
    refine ⟨{ s with run := run }, by simp [dequequeRunqueue, removed], ?_, self, rfl, rfl⟩
    refine ⟨erased ▸ ring, ?_, inv.known, ?_, inv.waits, inv.sleeping, inv.apart⟩
    · intro j still
      exact inv.queued j (List.mem_of_mem_erase still)
    · intro j taken' off
      by_cases same : j = i
      · exact same ▸ self
      · have outside : j ∉ queue := fun member' => off ((List.mem_erase_of_ne same).mpr member')
        apply (inv.alone j taken' outside).congr
        intro n here
        rw [List.mem_singleton] at here
        subst here
        exact frame _ (off_ring outside)
  · have alone := inv.alone i taken member
    refine ⟨s, by simp [dequequeRunqueue, listDel_alone alone], ?_, alone, rfl, rfl⟩
    rw [List.erase_of_not_mem member]
    exact inv

/-- A switch to the first process of the queue, from one that is not on it. -/
theorem schedule_switches {j : Slot} {rest : List Slot} (inv : Inv s (j :: rest) waiting)
    (named : s.cur = .runn c) (outside : c ∉ j :: rest) :
    ∃ s', schedule s = some s' ∧ Inv s' (if s.stat c = .run then rest ++ [c] else rest) waiting ∧
      s'.stat = s.stat ∧ s'.cur = .runn j := by
  have next : procNext s = some (.runn j) := inv.ring.linked.1
  have other : (.runn j : Node ω) ≠ .runn c := by
    intro same
    exact outside (Node.runn.inj same ▸ List.mem_cons_self)
  have running : s.stat j = .run := inv.queued j List.mem_cons_self
  unfold schedule
  simp only [next, named, if_neg other, statOf, Option.bind_eq_bind, Option.bind_some]
  by_cases runs : s.stat c = .run
  · obtain ⟨s₁, added, inv₁, stat₁, cur₁⟩ := enqueque_inv inv outside runs
    obtain ⟨s₂, removed, inv₂, _, stat₂, cur₂⟩ :=
      dequeque_inv inv₁ (i := j) (by rw [stat₁, running]; decide)
    refine ⟨{ s₂ with cur := .runn j }, by simp [runs, added, removed], ?_, stat₂.trans stat₁, rfl⟩
    rw [if_pos runs]
    rw [List.cons_append, List.erase_cons_head] at inv₂
    exact ⟨inv₂.ring, inv₂.queued, inv₂.known, inv₂.alone, inv₂.waits, inv₂.sleeping, inv₂.apart⟩
  · obtain ⟨s₂, removed, inv₂, _, stat₂, cur₂⟩ :=
      dequeque_inv inv (i := j) (by rw [running]; decide)
    refine ⟨{ s₂ with cur := .runn j }, by simp [runs, removed], ?_, stat₂, rfl⟩
    rw [if_neg runs]
    rw [List.erase_cons_head] at inv₂
    exact ⟨inv₂.ring, inv₂.queued, inv₂.known, inv₂.alone, inv₂.waits, inv₂.sleeping, inv₂.apart⟩

end Queue

end Lists

/-! ## One step -/

/-- The lists and the current process of a state between two steps. -/
def Good (s : State ω) : Prop := ∃ queue waiting c, Inv s queue waiting ∧ Current s queue c

section Step
variable [DecidableEq ω] {s : State ω}

theorem tick_good (good : Good s) (ready : Ready s .tick) :
    ∃ s', schedule s = some s' ∧ Good s' := by
  obtain ⟨queue, waiting, c, inv, named, running, front, all⟩ := good
  cases queue with
  | nil => exact absurd inv.ring.linked.1 ready
  | cons j rest =>
    by_cases same : j = c
    · subst same
      refine ⟨s, ?_, j :: rest, waiting, j, inv, named, running, front, all⟩
      have next : procNext s = some (.runn j) := inv.ring.linked.1
      simp [schedule, next, named]
    · have outside : c ∉ j :: rest := fun member => same (Option.some.inj (front member))
      obtain ⟨s', switched, inv', stat, cur⟩ := schedule_switches inv named outside
      rw [if_pos running] at inv'
      have nodup := List.nodup_cons.mp inv.nodup
      refine ⟨s', switched, rest ++ [c], waiting, j, inv', cur, ?_, ?_, ?_⟩
      · rw [stat]
        exact inv.queued j List.mem_cons_self
      · intro member
        rcases List.mem_append.mp member with later | last
        · exact absurd later nodup.1
        · exact absurd (List.mem_singleton.mp last) same
      · intro i runs
        rw [stat] at runs
        rcases all i runs with rfl | member
        · exact Or.inr (by simp)
        · rcases List.mem_cons.mp member with rfl | later
          · exact Or.inl rfl
          · exact Or.inr (List.mem_append_left _ later)

theorem handOver_good {t : State ω} {queue : List Slot} {waiting : ω → List Slot} {c : Slot}
    (inv : Inv t queue waiting)
    (named : t.cur = .runn c) (stopped : t.stat c ≠ .run) (stays : ∀ i, i ≠ c → t.stat i = s.stat i)
    (others : ∀ i, i ≠ c → s.stat i = .run → i ∈ queue) (another : ∃ j, s.stat j = .run ∧ j ≠ c) :
    ∃ s', schedule t = some s' ∧ Good s' := by
  obtain ⟨k, runs, different⟩ := another
  have all : ∀ i, t.stat i = .run → i ∈ queue := by
    intro i running
    have apart : i ≠ c := fun same => stopped (same ▸ running)
    exact others i apart ((stays i apart).symm.trans running)
  cases queue with
  | nil => exact absurd (others k different runs) (by simp)
  | cons j rest =>
    obtain ⟨s', switched, inv', stat, cur⟩ := schedule_switches inv named (inv.not_queued stopped)
    rw [if_neg stopped] at inv'
    refine ⟨s', switched, rest, waiting, j, inv', cur, ?_, ?_, ?_⟩
    · rw [stat]
      exact inv.queued j List.mem_cons_self
    · intro member
      exact absurd member (List.nodup_cons.mp inv.nodup).1
    · intro i running
      rw [stat] at running
      exact List.mem_cons.mp (all i running)

theorem leave_queue {queue : List Slot} {waiting : ω → List Slot} {c : Slot}
    (inv : Inv s queue waiting)
    (current : Current s queue c) : ∃ s', dequequeRunqueue s (.runn c) = some s' ∧
      Inv s' (queue.erase c) waiting ∧ Ring s'.run (.runn c) [] ∧ s'.stat = s.stat ∧
      s'.cur = .runn c ∧
      c ∉ queue.erase c ∧ ∀ i, i ≠ c → s.stat i = .run → i ∈ queue.erase c := by
  obtain ⟨named, running, _, all⟩ := current
  obtain ⟨s', removed, inv', alone, stat, cur⟩ :=
    dequeque_inv inv (i := c) (by rw [running]; decide)
  refine ⟨s', removed, inv', alone, stat, cur.trans named, ?_, ?_⟩
  · exact inv.nodup.not_mem_erase
  · intro i other runs
    exact (List.mem_erase_of_ne other).mpr ((all i runs).resolve_left other)

theorem Inv.addWaiter {queue : List Slot} {waiting : ω → List Slot} {c : Slot}
    (inv : Inv s queue waiting)
    (fresh : ∀ q, c ∉ waiting q) (asleep : s.stat c = .sleep) (q : ω) :
    ∃ wait, listAddTail s.wait (.waitn c) (.head q) = some wait ∧
      Inv { s with wait := wait } queue (Function.update waiting q (waiting q ++ [c])) := by
  have off : (.waitn c : WaitNode ω) ∉ .head q :: (waiting q).map .waitn := by
    simpa using fresh q
  obtain ⟨wait, added, ring⟩ := listAddTail_ring (inv.waits q) off
  have frame := fun n => listAddTail_frame (c := n) (inv.waits q) off added
  refine ⟨wait, added, inv.ring, inv.queued, inv.known, inv.alone, ?_, ?_, ?_⟩
  · intro p
    by_cases same : p = q
    · subst same
      simpa using ring
    · rw [Function.update_of_ne same]
      apply (inv.waits p).congr
      intro n member
      apply frame n
      · rintro rfl
        simp [fresh p] at member
      · intro inside
        rcases List.mem_cons.mp member with rfl | member
        · simp [same] at inside
        · obtain ⟨i, here, rfl⟩ := List.mem_map.mp member
          have there : i ∈ waiting q := by simpa using inside
          exact same (inv.apart p q i here there)
  · intro p i member
    by_cases same : p = q
    · subst same
      rw [Function.update_self, List.mem_append, List.mem_singleton] at member
      rcases member with before | rfl
      · exact inv.sleeping p i before
      · exact asleep
    · rw [Function.update_of_ne same] at member
      exact inv.sleeping p i member
  · have only : ∀ p i, i ∈ Function.update waiting q (waiting q ++ [c]) p → i = c ∧ p = q ∨
        i ∈ waiting p := by
      intro p i member
      by_cases same : p = q
      · subst same
        rw [Function.update_self, List.mem_append, List.mem_singleton] at member
        rcases member with before | last
        · exact Or.inr before
        · exact Or.inl ⟨last, rfl⟩
      · rw [Function.update_of_ne same] at member
        exact Or.inr member
    intro p p' i member member'
    rcases only p i member with ⟨rfl, rfl⟩ | before
    · rcases only p' i member' with ⟨_, rfl⟩ | before'
      · rfl
      · exact absurd before' (fresh p')
    · rcases only p' i member' with ⟨rfl, rfl⟩ | before'
      · exact absurd before (fresh p)
      · exact inv.apart p p' i before before'

theorem sleep_good (good : Good s) {q : ω} (ready : Ready s (.sleep q)) :
    ∃ s', sleepOn s q = some s' ∧ Good s' := by
  obtain ⟨queue, waiting, c, inv, current⟩ := good
  obtain ⟨j, runs, other⟩ := ready
  rw [current.named] at other
  have different : j ≠ c := fun same => other (same ▸ rfl)
  have awake := inv.not_waiting (i := c) (by rw [current.running]; decide)
  obtain ⟨s₁, removed, inv₁, alone, stat, cur, off, all⟩ := leave_queue inv current
  have inv₂ := inv₁.setStat off awake (Or.inr (Or.inr rfl)) (fun _ => alone)
  obtain ⟨wait, added, inv₃⟩ := inv₂.addWaiter awake (Function.update_self _ _ _) q
  have stays : ∀ i, i ≠ c → (setStat s₁ c .sleep).stat i = s.stat i := by
    intro i apart
    simp [setStat, apart, stat]
  obtain ⟨s', switched, good'⟩ :=
    handOver_good inv₃ cur (by simp [setStat]) stays all ⟨j, runs, different⟩
  refine ⟨s', ?_, good'⟩
  simp only [sleepOn, curSlot, current.named, removed, Option.bind_eq_bind, Option.bind_some,
    added, switched]

theorem Inv.clearNext {queue : List Slot} {waiting : ω → List Slot} {c : Slot}
    (inv : Inv s queue waiting)
    (free : s.stat c = .free) (v : Option (Node ω)) :
    Inv { s with run := s.run.setNext (.runn c) v } queue waiting := by
  have off : c ∉ queue := inv.not_queued (by rw [free]; decide)
  have kept : ∀ n, n ≠ .runn c → (s.run.setNext (.runn c) v).next n = s.run.next n ∧
      (s.run.setNext (.runn c) v).prev n = s.run.prev n :=
    fun n other => ⟨Function.update_of_ne other _ _, rfl⟩
  refine ⟨?_, inv.queued, inv.known, ?_, inv.waits, inv.sleeping, inv.apart⟩
  · apply inv.ring.congr
    intro n member
    apply kept n
    rintro rfl
    exact off_ring off member
  · intro j taken outside
    apply (inv.alone j taken outside).congr
    intro n member
    rw [List.mem_singleton] at member
    apply kept n
    rintro rfl
    exact taken (Node.runn.inj member ▸ free)

theorem exit_good (good : Good s) (ready : Ready s .exit) :
    ∃ s', exitCur s = some s' ∧ Good s' := by
  obtain ⟨queue, waiting, c, inv, current⟩ := good
  obtain ⟨j, runs, other⟩ := ready
  rw [current.named] at other
  have different : j ≠ c := fun same => other (same ▸ rfl)
  have awake := inv.not_waiting (i := c) (by rw [current.running]; decide)
  obtain ⟨s₁, removed, inv₁, alone, stat, cur, off, all⟩ := leave_queue inv current
  have inv₂ := inv₁.setStat off awake (Or.inl rfl) (fun taken => absurd rfl taken)
  have inv₃ := inv₂.clearNext (Function.update_self _ _ _) none
  have stays : ∀ i, i ≠ c → (setStat s₁ c .free).stat i = s.stat i := by
    intro i apart
    simp [setStat, apart, stat]
  obtain ⟨s', switched, good'⟩ :=
    handOver_good inv₃ cur (by simp [setStat]) stays all ⟨j, runs, different⟩
  refine ⟨s', ?_, good'⟩
  simp only [exitCur, curSlot, current.named, removed, Option.bind_eq_bind,
    Option.bind_some, switched]

theorem Inv.takeWaiter {queue rest : List Slot} {waiting : ω → List Slot} {p : Slot} {q : ω}
    (inv : Inv s queue waiting) (first : waiting q = p :: rest) :
    ∃ wait, listDel s.wait (.waitn p) = some wait ∧
      Inv { s with wait := wait } queue (Function.update waiting q rest) := by
  have ring := inv.waits q
  rw [first, List.map_cons] at ring
  obtain ⟨wait, removed, ring'⟩ := listDel_ring ring List.mem_cons_self
  obtain ⟨_, frame⟩ := listDel_frame ring List.mem_cons_self removed
  rw [List.erase_cons_head] at ring'
  have part : ∀ p' i, i ∈ Function.update waiting q rest p' → i ∈ waiting p' := by
    intro p' i member
    by_cases same : p' = q
    · subst same
      rw [Function.update_self] at member
      rw [first]
      exact List.mem_cons_of_mem _ member
    · rwa [Function.update_of_ne same] at member
  refine ⟨wait, removed, inv.ring, inv.queued, inv.known, inv.alone, ?_, ?_, ?_⟩
  · intro p'
    by_cases same : p' = q
    · subst same
      simpa using ring'
    · rw [Function.update_of_ne same]
      apply (inv.waits p').congr
      intro n member
      apply frame n
      rw [← List.map_cons, ← first]
      intro inside
      rcases List.mem_cons.mp member with rfl | member
      · simp [same] at inside
      · obtain ⟨i, here, rfl⟩ := List.mem_map.mp member
        have there : i ∈ waiting q := by simpa using inside
        exact same (inv.apart p' q i here there)
  · intro p' i member
    exact inv.sleeping p' i (part p' i member)
  · intro p' p'' i member member'
    exact inv.apart p' p'' i (part p' i member) (part p'' i member')

theorem wake_good (good : Good s) {q : ω} (ready : Ready s (.wake q)) :
    ∃ s', wakeUp s q = some s' ∧ Good s' := by
  obtain ⟨queue, waiting, c, inv, named, running, front, all⟩ := good
  cases first : waiting q with
  | nil =>
    have ring := inv.waits q
    rw [first] at ring
    exact absurd ring.linked.1 ready
  | cons p rest =>
    have asleep : s.stat p = .sleep := inv.sleeping q p (by rw [first]; exact List.mem_cons_self)
    have ring := inv.waits q
    rw [first, List.map_cons] at ring
    have next : s.wait.next (.head q) = some (.waitn p) := ring.linked.1
    obtain ⟨wait, removed, inv₁⟩ := inv.takeWaiter first
    have off : p ∉ queue := inv.not_queued (by rw [asleep]; decide)
    have gone : ∀ q', p ∉ Function.update waiting q rest q' := by
      intro q' member
      by_cases same : q' = q
      · subst same
        rw [Function.update_self] at member
        have nodup := (List.nodup_cons.mp ring.distinct).2
        rw [← List.map_cons] at nodup
        exact (List.nodup_cons.mp (nodup.of_map _)).1 member
      · rw [Function.update_of_ne same] at member
        exact same (inv.apart q' q p member (by rw [first]; exact List.mem_cons_self))
    have alone := inv.alone p (by rw [asleep]; decide) off
    have inv₂ := inv₁.setStat off gone (Or.inr (Or.inl rfl)) (fun _ => alone)
    obtain ⟨s', added, inv₃, stat, cur⟩ := enqueque_inv inv₂ off (Function.update_self _ _ _)
    have other : c ≠ p := by
      rintro rfl
      rw [running] at asleep
      exact absurd asleep (by decide)
    refine ⟨s', ?_, queue ++ [p], _, c, inv₃, cur.trans named, ?_, ?_, ?_⟩
    · simp only [wakeUp, next, Option.bind_eq_bind, Option.bind_some, removed, added]
    · rw [stat]
      simpa [setStat, other] using running
    · intro member
      rw [List.mem_append, List.mem_singleton] at member
      have before := front (member.resolve_right other)
      cases queue with
      | nil => simp at before
      | cons k ks => simpa using before
    · intro i runs
      rw [stat] at runs
      by_cases same : i = p
      · exact Or.inr (by simp [same])
      · have runs' : s.stat i = .run := by simpa [setStat, same] using runs
        exact (all i runs').imp id (List.mem_append_left _)

theorem Inv.initLinks {queue : List Slot} {waiting : ω → List Slot} {i : Slot}
    (inv : Inv s queue waiting)
    (free : s.stat i = .free) :
    Inv { s with run := initList s.run (.runn i), wait := initList s.wait (.waitn i) }
    queue waiting := by
  have off : i ∉ queue := inv.not_queued (by rw [free]; decide)
  have awake := inv.not_waiting (i := i) (by rw [free]; decide)
  refine ⟨?_, inv.queued, inv.known, ?_, ?_, inv.sleeping, inv.apart⟩
  · apply inv.ring.congr
    intro n member
    apply initList_frame
    rintro rfl
    exact off_ring off member
  · intro j taken outside
    apply (inv.alone j taken outside).congr
    intro n member
    rw [List.mem_singleton] at member
    apply initList_frame
    rintro rfl
    exact taken (Node.runn.inj member ▸ free)
  · intro q
    apply (inv.waits q).congr
    intro n member
    apply initList_frame
    rintro rfl
    simp [awake q] at member

theorem addProc_inv {queue : List Slot} {waiting : ω → List Slot} {i : Slot}
    (inv : Inv s queue waiting)
    (free : s.stat i = .free) :
    ∃ s', addProc (setStat s i .runable) i = some s' ∧ Inv s' (queue ++ [i]) waiting ∧
      s'.stat = Function.update s.stat i .run ∧ s'.cur = s.cur := by
  have off : i ∉ queue := inv.not_queued (by rw [free]; decide)
  have awake := inv.not_waiting (i := i) (by rw [free]; decide)
  have inv₁ := (inv.initLinks free).setStat off awake (Or.inr (Or.inl rfl))
    (fun _ => initList_alone _ _)
  obtain ⟨s', added, inv₂, stat, cur⟩ := enqueque_inv inv₁ off (Function.update_self _ _ _)
  refine ⟨s', ?_, inv₂, stat, cur⟩
  unfold addProc
  rw [← added]
  simp only [setStat, Function.update_idem]

theorem spawnProc_adds {queue : List Slot} {waiting : ω → List Slot} {s' : State ω}
    (inv : Inv s queue waiting)
    (spawned : spawnProc s = some s') :
    ∃ i, s.stat i = .free ∧ Inv s' (queue ++ [i]) waiting ∧
    s'.stat = Function.update s.stat i .run ∧
      s'.cur = s.cur := by
  unfold spawnProc allocProc at spawned
  simp only [Option.bind_eq_bind, Option.pure_def, Option.bind_eq_some_iff] at spawned
  obtain ⟨⟨_, _⟩, ⟨i, found, same⟩, added⟩ := spawned
  obtain ⟨rfl, rfl⟩ := Prod.mk.inj (Option.some.inj same)
  have free : s.stat i = .free := by simpa using List.find?_some found
  obtain ⟨s'', added', inv', stat, cur⟩ := addProc_inv inv free
  obtain rfl := Option.some.inj (added'.symm.trans added)
  exact ⟨i, free, inv', stat, cur⟩

theorem spawnProc_returns {queue : List Slot} {waiting : ω → List Slot} (inv : Inv s queue waiting)
    (ready : ∃ i, s.stat i = .free) : ∃ s', spawnProc s = some s' := by
  obtain ⟨k, free⟩ := ready
  obtain ⟨i, found⟩ : ∃ i, (List.finRange noProc).find? (fun i => decide (s.stat i = .free)) =
      some i := by
    rw [← Option.isSome_iff_exists, List.find?_isSome]
    exact ⟨k, List.mem_finRange k, by simpa using free⟩
  have freed : s.stat i = .free := by simpa using List.find?_some found
  obtain ⟨s', added, _⟩ := addProc_inv inv freed
  refine ⟨s', ?_⟩
  simp only [spawnProc, allocProc, found, Option.bind_eq_bind, Option.bind_some,
    Option.pure_def, added]

theorem spawn_good (good : Good s) (ready : Ready s .spawn) :
    ∃ s', spawnProc s = some s' ∧ Good s' := by
  obtain ⟨queue, waiting, c, inv, named, running, front, all⟩ := good
  obtain ⟨s', spawned⟩ := spawnProc_returns inv ready
  obtain ⟨i, free, inv', stat, cur⟩ := spawnProc_adds inv spawned
  have other : c ≠ i := by
    rintro rfl
    rw [running] at free
    exact absurd free (by decide)
  refine ⟨s', spawned, queue ++ [i], waiting, c, inv', cur.trans named, ?_, ?_, ?_⟩
  · rw [stat, Function.update_of_ne other, running]
  · intro member
    rw [List.mem_append, List.mem_singleton] at member
    have before := front (member.resolve_right other)
    cases queue with
    | nil => simp at before
    | cons k ks => simpa using before
  · intro j runs
    rw [stat] at runs
    by_cases same : j = i
    · exact Or.inr (by simp [same])
    · rw [Function.update_of_ne same] at runs
      exact (all j runs).imp id (List.mem_append_left _)

theorem step_good (good : Good s) {e : Step ω} (ready : Ready s e) :
    ∃ s', step s e = some s' ∧ Good s' := by
  cases e with
  | spawn => exact spawn_good good ready
  | tick => exact tick_good good ready
  | sleep q => exact sleep_good good ready
  | wake q => exact wake_good good ready
  | exit => exact exit_good good ready

end Step

section Boot
variable [DecidableEq ω]

theorem initRootProc_inv (ω : Type) [DecidableEq ω] : ∃ s :
    State ω, initRootProc = some s ∧ s.cur = .runn 0 ∧
    Inv s [0] (fun _ => []) ∧ ∀ i, s.stat i = if i = 0 then .run else .free := by
  let s₀ : State ω := { bss with run := initList bss.run .rqHead }
  have inv₀ : Inv s₀ [] (fun _ => []) := by
    refine ⟨initList_alone _ _, by simp, fun _ => Or.inl rfl, fun i taken => absurd rfl taken,
      ?_, by simp, by simp⟩
    intro q
    exact ⟨by simp, rfl, rfl⟩
  obtain ⟨s, added, inv, stat, cur⟩ := addProc_inv inv₀ (i := 0) rfl
  refine ⟨{ s with cur := .runn 0 }, ?_, rfl, ?_, ?_⟩
  · have found : allocProc s₀ = some (0, setStat s₀ 0 .runable) := rfl
    unfold initRootProc
    change (allocProc s₀).bind _ = _
    rw [found]
    simp only [Option.bind_some, added, Option.bind_eq_bind, Option.pure_def]
  · exact ⟨inv.ring, inv.queued, inv.known, inv.alone, inv.waits, inv.sleeping, inv.apart⟩
  · intro i
    have value : s.stat i = Function.update s₀.stat 0 .run i := by rw [stat]
    rw [Function.update_apply] at value
    exact value

theorem initRootProc_good {s : State ω} (boot : initRootProc = some s) : Good s := by
  obtain ⟨s', boot', named, inv, stat⟩ := initRootProc_inv ω
  obtain rfl : s' = s := Option.some.inj (boot'.symm.trans boot)
  refine ⟨[0], _, 0, inv, named, by simp [stat], fun _ => rfl, ?_⟩
  intro i runs
  rw [stat] at runs
  split at runs
  next same => exact Or.inl same
  next => cases runs

end Boot

/-! ## Whole runs -/

/-- The run queue holds processes that can run, each once, and only the current one of
    these may be missing from it; the current process is an entry of `procs` that can run. -/
def QueueOk (s : State ω) : Prop :=
  (∃ queue : List Slot, Ring s.run .rqHead (queue.map .runn) ∧ queue.Nodup ∧
    (∀ i ∈ queue, s.stat i = .run) ∧ ∀ i, s.stat i = .run → s.cur = .runn i ∨ i ∈ queue) ∧
  ∃ c, s.cur = .runn c ∧ s.stat c = .run

theorem Good.queueOk {s : State ω} (good : Good s) : QueueOk s := by
  obtain ⟨queue, waiting, c, inv, named, running, front, all⟩ := good
  refine ⟨⟨queue, inv.ring, inv.nodup, inv.queued, ?_⟩, c, named, running⟩
  intro i runs
  rcases all i runs with rfl | member
  · exact Or.inl named
  · exact Or.inr member

section Runs
variable [DecidableEq ω]

def machine : Machine (State ω) (Step ω) where
  legal := Ready
  step := step

theorem reach_good {s₀ s : State ω} (boot : initRootProc = some s₀) (reach : Reach machine s₀ s) :
    Good s := by
  apply reach_invariant Good (initRootProc_good boot) ?_ reach
  intro s e t good ready stepped
  obtain ⟨t', stepped', good'⟩ := step_good good ready
  obtain rfl : t' = t := Option.some.inj (stepped'.symm.trans stepped)
  exact good'

/-- Every run of ready steps returns, and keeps the queue in order in every state. -/
theorem run_queue_when_ready (s₀ s : State ω) (boot : initRootProc = some s₀)
    (reach : Reach machine s₀ s) :
    QueueOk s ∧ ∀ e, Ready s e → ∃ s', step s e = some s' ∧ QueueOk s' := by
  have good := reach_good boot reach
  refine ⟨good.queueOk, ?_⟩
  intro e ready
  obtain ⟨s', stepped, good'⟩ := step_good good ready
  exact ⟨s', stepped, good'.queueOk⟩

end Runs

def booted : State Unit := (initRootProc : Option (State Unit)).get (by decide)

theorem run_queue_after_wake :
    ∃ s, Reach machine booted s ∧ s.cur = .runn 1 ∧ s.stat 0 = .run ∧ QueueOk s := by
  let s₁ : State Unit := (spawnProc booted).get (by decide)
  let s₂ : State Unit := (sleepOn s₁ ()).get (by decide)
  let s₃ : State Unit := (wakeUp s₂ ()).get (by decide)
  have boot : initRootProc = some booted := (Option.some_get _).symm
  have free : ∃ i, booted.stat i = .free := ⟨1, by decide⟩
  have another : ∃ j, s₁.stat j = .run ∧ s₁.cur ≠ .runn j := ⟨1, by decide, by decide⟩
  have sleeper : s₂.wait.next (.head ()) ≠ some (.head ()) := by decide
  have reach : Reach machine booted s₃ :=
    ⟨[.spawn, .sleep (), .wake ()], .cons free (Option.some_get _).symm
      (.cons another (Option.some_get _).symm (.cons sleeper (Option.some_get _).symm (.nil _)))⟩
  exact ⟨s₃, reach, by decide, by decide, (run_queue_when_ready booted s₃ boot reach).1⟩

/-- When the only process sleeps, `schedule` switches to the structure around the list
    head; `wake_up` on a queue without sleepers queues the structure around its head. -/
theorem run_queue_leaves_procs :
    (∃ s₀ s : State Unit, initRootProc = some s₀ ∧ sleepOn s₀ () = some s ∧
    s.cur = .rqHead ∧ ¬ QueueOk s) ∧
      ∃ s₀ s : State Unit, initRootProc = some s₀ ∧ wakeUp s₀ () = some s ∧
        s.run.prev .rqHead = some (.stray ()) ∧ ¬ QueueOk s := by
  have boot : initRootProc = some booted := (Option.some_get _).symm
  refine ⟨⟨booted, (sleepOn booted ()).get (by decide), boot,
    (Option.some_get _).symm, by decide, ?_⟩,
    booted, (wakeUp booted ()).get (by decide), boot, (Option.some_get _).symm, by decide, ?_⟩
  · rintro ⟨-, c, named, -⟩
    cases named
  · rintro ⟨⟨queue, ⟨-, linked⟩, -⟩, -⟩
    -- the head leads to the kernel process and that to the stray node
    cases queue with
    | nil => exact absurd linked.1 (by decide)
    | cons i rest =>
      obtain rfl : i = 0 := by simpa using (Option.some.inj linked.1).symm
      cases rest with
      | nil => exact absurd linked.2.2.1 (by decide)
      | cons j rest => exact absurd (Option.some.inj linked.2.2.1) (by simp)

/-! ## Round robin -/

section RoundRobin
variable [DecidableEq ω]

/-- The states after `n` calls of `spawn_proc` and any number of `schedule`. -/
inductive Spawned : Nat → State ω → Prop where
  | boot {s : State ω} (booted : initRootProc = some s) : Spawned 0 s
  | spawn {n : Nat} {s t : State ω} (before : Spawned n s) (spawned : spawnProc s = some t) :
    Spawned (n + 1) t
  | tick {n : Nat} {s t : State ω} (before : Spawned n s) (ticked : schedule s = some t) :
    Spawned n t

def dispatched (s : State ω) : Nat → Option (List (Node ω))
  | 0 => some []
  | k + 1 => do
    let s' ← schedule s
    let later ← dispatched s' k
    return s'.cur :: later

/-- Each process that can run is dispatched once in the next `n + 1` calls. -/
def RoundRobin (n : Nat) (s : State ω) : Prop :=
  ∃ order, dispatched s (n + 1) = some order ∧ ∀ i, s.stat i = .run → order.count (.runn i) = 1

/-- The current process is not kept while another that can run is queued. -/
def MovesOn (s : State ω) : Prop :=
  ∀ queue : List Slot, Ring s.run .rqHead (queue.map .runn) → ∀ i ∈ queue, s.stat i = .run →
    s.cur ≠ .runn i →
    ∃ s', schedule s = some s' ∧ s'.cur ≠ s.cur

/-- The kernel process is current and in the front of the queue, before the others. -/
structure Stuck (n : Nat) (s : State ω) (others : List Slot) (waiting : ω → List Slot) : Prop where
  inv : Inv s (0 :: others) waiting
  named : s.cur = .runn 0
  count : others.length = n
  all : ∀ i, s.stat i = .run → i ∈ 0 :: others

theorem Stuck.schedule {n : Nat} {s : State ω} {others : List Slot} {waiting : ω → List Slot}
    (stuck : Stuck n s others waiting) : schedule s = some s := by
  have next : procNext s = some (.runn 0) := stuck.inv.ring.linked.1
  simp [Sched.schedule, next, stuck.named]

theorem Stuck.dispatched {n : Nat} {s : State ω} {others : List Slot} {waiting : ω → List Slot}
    (stuck : Stuck n s others waiting) (k : Nat) :
    dispatched s k = some (List.replicate k (.runn 0)) := by
  induction k with
  | zero => rfl
  | succ k ih => simp [Sched.dispatched, stuck.schedule, ih, stuck.named, List.replicate_succ]

theorem spawned_stuck {n : Nat} {s : State ω} (reached : Spawned n s) :
    ∃ others waiting, Stuck n s others waiting := by
  induction reached with
  | boot booted =>
    obtain ⟨s', boot', named, inv, stat⟩ := initRootProc_inv ω
    obtain rfl := Option.some.inj (boot'.symm.trans booted)
    refine ⟨[], _, inv, named, rfl, ?_⟩
    intro i runs
    rw [stat] at runs
    split at runs
    next same => exact same ▸ List.mem_cons_self
    next => cases runs
  | spawn before spawned ih =>
    obtain ⟨others, waiting, stuck⟩ := ih
    obtain ⟨i, free, inv, stat, cur⟩ := spawnProc_adds stuck.inv spawned
    refine ⟨others ++ [i], waiting, inv, cur.trans stuck.named, by simp [stuck.count], ?_⟩
    intro j runs
    rw [stat] at runs
    by_cases same : j = i
    · simp [same]
    · rw [Function.update_of_ne same] at runs
      exact List.mem_append_left [i] (stuck.all j runs)
  | tick before ticked ih =>
    obtain ⟨others, waiting, stuck⟩ := ih
    obtain rfl := Option.some.inj (stuck.schedule.symm.trans ticked)
    exact ⟨others, waiting, stuck⟩

/-- However many processes were spawned, every call of `schedule` keeps the kernel
    process, and no other is ever dispatched. -/
theorem schedule_never_rotates (n : Nat) (s : State ω) (reached : Spawned n s) (some' : 1 ≤ n) :
    (Finset.univ.filter (fun i => s.stat i = .run)).card = n + 1 ∧
      (∀ k, dispatched s k = some (List.replicate k (.runn 0))) ∧ ¬ RoundRobin n s ∧
      ¬ MovesOn s := by
  obtain ⟨others, waiting, stuck⟩ := spawned_stuck reached
  have nodup := stuck.inv.nodup
  have runs : ∀ i, s.stat i = .run ↔ i ∈ 0 :: others := fun i => ⟨stuck.all i, stuck.inv.queued i⟩
  have size : (0 :: others).length = n + 1 := by simp [stuck.count]
  obtain ⟨i, member⟩ : ∃ i, i ∈ others := by
    apply List.exists_mem_of_length_pos
    have := stuck.count
    omega
  have other : i ≠ 0 := fun same => (List.nodup_cons.mp nodup).1 (same ▸ member)
  refine ⟨?_, stuck.dispatched, ?_, ?_⟩
  · rw [← size, ← List.toFinset_card_of_nodup nodup]
    congr 1
    ext j
    simp [runs]
  · rintro ⟨order, calls, once⟩
    obtain rfl := Option.some.inj ((stuck.dispatched (n + 1)).symm.trans calls)
    have dispatched := once 0 ((runs 0).mpr List.mem_cons_self)
    rw [List.count_replicate_self] at dispatched
    omega
  · intro moves
    have queued := List.mem_cons_of_mem (0 : Slot) member
    obtain ⟨s', kept, changed⟩ := moves _ stuck.inv.ring i queued ((runs i).mpr queued)
      (by rw [stuck.named]; exact fun same => other (Node.runn.inj same).symm)
    obtain rfl := Option.some.inj (stuck.schedule.symm.trans kept)
    exact changed rfl

end RoundRobin

theorem one_spawned_never_runs :
    ∃ s : State Unit, Spawned 1 s ∧ s.stat 1 = .run ∧ dispatched s 2 = some [.runn 0, .runn 0] ∧
      ¬ RoundRobin 1 s := by
  let s : State Unit := (spawnProc booted).get (by decide)
  have reached : Spawned 1 s := .spawn (.boot (Option.some_get _).symm) (Option.some_get _).symm
  exact ⟨s, reached, by decide, by decide, (schedule_never_rotates 1 s reached (by decide)).2.2.1⟩

theorem schedule_keeps_kproc : ¬ ∀ s : State Unit, Spawned 1 s → RoundRobin 1 s ∧ MovesOn s := by
  intro claim
  let s : State Unit := (spawnProc booted).get (by decide)
  have reached : Spawned 1 s := .spawn (.boot (Option.some_get _).symm) (Option.some_get _).symm
  obtain ⟨⟨order, calls, once⟩, -⟩ := claim s reached
  have two : dispatched s 2 = some [.runn 0, .runn 0] := by decide
  obtain rfl := Option.some.inj (two.symm.trans calls)
  exact absurd (once 1 (by decide)) (by decide)

end Sched
