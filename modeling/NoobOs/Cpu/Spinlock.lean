import NoobOs.Lib.Runs
import Mathlib.Logic.Function.Basic

/-!
One lock of `spinlock.c` among any processors, threads and interrupts, with the wait of `sleep_on`
in `proc.c` behind it. Each access to the lock word and each change of the interrupt flag is a step
of its own, and the steps of the processors come in any order. An interrupt handler is called
through an interrupt gate, on the stack of the thread it interrupts.
-/
namespace Spinlock
open Runs

/-- The instruction a context comes to next. Outside it is at none of the lock's. -/
inductive Pc where
  | out
  | pushf
  | cli
  | exchange
  | load
  | inside
  | store
  | sleepStore
  | asleep
  | popf
  deriving DecidableEq

/-- An activation: `saves` if it takes the lock with `spin_lock_irqsave`, and the interrupt flag in
    the word at `f`. -/
structure Context where
  pc : Pc
  saves : Bool
  f : Bool
  deriving DecidableEq

/-- The stack of a thread: its interrupt flag, the context that runs, and below it those that were
    interrupted, each with the flag that `iret` brings back. -/
structure Stack where
  flag : Bool
  top : Context
  below : List (Bool × Context)

/-- What a processor does next with its thread. -/
inductive Act where
  | run
  | lock (saves : Bool)
  | unlock
  | sleep
  | interrupt
  | iret

/-- One instruction of `irq_save`, `spin_lock`, `spin_unlock` and `irq_restore`. -/
def exec (locked : UInt32) (flag : Bool) (x : Context) : Option (UInt32 × Bool × Context) :=
  match x.pc with
  | .pushf => some (locked, flag, { x with pc := .cli, f := flag })
  | .cli => some (locked, false, { x with pc := .exchange })
  | .exchange => some (1, flag, { x with pc := if locked ≠ 0 then .load else .inside })
  | .load => some (locked, flag, { x with pc := if locked ≠ 0 then .load else .exchange })
  | .store => some (0, flag, { x with pc := if x.saves then .popf else .out })
  | .popf => some (locked, x.f, { x with pc := .out })
  -- `sleep_on`: the lock is given back, and taken again once the thread is woken
  | .sleepStore => some (0, flag, { x with pc := .asleep })
  | .asleep => some (locked, flag, { x with pc := .exchange })
  | .out => none
  | .inside => none

def act (locked : UInt32) (th : Stack) : Act → Option (UInt32 × Stack)
  | .run => (exec locked th.flag th.top).map fun r => (r.1, { th with flag := r.2.1, top := r.2.2 })
  | .lock saves =>
    if th.top.pc = .out then
      some (locked, { th with top := ⟨if saves then .pushf else .exchange, saves, th.top.f⟩ })
    else none
  | .unlock => if th.top.pc = .inside then some (locked,
    { th with top := { th.top with pc := .store } }) else none
  | .sleep => if th.top.pc = .inside then some (locked,
    { th with top := { th.top with pc := .sleepStore } }) else none
  | .interrupt => if th.flag then some (locked,
    ⟨false, ⟨.out, false, false⟩, (th.flag, th.top) :: th.below⟩) else none
  | .iret =>
    match th.below with
    | (flag, x) :: below => if th.top.pc = .out then some (locked, ⟨flag, x, below⟩) else none
    | [] => none

section System
variable {Cpu Thread : Type} [DecidableEq Cpu] [DecidableEq Thread]

structure State (Cpu Thread : Type) where
  locked : UInt32
  running : Cpu → Thread
  threads : Thread → Stack

inductive Move (Cpu Thread : Type) where
  | act (c : Cpu) (a : Act)
  | switch (c : Cpu) (t : Thread)

def State.put (s : State Cpu Thread) (c : Cpu) (locked : UInt32) (th : Stack) : State Cpu Thread :=
  { s with locked := locked, threads := Function.update s.threads (s.running c) th }

/-- `schedule` is called outside the lock's functions, by a handler or a thread, and by `sleep_on`.
    -/
def step (s : State Cpu Thread) : Move Cpu Thread → Option (State Cpu Thread)
  | .act c a => (act s.locked (s.threads (s.running c)) a).map fun r =>
    s.put c r.1 r.2
  | .switch c t =>
    if (s.threads (s.running c)).top.pc = .out ∨ (s.threads (s.running c)).top.pc = .asleep then
      some { s with running := Function.update s.running c t }
    else none

/-- No thread runs on two processors at once. With `always`, every caller saves the flags. -/
def machine (Cpu Thread : Type) [DecidableEq Cpu] [DecidableEq Thread] (always : Bool) :
    Machine (State Cpu Thread) (Move Cpu Thread) where
  legal s
    | .act _ (.lock saves) => always → saves
    | .act _ _ => True
    | .switch _ t => ∀ c, s.running c ≠ t
  step := step

def boot (running : Cpu → Thread) : State Cpu Thread :=
  ⟨0, running, fun _ => ⟨true, ⟨.out, false, false⟩, []⟩⟩

end System

/-! ## One thread -/

def Context.holds (x : Context) : Prop := x.pc = .inside ∨ x.pc = .store ∨ x.pc = .sleepStore

def Context.before (x : Context) : Prop :=
  x.pc = .out ∨ x.pc = .pushf ∨ x.pc = .cli ∨ x.pc = .exchange ∨ x.pc = .load

def Stack.contexts (th : Stack) : List Context := th.top :: th.below.map (·.2)

def Stack.holds (th : Stack) : Prop := ∃ x ∈ th.contexts, x.holds

def Stack.Blocked (th : Stack) : Prop := th.flag = false ∧ th.top.before ∧ th.top.pc ≠ .out

/-- An interrupted context had interrupts on and its handler has them off, so there is one at most;
    and a handler above the holder does not come past the exchange. -/
inductive Stack.Good : Stack → Prop where
  | thread (flag : Bool) (x : Context) : Good ⟨flag, x, []⟩
  | handler (x y : Context) (clear : x.f = false) (waits : y.holds → x.before) :
    Good ⟨false, x, [(true, y)]⟩

inductive Change (locked locked' : UInt32) (held held' : Prop) : Prop where
  | kept (word : locked' ≠ 0 ↔ locked ≠ 0) (same : held' ↔ held)
  | taken (free : locked = 0) (word : locked' ≠ 0) (not : ¬ held) (holds : held')
  | freed (held : held) (word : locked' = 0) (not : ¬ held')

section Thread
variable {locked locked' : UInt32} {flag flag' : Bool} {x x' y : Context} {th th' : Stack} {a : Act}

theorem not_before_holds (before : x.before) : ¬ x.holds := by
  unfold Context.before at before
  unfold Context.holds
  rcases before with pc | pc | pc | pc | pc <;> simp [pc]

theorem exec_change (done : exec locked flag x = some (locked', flag', x')) :
    Change locked locked' x.holds x'.holds := by
  unfold exec at done
  split at done
  case h_3 pc =>
    cases done
    by_cases free : locked = 0
    · exact .taken free (by decide) (by simp [Context.holds, pc]) (by simp [Context.holds, free])
    · exact .kept (by simp [free]) (by simp [Context.holds, pc, free])
  case h_4 pc =>
    cases done
    exact .kept Iff.rfl (by by_cases free : locked = 0 <;> simp [Context.holds, pc, free])
  case h_5 pc =>
    cases done
    exact .freed (by simp [Context.holds, pc]) rfl (by cases x.saves <;> simp [Context.holds])
  case h_7 pc =>
    cases done
    exact .freed (by simp [Context.holds, pc]) rfl (by simp [Context.holds])
  case h_9 | h_10 => cases done
  all_goals
    rename_i pc
    cases done
    exact .kept Iff.rfl (by simp [Context.holds, pc])

theorem exec_before (taken : locked ≠ 0) (before : x.before)
    (done : exec locked flag x = some (locked', flag', x')) :
    x'.before ∧ x'.pc ≠ .out := by
  unfold exec at done
  unfold Context.before at before
  split at done
  case h_1 | h_2 | h_3 | h_4 =>
    cases done
    simp [Context.before, taken]
  case h_9 | h_10 => cases done
  all_goals
    rename_i pc
    simp [pc] at before

theorem exec_clear (clear : x.f = false) (done : exec locked false x = some (locked', flag', x')) :
    flag' = false ∧ x'.f = false := by
  unfold exec at done
  split at done
  case h_9 | h_10 => cases done
  all_goals
    cases done
    simp [clear]

theorem holds_thread : (Stack.mk flag x []).holds ↔ x.holds := by simp [Stack.holds, Stack.contexts]

theorem holds_handler {b : Bool} : (Stack.mk flag x [(b, y)]).holds ↔ x.holds ∨ y.holds := by
  simp [Stack.holds, Stack.contexts]

theorem exec_good (done : exec locked th.flag th.top = some (locked', flag', x')) (good : th.Good)
    (word : th.holds → locked ≠ 0) :
    ({ th with flag := flag', top := x' } : Stack).Good ∧
      Change locked locked' th.holds ({ th with flag := flag', top := x' } : Stack).holds := by
  cases good with
  | thread flag x =>
    rw [holds_thread, holds_thread]
    exact ⟨.thread _ _, exec_change done⟩
  | handler x y clear waits =>
    obtain ⟨rfl, clear'⟩ := exec_clear clear done
    rw [holds_handler] at word
    rw [holds_handler, holds_handler]
    by_cases held : y.holds
    · have before := (exec_before (word (.inr held)) (waits held) done).1
      refine ⟨.handler _ _ clear' fun _ => before, ?_⟩
      cases exec_change done with
      | kept word' same => exact .kept word' (by simp only [held, or_true])
      | taken free _ _ _ => exact absurd free (word (.inr held))
      | freed holds _ _ => exact absurd holds (not_before_holds (waits held))
    · refine ⟨.handler _ _ clear' fun holds => absurd holds held, ?_⟩
      simp only [held, or_false]
      exact exec_change done

theorem move_good (good : th.Good) {pc : Pc} {saves : Bool}
    (holds : (Context.mk pc saves th.top.f).holds ↔ th.top.holds)
    (before : th.top.before → (Context.mk pc saves th.top.f).before) :
    ({ th with top := ⟨pc, saves, th.top.f⟩ } : Stack).Good ∧
      Change locked locked th.holds ({ th with top := ⟨pc, saves, th.top.f⟩ } : Stack).holds := by
  cases good with
  | thread flag x =>
    rw [holds_thread, holds_thread]
    exact ⟨.thread _ _, .kept Iff.rfl holds⟩
  | handler x y clear waits =>
    rw [holds_handler, holds_handler]
    exact ⟨.handler _ _ clear fun held => before (waits held), .kept Iff.rfl (by rw [holds])⟩

/-- One step of a thread: what it does to its stack, to the lock word and to its holding the lock.
    -/
theorem act_good (acted : act locked th a = some (locked', th')) (good : th.Good)
    (word : th.holds → locked ≠ 0) :
    th'.Good ∧ Change locked locked' th.holds th'.holds := by
  cases a with
  | run =>
    obtain ⟨⟨l, b, x⟩, done, same⟩ := Option.map_eq_some_iff.mp acted
    cases same
    exact exec_good done good word
  | lock saves =>
    simp only [act] at acted
    split at acted
    case isTrue pc =>
      cases acted
      apply move_good good
      · cases saves <;> simp [Context.holds, pc]
      · intro _
        cases saves <;> simp [Context.before]
    case isFalse => cases acted
  | unlock =>
    simp only [act] at acted
    split at acted
    case isTrue pc =>
      cases acted
      apply move_good good
      · simp [Context.holds, pc]
      · intro before
        exact absurd (.inl pc) (not_before_holds before)
    case isFalse => cases acted
  | sleep =>
    simp only [act] at acted
    split at acted
    case isTrue pc =>
      cases acted
      apply move_good good
      · simp [Context.holds, pc]
      · intro before
        exact absurd (.inl pc) (not_before_holds before)
    case isFalse => cases acted
  | interrupt =>
    simp only [act] at acted
    split at acted
    case isTrue on =>
      cases acted
      have not : ¬ (Context.mk .out false false).holds := by simp [Context.holds]
      cases good with
      | thread flag x =>
        cases on
        rw [holds_handler, holds_thread]
        exact ⟨.handler _ _ rfl fun _ => .inl rfl, .kept Iff.rfl (by simp only [not, false_or])⟩
      | handler x y clear waits => cases on
    case isFalse => cases acted
  | iret =>
    cases good with
    | thread flag x => cases acted
    | handler x y clear waits =>
      simp only [act] at acted
      split at acted
      case isTrue pc =>
        cases acted
        have not : ¬ x.holds := not_before_holds (.inl pc)
        rw [holds_thread, holds_handler]
        exact ⟨.thread _ _, .kept Iff.rfl (by simp only [not, false_or])⟩
      case isFalse => cases acted

theorem before_holds (before : th.top.before) : th.holds ↔ ∃ p ∈ th.below, p.2.holds := by
  constructor
  · intro ⟨x, member, holds⟩
    rcases List.mem_cons.mp member with rfl | rest
    · exact absurd holds (not_before_holds before)
    · obtain ⟨p, inside, rfl⟩ := List.mem_map.mp rest
      exact ⟨p, inside, holds⟩
  · intro ⟨p, inside, holds⟩
    exact ⟨p.2, List.mem_cons_of_mem _ (List.mem_map_of_mem inside), holds⟩

/-- While the lock is taken, a thread that waits for it with interrupts off goes on waiting. -/
theorem act_blocked (acted : act locked th a = some (locked', th')) (taken : locked ≠ 0)
    (blocked : th.Blocked) :
    th'.Blocked ∧ th'.below = th.below := by
  obtain ⟨off, before, inCode⟩ := blocked
  have apart : ¬ th.top.pc = .inside := fun pc => not_before_holds before (.inl pc)
  cases a with
  | run =>
    obtain ⟨⟨l, b, x⟩, done, same⟩ := Option.map_eq_some_iff.mp acted
    cases same
    rw [off] at done
    obtain ⟨before', inCode'⟩ := exec_before taken before done
    have still : b = false := by
      unfold exec at done
      unfold Context.before at before
      split at done
      case h_6 pc => simp [pc] at before
      case h_9 | h_10 => cases done
      all_goals
        cases done
        rfl
    exact ⟨⟨still, before', inCode'⟩, rfl⟩
  | lock saves =>
    rw [act, if_neg inCode] at acted
    cases acted
  | unlock | sleep =>
    rw [act, if_neg apart] at acted
    cases acted
  | interrupt =>
    rw [act, off] at acted
    cases acted
  | iret =>
    simp only [act] at acted
    split at acted
    · rw [if_neg inCode] at acted
      cases acted
    · cases acted

theorem holder_index (good : th.Good) {i j : Nat} (first : th.contexts[i]? = some x)
    (second : th.contexts[j]? = some y)
    (holds : x.holds) (holds' : y.holds) : i = j := by
  cases good with
  | thread flag z =>
    have single : ∀ (k : Nat) (w : Context), (Stack.mk flag z []).contexts[k]? =
        some w → k = 0 := by
      intro k w found
      cases k with
      | zero => rfl
      | succ k => simp [Stack.contexts] at found
    rw [single i x first, single j y second]
  | handler z w clear waits =>
    have pair : ∀ (k : Nat) (v : Context), (Stack.mk false z [(true, w)]).contexts[k]? = some v →
        k = 0 ∧ v = z ∨ k = 1 ∧ v = w := by
      intro k v found
      match k with
      | 0 => exact .inl ⟨rfl, (Option.some.inj found).symm⟩
      | 1 => exact .inr ⟨rfl, (Option.some.inj found).symm⟩
      | k + 2 => simp [Stack.contexts] at found
    rcases pair i x first with ⟨at0, same⟩ | ⟨at1, same⟩
    · rcases pair j y second with ⟨at0', same'⟩ | ⟨at1', same'⟩
      · rw [at0, at0']
      · exact absurd (same ▸ holds) (not_before_holds (waits (same' ▸ holds')))
    · rcases pair j y second with ⟨at0', same'⟩ | ⟨at1', same'⟩
      · exact absurd (same' ▸ holds') (not_before_holds (waits (same ▸ holds)))
      · rw [at1, at1']

/-- A thread that neither holds the lock nor waits for it with interrupts off is where it may be
    switched away, or comes there with an interrupt, or with the flags it brings back. -/
theorem comes_out (locked : UInt32) (goes : ¬ th.Blocked) (not : ¬ th.holds) :
    (th.top.pc = .out ∨ th.top.pc = .asleep) ∨
    ∃ a th', (a = .run ∨ a = .interrupt) ∧ act locked th a = some (locked, th') ∧
    th'.top.pc = .out := by
  have waits (before : th.top.before) (inCode : th.top.pc ≠ .out) :
    ∃ a th', (a = .run ∨ a = .interrupt) ∧
      act locked th a = some (locked, th') ∧ th'.top.pc = .out := by
    have on : th.flag = true := by
      by_contra off
      exact goes ⟨Bool.eq_false_iff.mpr off, before, inCode⟩
    exact ⟨.interrupt, _, .inr rfl, if_pos on, rfl⟩
  have apart (holds : th.top.holds) : False := not ⟨th.top, List.mem_cons_self .., holds⟩
  cases pc : th.top.pc with
  | out => exact .inl (.inl rfl)
  | asleep => exact .inl (.inr rfl)
  | pushf => exact .inr (waits (.inr (.inl pc)) (by simp [pc]))
  | cli => exact .inr (waits (.inr (.inr (.inl pc))) (by simp [pc]))
  | exchange => exact .inr (waits (.inr (.inr (.inr (.inl pc)))) (by simp [pc]))
  | load => exact .inr (waits (.inr (.inr (.inr (.inr pc)))) (by simp [pc]))
  | inside => exact (apart (.inl pc)).elim
  | store => exact (apart (.inr (.inl pc))).elim
  | sleepStore => exact (apart (.inr (.inr pc))).elim
  | popf => exact .inr ⟨.run, { th with flag := th.top.f, top := { th.top with pc := .out } },
    .inl rfl, by simp [act, exec, pc], rfl⟩

end Thread

/-! ## All threads -/

section Runs
variable {Cpu Thread : Type} {s s' : State Cpu Thread}
  {running : Cpu → Thread} {c : Cpu} {t : Thread}

/-- The lock word says whether a thread holds the lock, and no two do. -/
structure Inv (s : State Cpu Thread) : Prop where
  apart : Function.Injective s.running
  good : ∀ t, (s.threads t).Good
  word : s.locked ≠ 0 ↔ ∃ t, (s.threads t).holds
  one : ∀ t t', (s.threads t).holds → (s.threads t').holds → t = t'
  rest : ∀ t, (∀ c, s.running c ≠ t) → (s.threads t).top.pc = .out ∨ (s.threads t).top.pc = .asleep

theorem boot_inv (apart : Function.Injective running) : Inv (boot running) where
  apart := apart
  good _ := .thread _ _
  word := by simp [boot, holds_thread, Context.holds]
  one t _ holds := by simp [boot, holds_thread, Context.holds] at holds
  rest _ _ := .inl rfl

variable [DecidableEq Thread]

theorem put_self (s : State Cpu Thread) (c : Cpu) (locked : UInt32) (th : Stack) :
    (s.put c locked th).threads (s.running c) = th :=
  Function.update_self ..

theorem put_other (s : State Cpu Thread) (locked : UInt32) (th : Stack) (other : t ≠ s.running c) :
    (s.put c locked th).threads t = s.threads t := Function.update_of_ne other ..

theorem act_inv (inv : Inv s) {a : Act} {locked' : UInt32} {th' : Stack}
    (acted : act s.locked (s.threads (s.running c)) a = some (locked', th')) :
    Inv (s.put c locked' th') := by
  obtain ⟨good, change⟩ := act_good acted (inv.good _) fun holds => inv.word.mpr ⟨_, holds⟩
  have rest : ∀ u, (∀ c', s.running c' ≠ u) →
    (Function.update s.threads (s.running c) th' u).top.pc = .out ∨
      (Function.update s.threads (s.running c) th' u).top.pc = .asleep := by
    intro u idle
    rw [Function.update_of_ne (idle c).symm]
    exact inv.rest u idle
  rw [State.put]
  generalize s.running c = t at *
  have self : Function.update s.threads t th' t = th' := Function.update_self ..
  have other : ∀ u, u ≠ t → Function.update s.threads t th' u = s.threads u :=
    fun u apart => Function.update_of_ne apart ..
  have good' : ∀ u, (Function.update s.threads t th' u).Good := by
    intro u
    by_cases here : u = t
    · rw [here, self]
      exact good
    · rw [other u here]
      exact inv.good u
  cases change with
  | kept word same =>
    have holders : ∀ u, (Function.update s.threads t th' u).holds ↔ (s.threads u).holds := by
      intro u
      by_cases here : u = t
      · rw [here, self]
        exact same
      · rw [other u here]
    exact {
      apart := inv.apart
      good := good'
      word := by simpa only [holders] using word.trans inv.word
      one := fun u v first second => inv.one u v ((holders u).mp first) ((holders v).mp second)
      rest := rest }
  | taken free word _ holds =>
    have only : ∀ u, (Function.update s.threads t th' u).holds → u = t := by
      intro u holds
      by_contra here
      rw [other u here] at holds
      exact inv.word.mpr ⟨u, holds⟩ free
    exact {
      apart := inv.apart
      good := good'
      word := iff_of_true word ⟨t, (congrArg Stack.holds self).mpr holds⟩
      one := fun u v first second => (only u first).trans (only v second).symm
      rest := rest }
  | freed held word not =>
    have nobody : ∀ u, ¬ (Function.update s.threads t th' u).holds := by
      intro u holds
      by_cases here : u = t
      · rw [here, self] at holds
        exact not holds
      · rw [other u here] at holds
        exact here (inv.one u t holds held)
    exact {
      apart := inv.apart
      good := good'
      word := iff_of_false (absurd word) fun ⟨u, holds⟩ => nobody u holds
      one := fun u _ holds _ => absurd holds (nobody u)
      rest := rest }

variable [DecidableEq Cpu]

theorem switch_inv (inv : Inv s) (idle : ∀ c', s.running c' ≠ t)
    (yields : (s.threads (s.running c)).top.pc = .out ∨
    (s.threads (s.running c)).top.pc = .asleep) :
    Inv { s with running := Function.update s.running c t } where
  apart := by
    intro d e same
    dsimp only at same
    by_cases first : d = c
    · by_cases second : e = c
      · rw [first, second]
      · rw [first, Function.update_self, Function.update_of_ne second] at same
        exact absurd same.symm (idle e)
    · by_cases second : e = c
      · rw [second, Function.update_self, Function.update_of_ne first] at same
        exact absurd same (idle d)
      · rw [Function.update_of_ne first, Function.update_of_ne second] at same
        exact inv.apart same
  good := inv.good
  word := inv.word
  one := inv.one
  rest u away := by
    by_cases left : u = s.running c
    · rw [left]
      exact yields
    · apply inv.rest u
      intro d same
      by_cases here : d = c
      · exact left (by rw [← same, here])
      · apply away d
        dsimp only
        rw [Function.update_of_ne here, same]

theorem step_inv (inv : Inv s) {always : Bool} {move : Move Cpu Thread}
    (legal : (machine Cpu Thread always).legal s move)
    (stepped : step s move = some s') : Inv s' := by
  cases move with
  | act c a =>
    obtain ⟨⟨locked', th'⟩, acted, same⟩ := Option.map_eq_some_iff.mp stepped
    cases same
    exact act_inv inv acted
  | switch c t =>
    simp only [step] at stepped
    split at stepped
    case isTrue yields =>
      cases stepped
      exact switch_inv inv legal yields
    case isFalse => cases stepped

theorem reach_inv {always : Bool} (apart : Function.Injective running)
    (reach : Reach (machine Cpu Thread always) (boot running) s) : Inv s :=
  reach_invariant Inv (boot_inv apart) (fun _ _ _ inv legal stepped =>
    step_inv inv legal stepped) reach

/-- In whatever order processors, interrupts and switches come, the lock word says whether the lock
    is held, and one context at most holds it. -/
theorem one_holder {always : Bool} (apart : Function.Injective running)
    (reach : Reach (machine Cpu Thread always) (boot running) s) :
    (s.locked ≠ 0 ↔ ∃ t, ∃ x ∈ (s.threads t).contexts, x.holds) ∧
      ∀ (t u : Thread) (i j : Nat) (x y : Context), (s.threads t).contexts[i]? = some x →
      (s.threads u).contexts[j]? = some y →
        x.holds → y.holds → t = u ∧ i = j := by
  have inv := reach_inv apart reach
  refine ⟨inv.word, ?_⟩
  intro t u i j x y first second holds holds'
  obtain rfl := inv.one t u ⟨x, List.mem_of_getElem? first, holds⟩ ⟨y,
    List.mem_of_getElem? second, holds'⟩
  exact ⟨rfl, holder_index (inv.good t) first second holds holds'⟩

end Runs

theorem one_holder_two : ∃ s, Reach (machine Bool Bool false) (boot id) s ∧ s.locked = 1 ∧
    (s.locked ≠ 0 ↔ ∃ t, ∃ x ∈ (s.threads t).contexts, x.holds) ∧
      ∀ (t u : Bool) (i j : Nat) (x y : Context), (s.threads t).contexts[i]? = some x →
      (s.threads u).contexts[j]? = some y →
        x.holds → y.holds → t = u ∧ i = j := by
  have locks : (machine Bool Bool false).legal (boot id) (.act true (.lock false)) :=
    fun same => same
  have runs : ∀ s, (machine Bool Bool false).legal s (.act true .run) := fun _ => trivial
  have reach := Run.cons locks rfl (.cons (runs _) rfl (.nil _))
  exact ⟨_, ⟨_, reach⟩, rfl, one_holder Function.injective_id ⟨_, reach⟩⟩

section Release
variable {Cpu Thread : Type} [DecidableEq Cpu] [DecidableEq Thread] {s s' : State Cpu Thread}
  {running : Cpu → Thread} {c : Cpu}
  {t : Thread}

/-! ## The lock comes free again -/

theorem step_act {a : Act} {locked' : UInt32} {th' : Stack}
    (acted : act s.locked (s.threads (s.running c)) a = some (locked', th')) :
    step s (.act c a) = some (s.put c locked' th') := by
  rw [step, acted]
  rfl

theorem store_frees (always : Bool)
    (pc : (s.threads (s.running c)).top.pc = .store ∨
      (s.threads (s.running c)).top.pc = .sleepStore) :
    ∃ s', Run (machine Cpu Thread always) s [.act c .run] s' ∧ s'.locked = 0 ∧
    s'.running = s.running ∧
      ∀ u, u ≠ s.running c → s'.threads u = s.threads u := by
  obtain ⟨x', done⟩ : ∃ x',
    exec s.locked (s.threads (s.running c)).flag (s.threads (s.running c)).top =
      some (0, (s.threads (s.running c)).flag, x') := by
    rcases pc with pc | pc
    · exact ⟨_, by rw [exec, pc]⟩
    · exact ⟨_, by rw [exec, pc]⟩
  have acted : act s.locked (s.threads (s.running c)) .run =
      some (0, { s.threads (s.running c) with
          flag := (s.threads (s.running c)).flag, top := x' }) := by
    rw [act, done]
    rfl
  exact ⟨_, .cons trivial (step_act acted) (.nil _), rfl, rfl, fun u other => put_other s _ _ other⟩

theorem top_frees (always : Bool) (holds : (s.threads (s.running c)).top.holds) :
    ∃ (acts : List Act) (s' : State Cpu Thread), acts.length ≤ 2 ∧ Run (machine Cpu Thread always) s
    (acts.map (Move.act c)) s' ∧
      s'.locked = 0 ∧ s'.running = s.running ∧ ∀ u, u ≠ s.running c →
      s'.threads u = s.threads u := by
  by_cases pc : (s.threads (s.running c)).top.pc = .inside
  · let storing : Stack := { s.threads (s.running c) with
      top := { (s.threads (s.running c)).top with pc := .store } }
    have acted : act s.locked (s.threads (s.running c)) .unlock = some (s.locked, storing) :=
      if_pos pc
    have pc' : ((s.put c s.locked storing).threads (s.running c)).top.pc = .store := by
      rw [put_self]
    obtain ⟨s', run, free, same, frame⟩ := store_frees (c := c) always (.inl pc')
    have legal : (machine Cpu Thread always).legal s (.act c .unlock) := trivial
    refine ⟨[.unlock, .run], s', by decide, .cons legal (step_act acted) run, free, same, ?_⟩
    intro u other
    rw [frame u other]
    exact put_other s _ _ other
  · obtain ⟨s', run, free, same, frame⟩ := store_frees (c := c) always (holds.resolve_left pc)
    exact ⟨[.run], s', by decide, run, free, same, frame⟩

theorem running_frees (always : Bool) (good : (s.threads (s.running c)).Good)
    (holds : (s.threads (s.running c)).holds)
    (goes : ¬ (s.threads (s.running c)).Blocked) :
    ∃ moves s', Run (machine Cpu Thread always) s moves s' ∧ s'.locked = 0 := by
  by_cases top : (s.threads (s.running c)).top.holds
  · obtain ⟨acts, s', -, run, free, -⟩ := top_frees always top
    exact ⟨_, s', run, free⟩
  · obtain ⟨x, y, stack, before, holds'⟩ : ∃ x y, s.threads (s.running c) =
        ⟨false, x, [(true, y)]⟩ ∧ x.before ∧ y.holds := by
      generalize s.threads (s.running c) = th at *
      cases good with
      | thread flag x => exact absurd (holds_thread.mp holds) top
      | handler x y clear waits =>
        have below := (holds_handler.mp holds).resolve_left top
        exact ⟨x, y, rfl, waits below, below⟩
    have out : x.pc = .out := by
      by_contra inCode
      exact goes (by rw [stack]; exact ⟨rfl, before, inCode⟩)
    have acted : act s.locked (s.threads (s.running c)) .iret = some (s.locked, ⟨true, y, []⟩) := by
      rw [stack]
      exact if_pos out
    have holds'' : ((s.put c s.locked ⟨true, y, []⟩).threads (s.running c)).top.holds := by
      rw [put_self]
      exact holds'
    obtain ⟨acts, s', -, run, free, -⟩ := top_frees (c := c) always holds''
    have legal : (machine Cpu Thread always).legal s (.act c .iret) := trivial
    exact ⟨_, s', .cons legal (step_act acted) run, free⟩

/-- The holder cannot come to its store: a handler above it waits for the lock, or it is on no
    processor and they all wait. -/
def Trapped (s : State Cpu Thread) : Prop :=
  ∃ t, (s.threads t).holds ∧
    ((s.threads t).Blocked ∨ (∀ c, s.running c ≠ t) ∧ ∀ c, (s.threads (s.running c)).Blocked)

theorem comes_to (always : Bool) (idle : ∀ d, s.running d ≠ t)
    (goes : ¬ (s.threads (s.running c)).Blocked)
    (not : ¬ (s.threads (s.running c)).holds) :
    ∃ moves s', Run (machine Cpu Thread always) s moves s' ∧ s'.running c = t ∧
    s'.threads t = s.threads t := by
  have general : ∀ s₁ : State Cpu Thread, s₁.running = s.running →
      ((s₁.threads (s₁.running c)).top.pc = .out ∨ (s₁.threads (s₁.running c)).top.pc = .asleep) →
      Run (machine Cpu Thread always) s₁ [.switch c t] { s₁ with
          running := Function.update s₁.running c t } := by
    intro s₁ same yields
    have legal : (machine Cpu Thread always).legal s₁ (.switch c t) := by
      intro d
      rw [same]
      exact idle d
    exact .cons legal (if_pos yields) (.nil _)
  rcases comes_out s.locked goes not with yields | ⟨a, th', which, acted, out⟩
  · exact ⟨_, _, general s rfl yields, Function.update_self .., rfl⟩
  · have legal : (machine Cpu Thread always).legal s (.act c a) := by
      rcases which with rfl | rfl <;> trivial
    have next :=
      general (s.put c s.locked th') rfl
        (.inl ((congrArg (·.top.pc) (put_self s c s.locked th')).trans out))
    exact ⟨_, _, .cons legal (step_act acted) next, Function.update_self ..,
      put_other s s.locked th' (idle c).symm⟩

theorem free_reached {always : Bool} (inv : Inv s) (held : s.locked ≠ 0) (goes : ¬ Trapped s) :
    ∃ moves s', Run (machine Cpu Thread always) s moves s' ∧ s'.locked = 0 := by
  obtain ⟨t, holds⟩ := inv.word.mp held
  by_cases runs : ∃ c, s.running c = t
  · obtain ⟨c, rfl⟩ := runs
    exact running_frees always (inv.good _) holds fun blocked => goes ⟨_, holds, .inl blocked⟩
  · have idle : ∀ c, s.running c ≠ t := fun c same => runs ⟨c, same⟩
    obtain ⟨c, free⟩ : ∃ c, ¬ (s.threads (s.running c)).Blocked := by
      by_contra all
      exact goes ⟨t, holds, .inr ⟨idle, fun c => Classical.byContradiction fun free =>
        all ⟨c, free⟩⟩⟩
    obtain ⟨moves, s₁, run, here, frame⟩ := comes_to (c := c) always idle free fun other =>
      idle c (inv.one _ _ other holds)
    have good : (s₁.threads (s₁.running c)).Good := by
      rw [here, frame]
      exact inv.good t
    have holds₁ : (s₁.threads (s₁.running c)).holds := by
      rw [here, frame]
      exact holds
    have goes₁ : ¬ (s₁.threads (s₁.running c)).Blocked := by
      rw [here, frame]
      exact fun blocked => goes ⟨t, holds, .inl blocked⟩
    obtain ⟨moves', s', run', unlocked⟩ := running_frees always good holds₁ goes₁
    exact ⟨_, s', run_append run run', unlocked⟩

theorem step_trapped {always : Bool} (inv : Inv s) (trapped : Trapped s) {move : Move Cpu Thread}
    (legal : (machine Cpu Thread always).legal s move) (stepped : step s move = some s') :
    Trapped s' := by
  obtain ⟨t, holds, why⟩ := trapped
  have taken : s.locked ≠ 0 := inv.word.mpr ⟨t, holds⟩
  cases move with
  | act c a =>
    obtain ⟨⟨locked', th'⟩, acted, same⟩ := Option.map_eq_some_iff.mp stepped
    cases same
    show Trapped (s.put c locked' th')
    by_cases own : t = s.running c
    · subst own
      have blocked := why.resolve_right fun idle => idle.1 c rfl
      obtain ⟨blocked', below⟩ := act_blocked acted taken blocked
      refine ⟨s.running c, ?_, .inl ?_⟩
      · rw [put_self, before_holds blocked'.2.1, below, ← before_holds blocked.2.1]
        exact holds
      · rw [put_self]
        exact blocked'
    · refine ⟨t, ?_, ?_⟩
      · rw [put_other s _ _ own]
        exact holds
      · rw [put_other s _ _ own]
        refine why.imp_right fun idle => ⟨idle.1, fun d => ?_⟩
        show ((s.put c locked' th').threads (s.running d)).Blocked
        by_cases here : s.running d = s.running c
        · rw [here, put_self]
          exact (act_blocked acted taken (idle.2 c)).1
        · rw [put_other s _ _ here]
          exact idle.2 d
  | switch c u =>
    simp only [step] at stepped
    split at stepped
    case isTrue yields =>
      cases stepped
      rcases why with blocked | ⟨-, all⟩
      · exact ⟨t, holds, .inl blocked⟩
      · obtain ⟨-, before, inCode⟩ := all c
        rcases yields with out | asleep
        · exact absurd out inCode
        · simp [Context.before, asleep] at before
    case isFalse => cases stepped

/-- A lock that is taken can come free again exactly if its holder is not trapped. -/
theorem released_iff {always : Bool} (apart : Function.Injective running)
    (reach : Reach (machine Cpu Thread always) (boot running) s) (held : s.locked ≠ 0) :
    (∃ moves s', Run (machine Cpu Thread always) s moves s' ∧ s'.locked = 0) ↔ ¬ Trapped s := by
  have inv := reach_inv apart reach
  constructor
  · intro ⟨moves, s', run, free⟩ trapped
    have kept : Inv s' ∧ Trapped s' :=
      run_invariant (fun u => Inv u ∧ Trapped u)
        (fun _ _ _ both legal stepped =>
          ⟨step_inv both.1 legal stepped, step_trapped both.1 both.2 legal stepped⟩)
          run ⟨inv, trapped⟩
    obtain ⟨inv', t, holds, -⟩ := kept
    exact inv'.word.mpr ⟨t, holds⟩ free
  · exact free_reached inv held

end Release

theorem released_iff_interrupted : ∃ s, Reach (machine Unit Unit false) (boot id) s ∧
    s.locked ≠ 0 ∧ Trapped s ∧
    ((∃ moves s', Run (machine Unit Unit false) s moves s' ∧ s'.locked = 0) ↔ ¬ Trapped s) := by
  have locks : ∀ s, (machine Unit Unit false).legal s (.act () (.lock false)) := fun _ same => same
  have runs : ∀ s, (machine Unit Unit false).legal s (.act () .run) := fun _ => trivial
  have interrupts : ∀ s, (machine Unit Unit false).legal s (.act () .interrupt) := fun _ => trivial
  have reach :=
    Run.cons (locks (boot id)) rfl
      (.cons (runs _) rfl (.cons (interrupts _) rfl (.cons (locks _) rfl (.nil _))))
  have trapped : ∀ s : State Unit Unit, s.threads () =
      ⟨false, ⟨.exchange, false, false⟩, [(true, ⟨.inside, false, false⟩)]⟩ → Trapped s := by
    intro s stack
    refine ⟨(), ?_, .inl ?_⟩
    · rw [stack, holds_handler]
      exact .inr (.inl rfl)
    · rw [stack]
      exact ⟨rfl, .inr (.inr (.inr (.inl rfl))), by decide⟩
  exact ⟨_, ⟨_, reach⟩, by decide, trapped _ rfl,
    released_iff Function.injective_id ⟨_, reach⟩ (by decide)⟩

/-! ## Callers that save the flags -/

def Context.deep (x : Context) : Prop := x.pc ≠ .out ∧ x.pc ≠ .pushf ∧ x.pc ≠ .cli

structure Stack.Saving (th : Stack) : Prop where
  saves : ∀ x ∈ th.contexts, x.pc ≠ .out → x.saves = true
  masked : th.top.deep → th.flag = false
  below : ∀ p ∈ th.below, ¬ p.2.deep

section Saving
variable {locked locked' : UInt32} {flag flag' : Bool} {x x' : Context} {th th' : Stack} {a : Act}

theorem holds_deep (holds : x.holds) : x.deep := by
  unfold Context.deep
  rcases holds with pc | pc | pc <;> simp [pc]

theorem exec_saving (done : exec locked flag x = some (locked', flag', x'))
    (saves : x.pc ≠ .out → x.saves = true)
    (masked : x.deep → flag = false) : (x'.pc ≠ .out → x'.saves = true) ∧
    (x'.deep → flag' = false) := by
  unfold exec at done
  unfold Context.deep at masked ⊢
  split at done
  case h_9 | h_10 => cases done
  all_goals
    rename_i pc
    cases done
    simp_all

theorem act_saving (acted : act locked th a = some (locked', th'))
    (always : ∀ saves, a = .lock saves → saves = true)
    (saving : th.Saving) : th'.Saving := by
  obtain ⟨saves, masked, below⟩ := saving
  have saves' : th.top.pc ≠ .out → th.top.saves = true := saves th.top (List.mem_cons_self ..)
  have rest : ∀ p ∈ th.below, p.2.pc ≠ .out → p.2.saves = true :=
    fun p member => saves p.2 (List.mem_cons_of_mem _ (List.mem_map_of_mem member))
  have whole : ∀ (flag : Bool) (x : Context), (x.pc ≠ .out → x.saves = true) →
    (x.deep → flag = false) →
      Stack.Saving ⟨flag, x, th.below⟩ := by
    intro flag x top off
    refine ⟨?_, off, below⟩
    intro y member
    rcases List.mem_cons.mp member with rfl | member
    · exact top
    · obtain ⟨p, inside, rfl⟩ := List.mem_map.mp member
      exact rest p inside
  cases a with
  | run =>
    obtain ⟨⟨l, b, x⟩, done, same⟩ := Option.map_eq_some_iff.mp acted
    cases same
    obtain ⟨top, off⟩ := exec_saving done saves' masked
    exact whole _ _ top off
  | lock saves =>
    obtain rfl := always saves rfl
    simp only [act] at acted
    split at acted
    case isTrue pc =>
      cases acted
      exact whole _ _ (fun _ => rfl) fun deep => absurd rfl deep.2.1
    case isFalse => cases acted
  | unlock | sleep =>
    simp only [act] at acted
    split at acted
    case isTrue pc =>
      cases acted
      have inCode : th.top.pc ≠ .out := by simp [pc]
      exact whole _ _ (fun _ => saves' inCode) fun _ => masked (holds_deep (.inl pc))
    case isFalse => cases acted
  | interrupt =>
    simp only [act] at acted
    split at acted
    case isTrue on =>
      cases acted
      refine ⟨?_, fun _ => rfl, ?_⟩
      · intro y member
        rcases List.mem_cons.mp member with rfl | member
        · exact fun out => absurd rfl out
        · rcases List.mem_cons.mp member with rfl | member
          · exact saves'
          · obtain ⟨p, inside, rfl⟩ := List.mem_map.mp member
            exact rest p inside
      · intro p member
        rcases List.mem_cons.mp member with rfl | member
        · intro deep
          rw [masked deep] at on
          cases on
        · exact below p member
    case isFalse => cases acted
  | iret =>
    simp only [act] at acted
    split at acted
    case h_1 b x under stack =>
      split at acted
      case isTrue pc =>
        cases acted
        rw [stack] at below rest
        refine ⟨?_, fun deep => absurd deep (below _ (List.mem_cons_self ..)),
          fun p member => below p (List.mem_cons_of_mem _ member)⟩
        intro y member
        rcases List.mem_cons.mp member with rfl | member
        · exact rest (b, y) (List.mem_cons_self ..)
        · obtain ⟨p, inside, rfl⟩ := List.mem_map.mp member
          exact rest p (List.mem_cons_of_mem _ inside)
      case isFalse => cases acted
    case h_2 => cases acted

end Saving

section Progress
variable {Cpu Thread : Type} {s s' : State Cpu Thread}
  {running : Cpu → Thread} {c : Cpu} {t : Thread}

theorem boot_saving (t : Thread) : ((boot running).threads t).Saving where
  saves x member inCode := by
    rw [List.mem_singleton.mp member] at inCode
    exact absurd rfl inCode
  masked deep := absurd rfl deep.1
  below _ member := by cases member

/-- A context behind `cli` runs on a processor, with interrupts off. -/
theorem deep_runs (inv : Inv s) (saving : (s.threads t).Saving) {x : Context}
    (member : x ∈ (s.threads t).contexts)
    (deep : x.deep) (awake : x.pc ≠ .asleep) : x = (s.threads t).top ∧ (s.threads t).flag = false ∧
    ∃ c, s.running c = t := by
  have top : x = (s.threads t).top := by
    rcases List.mem_cons.mp member with same | below
    · exact same
    · obtain ⟨p, inside, rfl⟩ := List.mem_map.mp below
      exact absurd deep (saving.below p inside)
  refine ⟨top, saving.masked (top ▸ deep), ?_⟩
  by_contra idle
  rcases inv.rest t fun c same => idle ⟨c, same⟩ with out | asleep
  · exact deep.1 (top ▸ out)
  · exact awake (top ▸ asleep)

variable [DecidableEq Cpu] [DecidableEq Thread]

theorem step_saving (saving : ∀ t, (s.threads t).Saving) {move : Move Cpu Thread}
    (legal : (machine Cpu Thread true).legal s move)
    (stepped : step s move = some s') : ∀ t, (s'.threads t).Saving := by
  cases move with
  | act c a =>
    obtain ⟨⟨locked', th'⟩, acted, same⟩ := Option.map_eq_some_iff.mp stepped
    cases same
    have always : ∀ saves, a = .lock saves → saves = true := by
      rintro saves rfl
      exact legal rfl
    intro t
    show ((s.put c locked' th').threads t).Saving
    by_cases own : t = s.running c
    · rw [own, put_self]
      exact act_saving acted always (saving _)
    · rw [put_other s _ _ own]
      exact saving t
  | switch c u =>
    simp only [step] at stepped
    split at stepped
    case isTrue =>
      cases stepped
      exact saving
    case isFalse => cases stepped

theorem exchange_takes (always : Bool) (free : s.locked = 0)
    (pc : (s.threads (s.running c)).top.pc = .exchange) :
    ∃ s', Run (machine Cpu Thread always) s [.act c .run] s' ∧
    (s'.threads (s.running c)).top.pc = .inside := by
  have acted : act s.locked (s.threads (s.running c)) .run =
      some (1, { s.threads (s.running c) with
          top := { (s.threads (s.running c)).top with pc := .inside } }) := by
    simp [act, exec, pc, free]
  have legal : (machine Cpu Thread always).legal s (.act c .run) := trivial
  exact ⟨_, .cons legal (step_act acted) (.nil _), by rw [put_self]⟩

theorem free_taken (always : Bool) (free : s.locked = 0)
    (waits : (s.threads (s.running c)).top.pc = .exchange ∨
    (s.threads (s.running c)).top.pc = .load) :
    ∃ (moves : List (Move Cpu Thread)) (s' : State Cpu Thread), moves.length ≤ 2 ∧
    Run (machine Cpu Thread always) s moves s' ∧
      (s'.threads (s.running c)).top.pc = .inside := by
  rcases waits with pc | pc
  · obtain ⟨s', run, inside⟩ := exchange_takes (c := c) always free pc
    exact ⟨[.act c .run], s', Nat.le_succ 1, run, inside⟩
  · let next : Stack := { s.threads (s.running c) with
      top := { (s.threads (s.running c)).top with pc := .exchange } }
    have acted : act s.locked (s.threads (s.running c)) .run = some (s.locked, next) := by
      simp [act, exec, pc, free, next]
    have pc' : ((s.put c s.locked next).threads (s.running c)).top.pc = .exchange := by
      rw [put_self]
    obtain ⟨s', run, inside⟩ := exchange_takes (c := c) (s := s.put c s.locked next) always free pc'
    have legal : (machine Cpu Thread always).legal s (.act c .run) := trivial
    exact ⟨[.act c .run, .act c .run], s', Nat.le_refl 2, .cons legal (step_act acted) run, inside⟩

/-- Where every caller saves the flags, whoever holds the lock runs with interrupts off and is two
    instructions or less from giving it back, and whoever waits can have it four instructions later.
    -/
theorem irqsave_progress (apart : Function.Injective running)
    (reach : Reach (machine Cpu Thread true) (boot running) s) :
    (∀ t, ∀ x ∈ (s.threads t).contexts, x.holds →
    ∃ (c : Cpu) (acts : List Act) (s' : State Cpu Thread), s.running c = t ∧
      (s.threads t).flag = false ∧ acts.length ≤ 2 ∧
      Run (machine Cpu Thread true) s (acts.map (Move.act c)) s' ∧ s'.locked = 0) ∧
    ∀ t, ∀ x ∈ (s.threads t).contexts, x.pc = .exchange ∨
    x.pc = .load → ∃ (moves : List (Move Cpu Thread)) (s' : State Cpu Thread),
      moves.length ≤ 4 ∧ Run (machine Cpu Thread true) s moves s' ∧
      (s'.threads t).top.pc = .inside := by
  have inv := reach_inv apart reach
  have saving : ∀ t, (s.threads t).Saving :=
    reach_invariant (fun s => ∀ t, (s.threads t).Saving) boot_saving
      (fun _ _ _ kept legal stepped => step_saving kept legal stepped) reach
  have awake {x : Context} (holds : x.holds) : x.pc ≠ .asleep := by
    rcases holds with pc | pc | pc <;> simp [pc]
  constructor
  · intro t x member holds
    obtain ⟨rfl, off, c, rfl⟩ := deep_runs inv (saving t) member (holds_deep holds) (awake holds)
    obtain ⟨acts, s', few, run, free, -⟩ := top_frees true holds
    exact ⟨c, acts, s', rfl, off, few, run, free⟩
  · intro t x member waits
    have deep : x.deep := by
      unfold Context.deep
      rcases waits with pc | pc <;> simp [pc]
    have awake' : x.pc ≠ .asleep := by rcases waits with pc | pc <;> simp [pc]
    obtain ⟨rfl, -, c, rfl⟩ := deep_runs inv (saving t) member deep awake'
    by_cases free : s.locked = 0
    · obtain ⟨moves, s', few, run, inside⟩ := free_taken true free waits
      exact ⟨moves, s', by omega, run, inside⟩
    · obtain ⟨u, y, member', holds⟩ := inv.word.mp free
      obtain ⟨rfl, -, d, rfl⟩ := deep_runs inv (saving u) member' (holds_deep holds) (awake holds)
      obtain ⟨acts, s₁, few, run, free₁, same, frame⟩ := top_frees true holds
      have apart' : s.running c ≠ s.running d := by
        intro same
        rw [← same] at holds
        unfold Context.holds at holds
        rcases waits with pc | pc <;> simp [pc] at holds
      have waits₁ : (s₁.threads (s₁.running c)).top.pc = .exchange ∨
          (s₁.threads (s₁.running c)).top.pc = .load := by
        rw [same, frame _ apart']
        exact waits
      obtain ⟨moves, s', few', run', inside⟩ := free_taken (c := c) true free₁ waits₁
      rw [same] at inside
      refine ⟨_, s', ?_, run_append run run', inside⟩
      rw [List.length_append, List.length_map]
      omega

end Progress

theorem irqsave_progress_inside : ∃ s, Reach (machine Unit Unit true) (boot id) s ∧
    (s.threads ()).top.pc = .inside ∧
    (∀ t, ∀ x ∈ (s.threads t).contexts, x.holds →
    ∃ (c : Unit) (acts : List Act) (s' : State Unit Unit), s.running c = t ∧
      (s.threads t).flag = false ∧ acts.length ≤ 2 ∧
      Run (machine Unit Unit true) s (acts.map (Move.act c)) s' ∧ s'.locked = 0) ∧
    ∀ t, ∀ x ∈ (s.threads t).contexts, x.pc = .exchange ∨
    x.pc = .load → ∃ (moves : List (Move Unit Unit)) (s' : State Unit Unit),
      moves.length ≤ 4 ∧ Run (machine Unit Unit true) s moves s' ∧
      (s'.threads t).top.pc = .inside := by
  have locks : (machine Unit Unit true).legal (boot id) (.act () (.lock true)) := fun _ => rfl
  have runs : ∀ s, (machine Unit Unit true).legal s (.act () .run) := fun _ => trivial
  have reach :=
    Run.cons locks rfl (.cons (runs _) rfl (.cons (runs _) rfl (.cons (runs _) rfl (.nil _))))
  exact ⟨_, ⟨_, reach⟩, rfl, irqsave_progress Function.injective_id ⟨_, reach⟩⟩

end Spinlock
