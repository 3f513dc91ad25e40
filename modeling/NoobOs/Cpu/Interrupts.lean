import NoobOs.Cpu.Entry
import NoobOs.Driver.Madt

/-!
Device interrupts: `ioapic_set_irq` and `lapic_eoi` of `apic.c`, `register_irq` and `irq_handler` of
`irq.c`. A line of the machine is at the pin of the IO-APIC that `irq2gsi` gives; the entry of the
pin has a vector, which the local controller gives the processor in its turn, and the gate of the
vector leads to `irq_handler`. The entries are those of one IO-APIC, from its first register on.
-/
namespace Interrupts
open StackMachine ByteMemory Entry
open Madt (Apic irq2gsi)

/-! ## The IO-APIC -/

structure IoApic where
  regsel : UInt8
  regs : UInt8 → Word

def ioapicWrite (io : IoApic) (reg : UInt8) (value : Word) : IoApic :=
  ⟨reg, Function.update io.regs reg value⟩

/-- The register of a pin's entry, the low half or the high one, as the 8 bits that `ioapic_write`
    takes. -/
def pinReg (gsi half : Nat) : UInt8 := UInt8.ofNat (0x10 + gsi * 2 + half)

def entry (a : Apic) (vect : Nat) : BitVec 64 :=
  BitVec.ofNat 64 vect ||| (a.lapicId.toBitVec.setWidth 64 <<< 56)

def ioapicSetIrq (a : Apic) (io : IoApic) (irq vect : Nat) : IoApic :=
  let gsi := irq2gsi a irq
  let io := ioapicWrite io (pinReg gsi 0) ((entry a vect).setWidth 32)
  ioapicWrite io (pinReg gsi 1) ((entry a vect >>> 32).setWidth 32)

/-- What the hardware does with a pin: an entry that is not masked, of fixed delivery to a physical
    id, on an edge of a line that is high, sends its vector there. -/
def redirection (io : IoApic) (pin : Nat) : Option (UInt8 × Nat) :=
  let low := io.regs (pinReg pin 0)
  let high := io.regs (pinReg pin 1)
  if (low >>> 8) &&& 0x1ff = 0 then
    some (UInt8.ofBitVec ((high >>> 24).setWidth 8), (low.setWidth 8).toNat)
  else none

/-! ## The local controller -/

/-- The vectors that are requested and those in service, each with the highest first. -/
structure Lapic where
  requested : List Nat
  service : List Nat

def insertDown (v : Nat) : List Nat → List Nat
  | [] => [v]
  | w :: ws => if v = w then w :: ws else if w < v then v :: w :: ws else w :: insertDown v ws

def Lapic.request (l : Lapic) (v : Nat) : Lapic := { l with requested := insertDown v l.requested }

/-- The processor gets the highest request, if its class of sixteen vectors is above those in
    service. -/
def Lapic.next (l : Lapic) : Option (Nat × Lapic) :=
  match l.requested with
  | [] => none
  | v :: vs => if l.service.all (· / 16 < v / 16) then some (v, ⟨vs, v :: l.service⟩) else none

def lapicEoi (l : Lapic) : Lapic := { l with service := l.service.tail }

def generalEoi (l : Lapic) : Lapic := lapicEoi l

/-! ## irq.c -/

def maxDesc : Nat := 40
def descExists : UInt8 := 0x80

structure IrqDesc where
  irq : Nat
  count : Word
  flg : UInt8
  name : String
  chipname : String

/-- `irq_hand` and `irq_descs`; a handler is its address. -/
structure Irqs where
  io : IoApic
  hand : Nat → Word
  descs : Nat → IrqDesc

def irq2flg (a : Apic) (irq : Nat) : UInt8 :=
  if (a.irqOverrides irq).flg &&& Madt.overrideExists ≠ 0 then (a.irqOverrides irq).flg &&& 0xf
  else 0

/-- `none` is a store past the end of `irq_hand`. -/
def registerIrq (a : Apic) (s : Irqs) (r : Word) (no : Nat) (name : String) : Option Irqs :=
  if no < 16 then
    some {
      io := ioapicSetIrq a s.io no (no + 32)
      hand := Function.update s.hand no r
      descs := Function.update s.descs no ⟨irq2gsi a no, 0, irq2flg a no ||| descExists,
      name, "IO-APIC"⟩ }
  else none

inductive Outcome where
  | quiet
  | unhandled (irq : Nat)
  | calls (irq : Nat) (e : Word)

/-- It reads `int_no` of the frame; `none` is a use of `irq_descs` past its end. -/
def irqHandler (s : Irqs) (intNo : Word) : Option (Irqs × Outcome) :=
  let i := (intNo - 32).toNat
  if i < maxDesc then
    let d := s.descs i
    let s :=
      if d.flg &&& descExists ≠ 0 then
        { s with descs := Function.update s.descs i { d with count := d.count + 1 } }
      else s
    if intNo.toNat < 32 ∨ 48 ≤ intNo.toNat then some (s, .quiet)
    else if s.hand i = 0 then some (s, .unhandled i)
    else some (s, .calls i (s.hand i))
  else none

def ioapicInit (a : Apic) (io : IoApic) : IoApic :=
  ioapicSetIrq a (ioapicSetIrq a (ioapicSetIrq a io 0 32) 1 33) 4 36

def bootIrqs (a : Apic) (io : IoApic) : Irqs :=
  ⟨ioapicInit a io, fun _ => 0, fun _ => ⟨0, 0, 0, "", ""⟩⟩

/-! ## Runs -/

structure System where
  irqs : Irqs
  lapic : Lapic

def bootSystem (a : Apic) (io : IoApic) : System := ⟨bootIrqs a io, ⟨[], []⟩⟩

/-- `accept` is a processor that takes interrupts. -/
inductive Event where
  | register (r : Word) (no : Nat) (name : String)
  | raise (pin : Nat)
  | accept

def raise (a : Apic) (x : System) (pin : Nat) : System :=
  match redirection x.irqs.io pin with
  | none => x
  | some (dest, v) => if dest = a.lapicId then { x with lapic := x.lapic.request v } else x

section Handlers
-- whether the handler at an address sends an end of interrupt, as those of the source do
variable (eoi : Word → Bool)

/-- `irq_handler` sends none itself. -/
def Outcome.Ended : Outcome → Prop
  | .quiet => True
  | .unhandled _ => False
  | .calls _ e => eoi e

instance (o : Outcome) : Decidable (o.Ended eoi) := by
  cases o <;> unfold Outcome.Ended <;> infer_instance

/-- The rest of the way from the vector to `irq_handler` is `interrupt_served`. -/
def accept (x : System) : Option (System × Outcome) :=
  match x.lapic.next with
  | none => some (x, .quiet)
  | some (v, l) => do
    let (s, o) ← irqHandler x.irqs (BitVec.ofNat 32 v)
    pure (⟨s, if o.Ended eoi then generalEoi l else l⟩, o)

def step (a : Apic) (x : System) : Event → Option (System × Outcome)
  | .register r no name => (registerIrq a x.irqs r no name).map fun s => (⟨s, x.lapic⟩, .quiet)
  | .raise pin => some (raise a x pin, .quiet)
  | .accept => accept eoi x

def run (a : Apic) : System → List Event → Option (System × List Outcome)
  | x, [] => some (x, [])
  | x, e :: es => do
    let (x, o) ← step eoi a x e
    let (x, os) ← run a x es
    pure (x, o :: os)

end Handlers

/-! ## What it is for -/

/-- Each pin has the line that was set up for it last, and each line that is registered its last
    handler and the number of interrupts since. The lines that wait come highest first, and none
    comes while an interrupt is not ended. -/
structure Table where
  owner : Nat → Option Nat
  lines : Nat → Option (Word × Nat)
  waiting : List Nat
  busy : Bool

def Table.own (a : Apic) (t : Table) (no : Nat) : Table :=
  { t with owner := Function.update t.owner (irq2gsi a no) (some no) }

def Table.empty : Table := ⟨fun _ => none, fun _ => none, [], false⟩

def Table.boot (a : Apic) : Table := ((Table.empty.own a 0).own a 1).own a 4

def Table.raise (t : Table) (pin : Nat) : Table :=
  match t.owner pin with
  | none => t
  | some n => { t with waiting := insertDown n t.waiting }

/-- What a line that comes gives, and the line then. -/
def Table.serve (t : Table) (n : Nat) : Outcome × Option (Word × Nat) :=
  match t.lines n with
  | none => (.unhandled n, none)
  | some (e, k) => (if e = 0 then .unhandled n else .calls n e, some (e, k + 1))

section Handlers
variable (eoi : Word → Bool)

def Table.accept (t : Table) : Table × Outcome :=
  match t.waiting with
  | [] => (t, .quiet)
  | n :: ns =>
    if t.busy then (t, .quiet)
    else
      let (o, line) := t.serve n
      ({ t with lines := Function.update t.lines n line, waiting := ns, busy := ¬ o.Ended eoi }, o)

def Table.step (a : Apic) (t : Table) : Event → Table × Outcome
  | .register r no _ =>
    ({ t.own a no with lines := Function.update t.lines no (some (r, 0)) }, .quiet)
  | .raise pin => (t.raise pin, .quiet)
  | .accept => t.accept eoi

def Table.run (a : Apic) : Table → List Event → Table × List Outcome
  | t, [] => (t, [])
  | t, e :: es =>
    let (t, o) := t.step eoi a e
    let (t, os) := t.run a es
    (t, o :: os)

end Handlers

/-- Lines of the sixteen, and pins whose registers have numbers of 8 bits. -/
def Event.Ok : Event → Prop
  | .register _ no _ => no < 16
  | .raise pin => pin < 120
  | .accept => True

def Routable (a : Apic) : Prop := ∀ n < 16, irq2gsi a n < 120

structure Follows (a : Apic) (s : Irqs) (t : Table) : Prop where
  pins : ∀ pin < 120, redirection s.io pin = (t.owner pin).map fun n => (a.lapicId, n + 32)
  known : ∀ pin n, t.owner pin = some n → n < 16
  hand : ∀ n < 16, s.hand n = ((t.lines n).map Prod.fst).getD 0
  exist : ∀ n < 16, ((s.descs n).flg &&& descExists ≠ 0 ↔ (t.lines n).isSome)
  counts : ∀ n < 16, ∀ e k, t.lines n = some (e, k) → (s.descs n).count = BitVec.ofNat 32 k

structure Serves (a : Apic) (x : System) (t : Table) : Prop where
  irqs : Follows a x.irqs t
  lines : ∀ n ∈ t.waiting, n < 16
  requested : x.lapic.requested = t.waiting.map (· + 32)
  service : t.busy = false ∧ x.lapic.service = [] ∨
    t.busy = true ∧ ∃ n < 16, x.lapic.service = [n + 32]

section Pins
variable {a : Apic} {io : IoApic} {s : Irqs} {t : Table} {n pin : Nat}

theorem pinReg_eq {x y i j : Nat} (left : x < 120) (right : y < 120) (half : i < 2)
    (half' : j < 2) :
    pinReg x i = pinReg y j ↔ x = y ∧ i = j := by
  constructor
  · intro same
    have values := congrArg UInt8.toNat same
    rw [pinReg, pinReg, UInt8.toNat_ofNat', UInt8.toNat_ofNat'] at values
    omega
  · rintro ⟨rfl, rfl⟩
    rfl

theorem entry_low (a : Apic) (vect : Nat) : (entry a vect).setWidth 32 = BitVec.ofNat 32 vect := by
  apply BitVec.eq_of_getLsbD_eq
  intro i inside
  simp only [entry, BitVec.getLsbD_setWidth, BitVec.getLsbD_or, BitVec.getLsbD_shiftLeft,
    BitVec.getLsbD_ofNat]
  simp [inside, show i < 64 by omega, show i < 56 by omega]

theorem entry_high (a : Apic) {vect : Nat} (small : vect < 256) :
    (((entry a vect >>> 32).setWidth 32) >>> 24).setWidth 8 = a.lapicId.toBitVec := by
  apply BitVec.eq_of_getLsbD_eq
  intro i inside
  have high : vect.testBit (32 + (24 + i)) = false :=
    Nat.testBit_lt_two_pow (Nat.lt_of_lt_of_le small
      (Nat.pow_le_pow_right (n := 2) (by decide) (show 8 ≤ 32 + (24 + i) by omega)))
  simp only [entry, BitVec.getLsbD_setWidth, BitVec.getLsbD_or, BitVec.getLsbD_shiftLeft,
    BitVec.getLsbD_ofNat, BitVec.getLsbD_ushiftRight]
  simp [inside, high, show 32 + (24 + i) < 64 by omega, show ¬ 32 + (24 + i) < 56 by omega,
    show 24 + i < 32 by omega,
    show 32 + (24 + i) - 56 = i by omega, show i < 64 by omega]

theorem ioapicSetIrq_regs (a : Apic) (io : IoApic) (n vect : Nat) (r : UInt8) :
    (ioapicSetIrq a io n vect).regs r =
    if r = pinReg (irq2gsi a n) 1 then (entry a vect >>> 32).setWidth 32
    else if r = pinReg (irq2gsi a n) 0 then BitVec.ofNat 32 vect else io.regs r := by
  rw [← entry_low a vect]
  simp only [ioapicSetIrq, ioapicWrite, Function.update_apply]

theorem fixed_vector {vect : Nat} (small : vect < 256) :
    (BitVec.ofNat 32 vect >>> 8) &&& 0x1ff = 0 ∧
    ((BitVec.ofNat 32 vect).setWidth 8).toNat = vect := by
  constructor
  · apply BitVec.eq_of_toNat_eq
    rw [BitVec.toNat_and, BitVec.toNat_ushiftRight, BitVec.toNat_ofNat, Nat.mod_eq_of_lt (by omega),
      Nat.shiftRight_eq_div_pow,
      Nat.div_eq_of_lt small, Nat.zero_and]
    rfl
  · rw [BitVec.toNat_setWidth, BitVec.toNat_ofNat]
    omega

theorem ioapicSetIrq_pins (routable : irq2gsi a n < 120) {vect : Nat} (small : vect < 256)
    (inside : pin < 120) :
    redirection (ioapicSetIrq a io n vect) pin = if pin = irq2gsi a n then some (a.lapicId, vect)
    else redirection io pin := by
  rw [redirection, ioapicSetIrq_regs, ioapicSetIrq_regs]
  simp only [pinReg_eq inside routable (show 0 < 2 by decide) (show 0 < 2 by decide),
    pinReg_eq inside routable (show 0 < 2 by decide) (show 1 < 2 by decide),
    pinReg_eq inside routable (show 1 < 2 by decide) (show 0 < 2 by decide),
    pinReg_eq inside routable (show 1 < 2 by decide) (show 1 < 2 by decide)]
  by_cases same : pin = irq2gsi a n
  · obtain ⟨clear, vector⟩ := fixed_vector small
    simp only [same, Nat.zero_ne_one, and_false, and_true, if_false, if_true, clear, vector,
      entry_high a small]
  · simp only [same, false_and, if_false]
    rfl

end Pins

section Waiting
variable {n m : Nat} {ws : List Nat}

theorem insertDown_mem : m ∈ insertDown n ws ↔ m = n ∨ m ∈ ws := by
  induction ws with
  | nil => simp [insertDown]
  | cons w ws ih =>
    unfold insertDown
    split
    · rename_i same
      simp [same]
    · split
      · simp
      · rw [List.mem_cons, ih, List.mem_cons]
        tauto

theorem insertDown_map (n k : Nat) (ws : List Nat) :
    (insertDown n ws).map (· + k) = insertDown (n + k) (ws.map (· + k)) := by
  induction ws with
  | nil => rfl
  | cons w ws ih =>
    simp only [insertDown, List.map_cons, Nat.add_right_cancel_iff, Nat.add_lt_add_iff_right]
    split
    · rfl
    · split
      · rfl
      · rw [List.map_cons, ih]

theorem insertDown_first (most : ∀ m ∈ ws, m ≤ n) : ∃ rest, insertDown n ws = n :: rest := by
  cases ws with
  | nil => exact ⟨[], rfl⟩
  | cons w ws =>
    have bound := most w List.mem_cons_self
    unfold insertDown
    split
    · rename_i same
      exact ⟨ws, by rw [same]⟩
    · rename_i other
      rw [if_pos (by omega)]
      exact ⟨w :: ws, rfl⟩

end Waiting

section Runs
variable {a : Apic} {io : IoApic} {s : Irqs} {x : System} {t : Table} {n pin : Nat}
  {eoi : Word → Bool}

theorem own_pins (routable : Routable a) (line : n < 16)
    (pins : ∀ pin < 120, redirection io pin = (t.owner pin).map fun n => (a.lapicId, n + 32)) :
    ∀ pin < 120, redirection (ioapicSetIrq a io n (n + 32)) pin =
    ((t.own a n).owner pin).map fun n => (a.lapicId, n + 32) := by
  intro pin inside
  rw [ioapicSetIrq_pins (routable n line) (by omega) inside]
  simp only [Table.own, Function.update_apply]
  split
  · rfl
  · exact pins pin inside

theorem own_known (line : n < 16) (known : ∀ pin n, t.owner pin = some n → n < 16) :
    ∀ pin m, (t.own a n).owner pin = some m → m < 16 := by
  intro pin m owned
  simp only [Table.own, Function.update_apply] at owned
  split at owned
  · cases owned
    exact line
  · exact known pin m owned

theorem boot_serves (routable : Routable a) (masked : ∀ pin < 120, redirection io pin = none) :
    Serves a (bootSystem a io) (Table.boot a) where
  irqs := {
    pins := own_pins routable (by decide) (own_pins routable (by decide)
      (own_pins (t := Table.empty) routable (by decide) masked))
    known := own_known (by decide) (own_known (by decide)
      (own_known (t := Table.empty) (by decide) fun _ _ owned => by cases owned))
    hand := fun n line => rfl
    exist := fun n line => by
      simp only [bootSystem, bootIrqs, UInt8.zero_and, ne_eq, not_true_eq_false, false_iff]
      exact Bool.false_ne_true
    counts := fun n line e k registered => by cases registered }
  lines := fun n waits => by cases waits
  requested := rfl
  service := Or.inl ⟨rfl, rfl⟩

theorem marked (flags : UInt8) : (flags ||| descExists) &&& descExists ≠ 0 := by
  have same : (flags ||| descExists) &&& descExists = descExists := Madt.marked flags
  rw [same]
  decide

theorem register_follows (serves : Follows a s t) (routable : Routable a) (line : n < 16) (r : Word)
    (name : String) :
    ∃ s', registerIrq a s r n name = some s' ∧
      Follows a s' { t.own a n with lines := Function.update t.lines n (some (r, 0)) } := by
  refine ⟨_, if_pos line, ?_⟩
  exact {
    pins := own_pins routable line serves.pins
    known := own_known line serves.known
    hand := fun m inside => by
      by_cases same : m = n
      · subst same
        simp
      · simp only [Function.update_of_ne same]
        exact serves.hand m inside
    exist := fun m inside => by
      by_cases same : m = n
      · subst same
        simp only [Function.update_self, Option.isSome_some, iff_true]
        exact marked _
      · simp only [Function.update_of_ne same]
        exact serves.exist m inside
    counts := fun m inside e k registered => by
      by_cases same : m = n
      · subst same
        simp only [Function.update_self, Option.some.injEq, Prod.mk.injEq] at registered
        obtain ⟨-, rfl⟩ := registered
        simp
      · simp only [Function.update_of_ne same] at registered ⊢
        exact serves.counts m inside e k registered }

theorem line_index (line : n < 16) : (BitVec.ofNat 32 (n + 32) - 32).toNat = n ∧
    (BitVec.ofNat 32 (n + 32)).toNat = n + 32 := by
  constructor
  · bv_omega
  · bv_omega

/-- What `irq_handler` does for the vector of a line is what the table gives for the line. -/
theorem irqHandler_follows (follows : Follows a s t) (line : n < 16) (waiting : List Nat)
    (busy : Bool) :
    ∃ s', irqHandler s (BitVec.ofNat 32 (n + 32)) = some (s', (t.serve n).1) ∧
      Follows a s' ⟨t.owner, Function.update t.lines n (t.serve n).2, waiting, busy⟩ := by
  obtain ⟨index, number⟩ := line_index line
  have place : n < maxDesc := by
    unfold maxDesc
    omega
  have within : ¬ (n + 32 < 32 ∨ 48 ≤ n + 32) := by omega
  have exist := follows.exist n line
  have hand := follows.hand n line
  simp only [irqHandler, index, number, if_pos place, if_neg within, Table.serve]
  cases registered : t.lines n with
  | none =>
    rw [registered] at exist hand
    have absent : ¬ (s.descs n).flg &&& descExists ≠ 0 := fun present => by cases exist.mp present
    have unset : s.hand n = 0 := hand
    have same : Function.update t.lines n none = t.lines := by
      rw [← registered]
      exact Function.update_eq_self n t.lines
    rw [if_neg absent, if_pos unset, same]
    exact ⟨s, rfl, follows.pins, follows.known, follows.hand, follows.exist, follows.counts⟩
  | some line' =>
    obtain ⟨e, k⟩ := line'
    rw [registered] at exist hand
    have present := exist.mpr rfl
    have handler : s.hand n = e := hand
    rw [if_pos present, handler]
    dsimp only
    refine ⟨{ s with descs := Function.update s.descs n { s.descs n with
      count := (s.descs n).count + 1 } },
      by split <;> rfl, ?_⟩
    exact {
      pins := follows.pins
      known := follows.known
      hand := fun m inside => by
        by_cases same : m = n
        · subst same
          simp [handler]
        · simp only [Function.update_of_ne same]
          exact follows.hand m inside
      exist := fun m inside => by
        by_cases same : m = n
        · subst same
          simp only [Function.update_self, Option.isSome_some, iff_true]
          exact present
        · simp only [Function.update_of_ne same]
          exact follows.exist m inside
      counts := fun m inside e' k' registered' => by
        by_cases same : m = n
        · subst same
          simp only [Function.update_self, Option.some.injEq, Prod.mk.injEq] at registered'
          obtain ⟨-, rfl⟩ := registered'
          simp only [Function.update_self]
          rw [follows.counts m inside e k registered, BitVec.ofNat_add]
          rfl
        · simp only [Function.update_of_ne same] at registered' ⊢
          exact follows.counts m inside e' k' registered' }

theorem raise_serves (serves : Serves a x t) (inside : pin < 120) :
    Serves a (raise a x pin) (t.raise pin) := by
  rw [raise, serves.irqs.pins pin inside, Table.raise]
  cases owned : t.owner pin with
  | none => exact serves
  | some n =>
    rw [Option.map_some]
    simp only [if_pos]
    have line := serves.irqs.known pin n owned
    exact {
      irqs := ⟨serves.irqs.pins, serves.irqs.known, serves.irqs.hand, serves.irqs.exist,
        serves.irqs.counts⟩
      lines := fun m waits => by
        rcases insertDown_mem.mp waits with rfl | waits
        · exact line
        · exact serves.lines m waits
      requested := by rw [insertDown_map, ← serves.requested]; rfl
      service := serves.service }

/-- All lines are of one class, so none comes while one is in service. -/
theorem next_serves (serves : Serves a x t) : x.lapic.next =
    match t.waiting with
    | [] => none
    | n :: ns => if t.busy then none else some (n + 32, ⟨ns.map (· + 32), [n + 32]⟩) := by
  have requested := serves.requested
  cases waiting : t.waiting with
  | nil =>
    rw [waiting] at requested
    rw [Lapic.next, requested]
    rfl
  | cons n ns =>
    rw [waiting] at requested
    have line := serves.lines n (by rw [waiting]; exact List.mem_cons_self)
    rw [Lapic.next, requested]
    rcases serves.service with ⟨free, service⟩ | ⟨busy, m, line', service⟩
    · simp [free, service]
    · have same : ¬ (m + 32) / 16 < (n + 32) / 16 := by omega
      simp [busy, service, same]

theorem accept_serves (serves : Serves a x t) :
    ∃ x', accept eoi x = some (x', (t.accept eoi).2) ∧ Serves a x' (t.accept eoi).1 := by
  have next := next_serves serves
  cases waiting : t.waiting with
  | nil =>
    rw [waiting] at next
    rw [accept, next]
    refine ⟨x, ?_, ?_⟩
    · simp [Table.accept, waiting]
    · simpa [Table.accept, waiting] using serves
  | cons n ns =>
    rw [waiting] at next
    have member : n ∈ t.waiting := by rw [waiting]; exact List.mem_cons_self
    cases free : t.busy with
    | true =>
      rw [free] at next
      rw [accept, next]
      refine ⟨x, ?_, ?_⟩
      · simp [Table.accept, waiting, free]
      · simpa [Table.accept, waiting, free] using serves
    | false =>
      rw [free] at next
      have line := serves.lines n member
      obtain ⟨s', handled, follows⟩ := irqHandler_follows serves.irqs line ns
        (¬ (t.serve n).1.Ended eoi)
      rw [accept, next]
      simp only [Bool.false_eq_true, if_false, handled, Option.bind_eq_bind, Option.bind_some,
        Option.pure_def]
      let l : Lapic := ⟨ns.map (· + 32), [n + 32]⟩
      refine ⟨⟨s', if (t.serve n).1.Ended eoi then generalEoi l else l⟩,
        by simp [Table.accept, waiting, free, l], ?_⟩
      simp only [Table.accept, waiting, free, Bool.false_eq_true, if_false]
      refine ⟨follows, fun m waits =>
        serves.lines m (by rw [waiting]; exact List.mem_cons_of_mem _ waits), ?_, ?_⟩
      · split <;> rfl
      · by_cases ended : (t.serve n).1.Ended eoi
        · exact Or.inl ⟨by simp [ended], by simp [ended, generalEoi, lapicEoi, l]⟩
        · exact Or.inr ⟨by simp [ended], n, line, by simp [ended, l]⟩

variable (eoi)

theorem step_serves (serves : Serves a x t) (routable : Routable a) {e : Event} (ok : e.Ok) :
    ∃ x', step eoi a x e = some (x', (t.step eoi a e).2) ∧ Serves a x' (t.step eoi a e).1 := by
  cases e with
  | register r no name =>
    obtain ⟨s', registered, follows⟩ := register_follows serves.irqs routable ok r name
    refine ⟨⟨s', x.lapic⟩, by rw [step, registered]; rfl, ?_⟩
    exact ⟨follows, serves.lines, serves.requested, serves.service⟩
  | raise pin => exact ⟨_, rfl, raise_serves serves ok⟩
  | accept => exact accept_serves serves

theorem run_serves (serves : Serves a x t) (routable : Routable a) {events : List Event}
    (ok : ∀ e ∈ events, e.Ok) :
    ∃ x', run eoi a x events = some (x', (t.run eoi a events).2) ∧
      Serves a x' (t.run eoi a events).1 := by
  induction events generalizing x t with
  | nil => exact ⟨x, rfl, serves⟩
  | cons e events ih =>
    obtain ⟨x₁, stepped, serves₁⟩ := step_serves eoi serves routable (ok e (List.mem_cons_self ..))
    obtain ⟨x₂, rest, serves₂⟩ := ih serves₁ fun e' member => ok e' (List.mem_cons_of_mem _ member)
    refine ⟨x₂, ?_, serves₂⟩
    rw [run, stepped]
    simp only [Option.bind_eq_bind, Option.bind_some, rest]
    rfl

end Runs

/-! ## Lines of their own -/

def lineStep (n : Nat) (line : Option (Word × Nat)) : Event × Outcome → Option (Word × Nat)
  | (.register r no _, _) => if no = n then some (r, 0) else line
  | (_, .unhandled m) | (_, .calls m _) => if m = n then line.map fun (r, k) => (r, k + 1) else line
  | _ => line

def lineOf (n : Nat) (ran : List (Event × Outcome)) : Option (Word × Nat) :=
  ran.foldl (lineStep n) none

def Distinct (a : Apic) : Prop := ∀ n < 16, ∀ m < 16, irq2gsi a n = irq2gsi a m → n = m

def Held (a : Apic) (t : Table) : Prop :=
  ∀ n < 16, (t.lines n).isSome → t.owner (irq2gsi a n) = some n

section Lines
variable {a : Apic} {t : Table} {n : Nat} {eoi : Word → Bool}

theorem serve_names (t : Table) (n : Nat) :
    (t.serve n).1 = .unhandled n ∨ ∃ e, (t.serve n).1 = .calls n e := by
  unfold Table.serve
  split
  · exact Or.inl rfl
  · rename_i e k _
    by_cases unset : e = 0
    · exact Or.inl (if_pos unset)
    · exact Or.inr ⟨e, if_neg unset⟩

theorem serve_counts (t : Table) (n : Nat) :
    (t.serve n).2 = (t.lines n).map fun (r, k) => (r, k + 1) := by
  unfold Table.serve
  split
  · rename_i unregistered
    rw [unregistered]
    rfl
  · rename_i e k registered
    rw [registered]
    rfl

theorem accept_lines (t : Table) (n : Nat) :
    (t.accept eoi).1.lines n = lineStep n (t.lines n) (.accept, (t.accept eoi).2) := by
  cases waiting : t.waiting with
  | nil => simp [Table.accept, waiting, lineStep]
  | cons m ms =>
    cases free : t.busy with
    | true => simp [Table.accept, waiting, free, lineStep]
    | false =>
      have given : (t.accept eoi).2 = (t.serve m).1 := by simp [Table.accept, waiting, free]
      have lines : (t.accept eoi).1.lines = Function.update t.lines m (t.serve m).2 := by
        simp [Table.accept, waiting, free]
      have counted : lineStep n (t.lines n) (.accept, (t.serve m).1) =
          if m = n then (t.lines n).map (fun (r, k) => (r, k + 1)) else t.lines n := by
        rcases serve_names t m with unhandled | ⟨e, calls⟩
        · rw [unhandled]
          rfl
        · rw [calls]
          rfl
      rw [given, lines, counted, serve_counts]
      by_cases same : n = m
      · subst same
        rw [Function.update_self, if_pos rfl]
      · rw [Function.update_of_ne same, if_neg (Ne.symm same)]

theorem step_lines (t : Table) (n : Nat) (e : Event) :
    (t.step eoi a e).1.lines n = lineStep n (t.lines n) (e, (t.step eoi a e).2) := by
  cases e with
  | register r no name => simp only [Table.step, lineStep, Function.update_apply, eq_comm]
  | raise pin =>
    simp only [Table.step, lineStep, Table.raise]
    split <;> rfl
  | accept => exact accept_lines t n

theorem run_lines (eoi : Word → Bool) (t : Table) (n : Nat) (events : List Event) :
    (t.run eoi a events).1.lines n =
    (events.zip (t.run eoi a events).2).foldl (lineStep n) (t.lines n) := by
  induction events generalizing t with
  | nil => rfl
  | cons e events ih =>
    simp only [Table.run, List.zip_cons_cons, List.foldl_cons]
    rw [ih, step_lines]

theorem register_held (distinct : Distinct a) (held : Held a t) (line : n < 16) (r : Word) :
    Held a { t.own a n with lines := Function.update t.lines n (some (r, 0)) } := by
  intro m inside registered
  simp only [Table.own, Function.update_apply]
  split
  · rename_i same
    rw [distinct m inside n line same]
  · rename_i other
    have apart : m ≠ n := fun same => other (by rw [same])
    simp only [Function.update_of_ne apart] at registered
    exact held m inside registered

theorem lineStep_known (n : Nat) (line : Option (Word × Nat)) (o : Outcome) :
    (lineStep n line (.accept, o)).isSome = line.isSome := by
  cases o with
  | quiet => rfl
  | unhandled m | calls m e =>
    simp only [lineStep]
    split <;> simp

theorem accept_held (held : Held a t) : Held a (t.accept eoi).1 := by
  intro m inside registered
  have owner : (t.accept eoi).1.owner = t.owner := by
    unfold Table.accept
    split
    · rfl
    · split <;> rfl
  rw [accept_lines, lineStep_known] at registered
  rw [owner]
  exact held m inside registered

theorem run_held (eoi : Word → Bool) (distinct : Distinct a) (held : Held a t) {events : List Event}
    (ok : ∀ e ∈ events, e.Ok) : Held a (t.run eoi a events).1 := by
  induction events generalizing t with
  | nil => exact held
  | cons e events ih =>
    refine ih ?_ fun e' member => ok e' (List.mem_cons_of_mem _ member)
    cases e with
    | register r no name => exact register_held distinct held (ok _ List.mem_cons_self) r
    | raise pin =>
      simp only [Table.raise]
      split <;> exact held
    | accept => exact accept_held held

theorem run_free (free : t.busy = false) {events : List Event}
    (ended : ∀ o ∈ (t.run eoi a events).2, o.Ended eoi) : (t.run eoi a events).1.busy = false := by
  induction events generalizing t with
  | nil => exact free
  | cons e events ih =>
    simp only [Table.run, List.forall_mem_cons] at ended
    refine ih ?_ ended.2
    cases e with
    | register r no name => exact free
    | raise pin =>
      simp only [Table.raise]
      split <;> exact free
    | accept =>
      have here := ended.1
      cases waiting : t.waiting with
      | nil => simpa [Table.step, Table.accept, waiting] using free
      | cons n ns => simpa [Table.step, Table.accept, waiting, free] using here

theorem run_busy (busy : t.busy = true) (events : List Event) :
    ∀ o ∈ (t.run eoi a events).2, o = .quiet := by
  induction events generalizing t with
  | nil => simp [Table.run]
  | cons e events ih =>
    have step : (t.step eoi a e).2 = .quiet ∧ (t.step eoi a e).1.busy = true := by
      cases e with
      | register r no name => exact ⟨rfl, busy⟩
      | raise pin =>
        refine ⟨rfl, ?_⟩
        simp only [Table.step, Table.raise]
        split <;> exact busy
      | accept =>
        cases waiting : t.waiting with
        | nil => simp [Table.step, Table.accept, waiting, busy]
        | cons n ns => simp [Table.step, Table.accept, waiting, busy]
    simp only [Table.run, List.forall_mem_cons]
    exact ⟨step.1, ih step.2⟩

end Lines

/-! ## The whole way -/

def reset : IoApic := ⟨0, fun _ => 0x10000⟩

theorem reset_masked : ∀ pin < 120, redirection reset pin = none := by
  intro pin _
  simp [redirection, reset]

def plainApic : Apic := { Madt.boot with lapicId := 0 }

theorem plain_routable : Routable plainApic := by
  intro n line
  have same : irq2gsi plainApic n = n := if_neg (by simp [plainApic, Madt.boot])
  rw [same]
  omega

theorem plain_distinct : Distinct plainApic := by
  intro n _ m _ same
  have own : ∀ n, irq2gsi plainApic n = n := fun n => if_neg (by simp [plainApic, Madt.boot])
  rwa [own, own] at same

section Way
variable {M : Machine} {L : Labels} {a : Apic} {io : IoApic}

/-- Where no two lines share a pin, the descriptor of a registered line has the number of its
    interrupts since, in 32 bits, whatever happened to other lines in between. While every interrupt
    was ended and no higher line waits, raising its pin calls its last handler. -/
theorem last_handler (routable : Routable a) (distinct : Distinct a)
    (masked : ∀ pin < 120, redirection io pin = none) (eoi : Word → Bool) {events : List Event}
    (ok : ∀ e ∈ events, e.Ok) :
    ∃ x os, run eoi a (bootSystem a io) events = some (x, os) ∧
      ∀ n < 16, ∀ r k, lineOf n (events.zip os) = some (r, k) →
        (x.irqs.descs n).count = BitVec.ofNat 32 k ∧
        ((∀ o ∈ os, o.Ended eoi) → x.lapic.service = [] ∧
          ((∀ v ∈ x.lapic.requested, v ≤ n + 32) →
            ∃ y, run eoi a x [.raise (irq2gsi a n), .accept] =
                some (y, [.quiet, if r = 0 then .unhandled n else .calls n r]) ∧
              (y.irqs.descs n).count = BitVec.ofNat 32 (k + 1))) := by
  have boot : Held a (Table.boot a) := fun n _ registered => by cases registered
  have held := run_held eoi distinct boot ok
  obtain ⟨x, ran, serves⟩ := run_serves eoi (boot_serves routable masked) routable ok
  refine ⟨x, _, ran, fun n line r k registered => ?_⟩
  have lines := run_lines (a := a) eoi (Table.boot a) n events
  rw [show (Table.boot a).lines n = none from rfl, ← lineOf, registered] at lines
  refine ⟨serves.irqs.counts n line r k lines, fun ended => ?_⟩
  have free := run_free (a := a) (t := Table.boot a) rfl ended
  have owned := held n line (by rw [lines]; rfl)
  generalize ((Table.boot a).run eoi a events).1 = t at *
  refine ⟨?_, fun highest => ?_⟩
  · rcases serves.service with ⟨-, service⟩ | ⟨busy, -⟩
    · exact service
    · rw [free] at busy
      cases busy
  · have most : ∀ m ∈ t.waiting, m ≤ n := by
      intro m waits
      have bound := highest (m + 32) (by rw [serves.requested]; exact List.mem_map_of_mem waits)
      omega
    obtain ⟨rest, first⟩ := insertDown_first most
    have okay : ∀ e ∈ [Event.raise (irq2gsi a n), .accept], e.Ok := by
      simp only [List.forall_mem_cons, List.not_mem_nil, false_implies, implies_true, and_true]
      exact ⟨routable n line, trivial⟩
    obtain ⟨y, next, serves'⟩ := run_serves eoi serves routable okay
    have outcome : (t.serve n).1 = if r = 0 then .unhandled n else .calls n r := by
      rw [Table.serve, lines]
    have counted : (t.serve n).2 = some (r, k + 1) := by rw [serve_counts, lines]; rfl
    obtain ⟨busy, turn⟩ : ∃ busy, t.run eoi a [.raise (irq2gsi a n), .accept] =
        (⟨t.owner, Function.update t.lines n (t.serve n).2, rest, busy⟩,
          [.quiet, (t.serve n).1]) := by
      refine ⟨¬ (t.serve n).1.Ended eoi, ?_⟩
      simp only [Table.run, Table.step, Table.raise, owned, Table.accept, first, free,
        Bool.false_eq_true, if_false]
      rfl
    rw [turn] at next serves'
    refine ⟨y, by rw [next, outcome], ?_⟩
    exact serves'.irqs.counts n line r (k + 1) (by rw [counted]; exact Function.update_self ..)

theorem last_handler_timer :
    ∃ x, run (fun _ => true) plainApic (bootSystem plainApic reset)
        [.register 0x3300 0 "timer", .raise 0, .accept] =
          some (x, [.quiet, .quiet, .calls 0 0x3300]) ∧
      (x.irqs.descs 0).count = 1 ∧
      ((∀ v ∈ x.lapic.requested, v ≤ 32) →
        ∃ y, run (fun _ => true) plainApic x [.raise 0, .accept] =
            some (y, [.quiet, .calls 0 0x3300]) ∧ (y.irqs.descs 0).count = 2) := by
  have ok : ∀ e ∈ [Event.register 0x3300 0 "timer", .raise 0, .accept], e.Ok := by
    simp [Event.Ok]
  obtain ⟨x, os, ran, lines⟩ := last_handler plain_routable plain_distinct reset_masked
    (fun _ => true) ok
  have outcomes : os = [.quiet, .quiet, .calls 0 0x3300] := by
    have computed : (run (fun _ => true) plainApic (bootSystem plainApic reset)
        [.register 0x3300 0 "timer", .raise 0, .accept]).map Prod.snd =
          some [.quiet, .quiet, .calls 0 0x3300] := rfl
    rw [ran] at computed
    exact Option.some.inj computed
  subst outcomes
  obtain ⟨count, served⟩ := lines 0 (by decide) 0x3300 1 rfl
  exact ⟨x, ran, count, (served (by simp [Outcome.Ended])).2⟩

end Way

end Interrupts
