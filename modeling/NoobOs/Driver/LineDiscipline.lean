import NoobOs.Driver.Tty
import NoobOs.Lib.Runs

/-!
The tty as a queue of edited lines. As long as the line and the ring have room, what is
read is what an editor makes of the input; nothing in the code checks for the room.
-/
namespace Tty
open RingBuffer Runs

def unread (s : State) : List UInt8 := contents ttyBufsiz s.canon

/-- The ring holds the bytes pushed and not popped, and the line is inside its buffer. -/
structure Inv (s : State) : Prop where
  good : Good ttyBufsiz s.canon
  line : s.lineLen ≤ ttyLinesiz
  popped : s.pops ≤ s.sent.length
  queue : unread s = s.sent.drop s.pops

section Ring
variable {s : State}

theorem Inv.seen_eq (inv : Inv s) : seen ttyBufsiz s.canon = s.sent.length - s.pops := by
  rw [← contents_length, ← List.length_drop, ← inv.queue, unread]

theorem allocTty_inv (t : Termios) : Inv (allocTty t) := by
  have good : Good ttyBufsiz (allocTty t).canon := ⟨Nat.zero_lt_succ _, Nat.zero_lt_succ _⟩
  exact ⟨good, Nat.zero_le _, Nat.zero_le _, good.empty_iff.mp rfl⟩

theorem canonPush_inv (inv : Inv s) (room : (unread s).length + 1 < ttyBufsiz) (c : UInt8) :
    Inv (canonPush s c) ∧ unread (canonPush s c) = unread s ++ [c] := by
  rw [unread, contents_length] at room
  obtain ⟨good, more⟩ := inv.good.push_contents room c
  refine ⟨⟨good, inv.line, ?_, ?_⟩, more⟩
  · have most := inv.popped
    have longer : (canonPush s c).sent.length = s.sent.length + 1 := List.length_append
    exact Nat.le_trans most (by omega)
  · have grown : unread (canonPush s c) = unread s ++ [c] := more
    rw [grown, inv.queue]
    exact (List.drop_append_of_le_length inv.popped).symm

theorem canonEmpty_iff (inv : Inv s) : canonEmpty s = true ↔ unread s = [] := by
  rw [canonEmpty, decide_eq_true_eq]
  exact inv.good.empty_iff

theorem canonPop_inv (inv : Inv s) (some' : canonEmpty s = false) :
    Inv (canonPop s).2 ∧ unread s = (canonPop s).1 :: unread (canonPop s).2 := by
  have different : s.canon.r ≠ s.canon.w := of_decide_eq_false some'
  obtain ⟨good, first⟩ := inv.good.pop_contents different
  have queue : unread s = (canonPop s).1 :: unread (canonPop s).2 := first
  have rest := inv.queue
  rw [queue] at rest
  have more : s.pops < s.sent.length := by
    by_contra none'
    rw [List.drop_of_length_le (by omega)] at rest
    simp at rest
  refine ⟨⟨good, inv.line, more, ?_⟩, queue⟩
  have tail := congrArg List.tail rest
  rw [List.tail_cons, List.tail_drop] at tail
  exact tail

end Ring

theorem ttyOutputc_same (s : State) (c : UInt8) :
    ∃ out, ttyOutputc s c = { s with output := out } := by
  unfold ttyOutputc
  split
  · exact ⟨_, rfl⟩
  · exact ⟨_, rfl⟩

theorem echo_same (on : Prop) [Decidable on] (s : State) (c : UInt8) :
    ∃ out, (if on then ttyOutputc s c else s) = { s with output := out } := by
  split
  · exact ttyOutputc_same s c
  · exact ⟨s.output, rfl⟩

theorem Inv.output {s : State} (inv : Inv s) (out : List UInt8) : Inv { s with output := out } :=
  ⟨inv.good, inv.line, inv.popped, inv.queue⟩

/-! ## One byte of input -/

/-- What a byte means under the termios in force. -/
inductive Key where
  | ignore
  | erase
  | text (b : UInt8)

def mapped (tm : Termios) (c : UInt8) : UInt8 :=
  if tm.cIflag &&& iCrnl ≠ 0 ∧ c = 0x0d then 0x0a else c

def keyOf (tm : Termios) (c : UInt8) : Key :=
  if tm.cLflag &&& iSig ≠ 0 ∧ isChar (mapped tm c) (tm.cCc vIntr) then .ignore
  else if tm.cLflag &&& iCanon ≠ 0 then
    if isChar (mapped tm c) (tm.cCc vErase) then .erase
    else if isChar (mapped tm c) (tm.cCc vEof) then .ignore
    else .text (mapped tm c)
  else .text (mapped tm c)

def lineOf (s : State) : List UInt8 := (List.range s.lineLen).map s.lineBuf

/-- There is room in the line for a byte of text, and in the ring for what it sends on. -/
def Roomy (s : State) (c : UInt8) : Prop :=
  ∀ b, keyOf s.termios c = .text b →
    if s.termios.cLflag &&& iCanon ≠ 0 then
      s.lineLen < ttyLinesiz ∧ (b = 0x0a → (unread s).length + (s.lineLen + 1) < ttyBufsiz)
    else (unread s).length + 1 < ttyBufsiz

def Effect (s s' : State) : Key → Prop
  | .ignore => s'.sent = s.sent ∧ lineOf s' = lineOf s
  | .erase => s'.sent = s.sent ∧ lineOf s' = (lineOf s).dropLast
  | .text b =>
    if s.termios.cLflag &&& iCanon ≠ 0 then
      if b = 0x0a then s'.sent = s.sent ++ (lineOf s ++ [b]) ∧ lineOf s' = []
      else s'.sent = s.sent ∧ lineOf s' = lineOf s ++ [b]
    else s'.sent = s.sent ++ [b] ∧ lineOf s' = lineOf s

section Input
variable {s : State}

theorem commitLine_sends (n i : Nat) (inv : Inv s) (inside : i + n ≤ ttyLinesiz)
    (room : (unread s).length + n < ttyBufsiz) :
    ∃ s', commitLine n i s = some s' ∧ Inv s' ∧ s'.termios = s.termios ∧ s'.pops = s.pops ∧
      s'.sent = s.sent ++ (List.range n).map fun k => s.lineBuf (i + k) := by
  induction n generalizing i s with
  | zero => exact ⟨s, rfl, inv, rfl, rfl, by simp⟩
  | succ n ih =>
    have first : lineByte s i = some (s.lineBuf i) := if_pos (by omega)
    obtain ⟨inv', more⟩ := canonPush_inv inv (by omega) (s.lineBuf i)
    have room' : (unread (canonPush s (s.lineBuf i))).length + n < ttyBufsiz := by
      rw [more, List.length_append, List.length_singleton]
      omega
    obtain ⟨s', run, kept, termios, pops, sent⟩ := ih (i + 1) inv' (by omega) room'
    refine ⟨s', ?_, kept, termios, pops, ?_⟩
    · rw [commitLine, first]
      exact run
    · have own : (canonPush s (s.lineBuf i)).sent = s.sent ++ [s.lineBuf i] := rfl
      have buffer : (canonPush s (s.lineBuf i)).lineBuf = s.lineBuf := rfl
      rw [sent, own, buffer, List.append_assoc, List.range_succ_eq_map, List.map_cons, List.map_map,
        List.singleton_append]
      simp only [Nat.add_zero, Function.comp_def, Nat.succ_eq_add_one, Nat.add_assoc,
        Nat.add_comm 1]

theorem storeLine_inside (late : Bool) (room : s.lineLen < ttyLinesiz) (c : UInt8) :
    storeLine late s c =
      some
      { s with lineBuf := Function.update s.lineBuf s.lineLen c, lineLen := s.lineLen + 1 } := by
  unfold storeLine
  rw [if_pos room]

theorem lineOf_store (s : State) (c : UInt8) :
    lineOf { s with lineBuf := Function.update s.lineBuf s.lineLen c, lineLen := s.lineLen + 1 } =
    lineOf s ++ [c] := by
  unfold lineOf
  simp only [List.range_succ, List.map_append, List.map_singleton, Function.update_self]
  congr 1
  apply List.map_congr_left
  intro i member
  have below := List.mem_range.mp member
  exact Function.update_of_ne (by omega) _ _

theorem lineOf_erase (s : State) :
    lineOf { s with lineLen := s.lineLen - 1 } = (lineOf s).dropLast := by
  unfold lineOf
  cases length : s.lineLen with
  | zero => rfl
  | succ n =>
    simp only [Nat.add_sub_cancel, List.range_succ, List.map_append, List.map_singleton,
      List.dropLast_concat]

theorem putLine_step (late : Bool) (inv : Inv s) (b : UInt8) (line : s.lineLen < ttyLinesiz)
    (ring : b = 0x0a → (unread s).length + (s.lineLen + 1) < ttyBufsiz) :
    ∃ s', putLine late s b = some s' ∧ Inv s' ∧ s'.termios = s.termios ∧ s'.pops = s.pops ∧
      (if b = 0x0a then s'.sent = s.sent ++ (lineOf s ++ [b]) ∧ lineOf s' = []
      else s'.sent = s.sent ∧ lineOf s' = lineOf s ++ [b]) := by
  have stored := storeLine_inside late line b
  have longer := lineOf_store s b
  generalize shape : { s with
    lineBuf := Function.update s.lineBuf s.lineLen b, lineLen := s.lineLen + 1 } = s₁
    at stored longer
  have inv₁ : Inv s₁ := by
    subst shape
    exact ⟨inv.good, line, inv.popped, inv.queue⟩
  have same : s₁.termios = s.termios ∧ s₁.pops = s.pops ∧ s₁.sent = s.sent ∧
    s₁.lineLen = s.lineLen + 1 ∧
      unread s₁ = unread s := by
    subst shape
    exact ⟨rfl, rfl, rfl, rfl, rfl⟩
  obtain ⟨termios, pops, sent, length, ringSame⟩ := same
  unfold putLine
  rw [stored]
  by_cases newline : b = 0x0a
  · simp only [if_pos newline]
    have room : (unread s₁).length + s₁.lineLen < ttyBufsiz := by
      rw [ringSame, length]
      exact ring newline
    obtain ⟨s₂, commit, inv₂, termios₂, pops₂, sent₂⟩ := commitLine_sends s₁.lineLen 0 inv₁
      (by rw [Nat.zero_add]; exact inv₁.line) room
    refine ⟨{ s₂ with lineLen := 0 }, ?_, ⟨inv₂.good, Nat.zero_le _, inv₂.popped, inv₂.queue⟩,
      termios₂.trans termios, pops₂.trans pops, ?_, rfl⟩
    · simp only [Option.bind_eq_bind, Option.bind_some, commit, Option.pure_def]
    · simp only [Nat.zero_add] at sent₂
      rw [sent₂, sent, ← longer]
      rfl
  · simp only [if_neg newline]
    exact ⟨s₁, rfl, inv₁, termios, pops, sent, longer⟩

theorem canonTty_erase (late : Bool) (inv : Inv s) {b : UInt8}
    (erase : isChar b (s.termios.cCc vErase)) :
    ∃ s', canonTty late s b = some s' ∧ Inv s' ∧ s'.termios = s.termios ∧ s'.pops = s.pops ∧
      Effect s s' .erase := by
  unfold canonTty
  simp only [if_pos erase]
  by_cases some' : s.lineLen > 0
  · simp only [if_pos some']
    obtain ⟨out, echo⟩ : ∃ out, (if s.termios.cLflag &&& echoFlag ≠ 0 then
        ttyOutputc (ttyOutputc (ttyOutputc { s with lineLen := s.lineLen - 1 } 0x08) 0x20) 0x08
        else { s with lineLen := s.lineLen - 1 }) =
        { s with lineLen := s.lineLen - 1, output := out } := by
      split
      · obtain ⟨out₁, first⟩ := ttyOutputc_same { s with lineLen := s.lineLen - 1 } 0x08
        rw [first]
        obtain ⟨out₂, second⟩ := ttyOutputc_same { s with
          lineLen := s.lineLen - 1, output := out₁ } 0x20
        rw [second]
        exact ttyOutputc_same { s with lineLen := s.lineLen - 1, output := out₂ } 0x08
      · exact ⟨s.output, rfl⟩
    have shorter := lineOf_erase s
    have line := inv.line
    exact ⟨_, congrArg some echo,
      ⟨inv.good, Nat.le_trans (Nat.sub_le _ _) line, inv.popped, inv.queue⟩,
      rfl, rfl, rfl, shorter⟩
  · simp only [if_neg some']
    have empty : lineOf s = [] := by
      have zero : s.lineLen = 0 := by omega
      simp [lineOf, zero]
    exact ⟨s, rfl, inv, rfl, rfl, rfl, by rw [empty]; rfl⟩

theorem canonTty_text (late : Bool) (inv : Inv s) {b : UInt8}
    (noErase : ¬ isChar b (s.termios.cCc vErase))
    (noEof : ¬ isChar b (s.termios.cCc vEof)) (canon : s.termios.cLflag &&& iCanon ≠ 0)
    (line : s.lineLen < ttyLinesiz)
    (ring : b = 0x0a → (unread s).length + (s.lineLen + 1) < ttyBufsiz) :
    ∃ s', canonTty late s b = some s' ∧ Inv s' ∧ s'.termios = s.termios ∧ s'.pops = s.pops ∧
      Effect s s' (.text b) := by
  obtain ⟨s₁, run, inv₁, termios, pops, effect⟩ := putLine_step late inv b line ring
  obtain ⟨out, echo⟩ := echo_same (s.termios.cLflag &&& echoFlag ≠ 0) s₁ b
  refine ⟨{ s₁ with output := out }, ?_, inv₁.output out, termios, pops, ?_⟩
  · unfold canonTty
    simp only [if_neg noErase, if_neg noEof, ← echo]
    rw [run]
    rfl
  · simp only [Effect, if_pos canon]
    exact effect

/-- One byte of input: it is taken, the invariant stays, and the line and the bytes sent
    change as its key says. -/
theorem ttyInputc_step (late : Bool) (inv : Inv s) {c : UInt8} (roomy : Roomy s c) :
    ∃ s', ttyInputc late s c = some s' ∧ Inv s' ∧ s'.termios = s.termios ∧ s'.pops = s.pops ∧
      Effect s s' (keyOf s.termios c) := by
  unfold ttyInputc
  change ∃ s',
    (if s.termios.cLflag &&& iSig ≠ 0 ∧ isChar (mapped s.termios c) (s.termios.cCc vIntr) then
    some s
    else _) = some s' ∧ _
  by_cases intr : s.termios.cLflag &&& iSig ≠ 0 ∧ isChar (mapped s.termios c) (s.termios.cCc vIntr)
  · have key : keyOf s.termios c = .ignore := if_pos intr
    rw [if_pos intr, key]
    exact ⟨s, rfl, inv, rfl, rfl, rfl, rfl⟩
  · rw [if_neg intr]
    unfold Roomy at roomy
    unfold keyOf at roomy ⊢
    rw [if_neg intr] at roomy ⊢
    by_cases canon : s.termios.cLflag &&& iCanon ≠ 0
    · simp only [if_pos canon] at roomy ⊢
      by_cases erase : isChar (mapped s.termios c) (s.termios.cCc vErase)
      · rw [if_pos erase]
        exact canonTty_erase late inv erase
      · simp only [if_neg erase] at roomy ⊢
        by_cases eof : isChar (mapped s.termios c) (s.termios.cCc vEof)
        · rw [if_pos eof]
          refine ⟨s, ?_, inv, rfl, rfl, rfl, rfl⟩
          have : canonTty late s (mapped s.termios c) = some s := by
            unfold canonTty
            simp only [if_neg erase, if_pos eof]
          exact this
        · simp only [if_neg eof] at roomy ⊢
          obtain ⟨line, ring⟩ := roomy _ rfl
          exact canonTty_text late inv erase eof canon line ring
    · simp only [if_neg canon] at roomy ⊢
      obtain ⟨inv₁, more⟩ := canonPush_inv inv (roomy _ rfl) (mapped s.termios c)
      obtain ⟨out, echo⟩ :=
        echo_same (s.termios.cLflag &&& echoFlag ≠ 0) (canonPush s (mapped s.termios c))
        (mapped s.termios c)
      refine ⟨_, congrArg some echo, inv₁.output out, rfl, rfl, ?_⟩
      simp only [Effect, if_neg canon]
      exact ⟨rfl, rfl⟩

end Input

/-! ## One read -/

def takeLine : Nat → List UInt8 → List UInt8
  | 0, _ => []
  | _, [] => []
  | n + 1, c :: cs => if c = 0x0a then [c] else c :: takeLine n cs

section Read
variable {s : State}

theorem readLoop_step (siz : Nat) (inv : Inv s) :
    ∃ bytes s', readLoop siz s = (bytes, s') ∧ Inv s' ∧ s'.termios = s.termios ∧ s'.sent = s.sent ∧
      lineOf s' = lineOf s ∧ s'.pops = s.pops + bytes.length ∧
      (s.termios.cLflag &&& iCanon ≠ 0 → bytes = takeLine siz (unread s)) := by
  induction siz generalizing s with
  | zero => exact ⟨[], s, rfl, inv, rfl, rfl, rfl, rfl, fun _ => rfl⟩
  | succ siz ih =>
    unfold readLoop
    by_cases empty : canonEmpty s = true
    · rw [if_pos empty]
      refine ⟨[], s, rfl, inv, rfl, rfl, rfl, rfl, ?_⟩
      intro _
      rw [(canonEmpty_iff inv).mp empty]
      rfl
    · rw [if_neg empty]
      obtain ⟨inv₁, queue⟩ := canonPop_inv inv (by simpa using empty)
      by_cases stop : s.termios.cLflag &&& iCanon ≠ 0 ∧ (canonPop s).1 = 0x0a
      · refine ⟨[(canonPop s).1], (canonPop s).2, if_pos stop, inv₁, rfl, rfl, rfl, rfl, ?_⟩
        intro _
        rw [queue, takeLine, if_pos stop.2]
      · obtain ⟨bytes, s', run, inv', termios, sent, line, pops, front⟩ := ih inv₁
        refine ⟨(canonPop s).1 :: bytes, s', ?_, inv', termios, sent, line, ?_, ?_⟩
        · refine (if_neg stop).trans ?_
          exact congrArg (fun p : List UInt8 × State => ((canonPop s).1 :: p.1, p.2)) run
        · have one : (canonPop s).2.pops = s.pops + 1 := rfl
          rw [pops, one, List.length_cons]
          omega
        · intro canon
          have other : (canonPop s).1 ≠ 0x0a := fun newline => stop ⟨canon, newline⟩
          rw [queue, takeLine, if_neg other, front canon]

theorem readTty_step (siz : Nat) (inv : Inv s) :
    ∃ bytes s', readTty s siz = (if unread s = [] then .error eAgain else .ok bytes, s') ∧ Inv s' ∧
      s'.termios = s.termios ∧ s'.sent = s.sent ∧ lineOf s' = lineOf s ∧
      s'.pops = s.pops + bytes.length ∧
      (s.termios.cLflag &&& iCanon ≠ 0 → bytes = takeLine siz (unread s)) := by
  unfold readTty
  by_cases empty : canonEmpty s = true
  · have none' := (canonEmpty_iff inv).mp empty
    rw [if_pos empty]
    refine ⟨[], s, by rw [if_pos none'], inv, rfl, rfl, rfl, rfl, ?_⟩
    intro _
    rw [none']
    cases siz <;> rfl
  · have some' : unread s ≠ [] := fun none' => empty ((canonEmpty_iff inv).mpr none')
    obtain ⟨bytes, s', run, rest⟩ := readLoop_step siz inv
    refine ⟨bytes, s', ?_, rest⟩
    rw [if_neg empty, if_neg some', run]

theorem takeLine_one_line (n : Nat) (queue : List UInt8) : 0x0a ∉ (takeLine n queue).dropLast := by
  induction n generalizing queue with
  | zero => simp [takeLine]
  | succ n ih =>
    cases queue with
    | nil => simp [takeLine]
    | cons c cs =>
      unfold takeLine
      split
      · simp
      · next other =>
        cases rest : takeLine n cs with
        | nil => simp
        | cons d ds =>
          rw [List.dropLast_cons_of_ne_nil (by simp), ← rest, List.mem_cons, not_or]
          exact ⟨Ne.symm other, ih cs⟩

theorem takeLine_length (n : Nat) (queue : List UInt8) : (takeLine n queue).length ≤ n := by
  induction n generalizing queue with
  | zero => simp [takeLine]
  | succ n ih =>
    cases queue with
    | nil => simp [takeLine]
    | cons c cs =>
      unfold takeLine
      split
      · simp
      · simpa using ih cs

theorem takeLine_some {n : Nat} {queue : List UInt8} (more : 1 ≤ n) (some' : queue ≠ []) :
    takeLine n queue ≠ [] := by
  obtain ⟨m, rfl⟩ : ∃ m, n = m + 1 := ⟨n - 1, by omega⟩
  cases queue with
  | nil => exact absurd rfl some'
  | cons c cs =>
    unfold takeLine
    split <;> simp

end Read

/-! ## Runs with room -/

inductive Event where
  | input (c : UInt8)
  | read (siz : Nat)
  | tcsets (t : Termios)

def event (late : Bool) (s : State) : Event → Option State
  | .input c => ttyInputc late s c
  | .read siz => some (readTty s siz).2
  | .tcsets t => some (ioctlTcsets s t)

/-- Any order of input, reads and changes of mode in which each byte finds room. -/
def roomyTty (late : Bool) : Machine State Event where
  legal s e := ∀ c, e = .input c → Roomy s c
  step := event late

theorem event_step (late : Bool) {s : State} (inv : Inv s) {e : Event}
    (roomy : (roomyTty late).legal s e) :
    ∃ s', event late s e = some s' ∧ Inv s' := by
  cases e with
  | input c =>
    obtain ⟨s', taken, inv', _⟩ := ttyInputc_step late inv (roomy c rfl)
    exact ⟨s', taken, inv'⟩
  | read siz =>
    obtain ⟨bytes, s', result, inv', _⟩ := readTty_step siz inv
    exact ⟨s', by rw [event, result], inv'⟩
  | tcsets t => exact ⟨ioctlTcsets s t, rfl, inv.good, inv.line, inv.popped, inv.queue⟩

/-- In every run in which each byte finds room, the line stays in its buffer, and the ring
    holds the bytes pushed and not popped, in order; and each next byte that finds room is
    taken. -/
theorem no_overrun_with_room (late : Bool) (t : Termios) (s : State)
    (reach : Reach (roomyTty late) (allocTty t) s) :
    s.lineLen ≤ ttyLinesiz ∧ unread s = s.sent.drop s.pops ∧
      seen ttyBufsiz s.canon + s.pops = s.sent.length ∧ seen ttyBufsiz s.canon ≤ ttyBufsiz - 1 ∧
      ∀ e, (roomyTty late).legal s e → ∃ s', (roomyTty late).step s e = some s' := by
  have inv : Inv s := by
    apply reach_invariant Inv (allocTty_inv t) _ reach
    intro s e s' before roomy stepped
    obtain ⟨next, result, after⟩ := event_step late before roomy
    obtain rfl : next = s' := Option.some.inj (result.symm.trans stepped)
    exact after
  have few := inv.good.seen_lt
  have popped := inv.popped
  have count := inv.seen_eq
  refine ⟨inv.line, inv.queue, by omega, by omega, ?_⟩
  intro e roomy
  obtain ⟨s', result, _⟩ := event_step late inv roomy
  exact ⟨s', result⟩

theorem no_overrun_short_line :
    ∃ s, Reach (roomyTty true) (allocTty ttydef) s ∧ s.sent = [0x61, 0x0a] ∧ s.pops = 1 ∧
      s.lineLen ≤ ttyLinesiz ∧ unread s = s.sent.drop s.pops := by
  have letter : (roomyTty true).legal (allocTty ttydef) (.input 0x61) := by
    rintro c ⟨⟩ b key
    obtain rfl : (0x61 : UInt8) = b := Key.text.inj key
    decide
  obtain ⟨s₁, first⟩ : ∃ s, event true (allocTty ttydef) (.input 0x61) = some s := ⟨_, rfl⟩
  have newline : (roomyTty true).legal s₁ (.input 0x0d) := by
    obtain rfl := Option.some.inj first
    rintro c ⟨⟩ b key
    obtain rfl : (0x0a : UInt8) = b := Key.text.inj key
    decide
  obtain ⟨s₂, second⟩ : ∃ s, event true s₁ (.input 0x0d) = some s := by
    obtain rfl := Option.some.inj first
    exact ⟨_, rfl⟩
  have reach : Reach (roomyTty true) (allocTty ttydef) (readTty s₂ 1).2 :=
    ⟨[.input 0x61, .input 0x0d, .read 1], Run.cons letter first (Run.cons newline second
      (Run.cons (by rintro c ⟨⟩) rfl (Run.nil _)))⟩
  obtain ⟨line, queue, _⟩ := no_overrun_with_room true ttydef _ reach
  refine ⟨_, reach, ?_, ?_, line, queue⟩
  · obtain rfl := Option.some.inj first
    obtain rfl := Option.some.inj second
    rfl
  · obtain rfl := Option.some.inj first
    obtain rfl := Option.some.inj second
    rfl

def inputAll (late : Bool) (s : State) (bytes : List UInt8) : Option State :=
  bytes.foldlM (ttyInputc late) s

/-- Thirty-three letters without a newline, and 32 bytes in raw mode. -/
theorem overrun_without_room :
    (inputAll true (allocTty ttydef) (List.replicate 33 0x61)).map State.lineLen = some 97 ∧
    (inputAll false (allocTty ttydef) (List.replicate 33 0x61)).map State.lineLen = some 33 ∧
    (inputAll true (allocTty { ttydef with cLflag := 0 }) (List.replicate 32 0x61)).map
      (fun s => (seen ttyBufsiz s.canon, s.sent.length - s.pops)) = some (0, 32) := by
  decide +kernel

/-! ## A queue of edited lines -/

structure Edited where
  done : List UInt8
  line : List UInt8

/-- The line after a byte, its newline included. -/
def typed (t : Termios) (line : List UInt8) (c : UInt8) : List UInt8 :=
  let c := if t.cIflag &&& iCrnl ≠ 0 ∧ c = 0x0d then 0x0a else c
  if t.cLflag &&& iSig ≠ 0 ∧ c = t.cCc vIntr then line
  else if c = t.cCc vErase then line.dropLast
  else if c = t.cCc vEof then line
  else line ++ [c]

def edit (t : Termios) (e : Edited) (c : UInt8) : Edited :=
  let line := typed t e.line c
  if line.getLast? = some 0x0a then ⟨e.done ++ line, []⟩ else ⟨e.done, line⟩

def completed (t : Termios) (input : List UInt8) : List UInt8 :=
  (input.foldl (edit t) ⟨[], []⟩).done

inductive Action where
  | input (c : UInt8)
  | read (siz : Nat)

def inputs : List Action → List UInt8
  | [] => []
  | .input c :: rest => c :: inputs rest
  | .read _ :: rest => inputs rest

/-- The line never exceeds 32 bytes and the queue never 31, whatever was taken before. -/
def Fits (t : Termios) : Edited → Nat → List Action → Prop
  | _, _, [] => True
  | e, taken, .input c :: rest =>
    (typed t e.line c).length ≤ ttyLinesiz ∧ ((edit t e c).done.drop taken).length ≤ ttyBufsiz - 1 ∧
      Fits t (edit t e c) taken rest
  | e, taken, .read siz :: rest =>
    1 ≤ siz ∧ Fits t e (taken + (takeLine siz (e.done.drop taken)).length) rest

/-- The code over a sequence of actions: the state it ends in and all bytes it returned. -/
def runActions (late : Bool) : State → List Action → Option (State × List UInt8)
  | s, [] => some (s, [])
  | s, .input c :: rest => do
    let s ← ttyInputc late s c
    runActions late s rest
  | s, .read siz :: rest => do
    let (result, s) := readTty s siz
    let (s, bytes) ← runActions late s rest
    return (s, (match result with | .ok got => got | .error _ => []) ++ bytes)

/-- The control characters are below 0x80, so a signed `char` can equal them. -/
structure LowChars (t : Termios) : Prop where
  intr : t.cCc vIntr < 0x80
  erase : t.cCc vErase < 0x80
  eof : t.cCc vEof < 0x80

theorem isChar_iff {c cc : UInt8} (low : cc < 0x80) : isChar c cc = true ↔ c = cc := by
  have value : c.toInt8.toInt = if c.toNat < 128 then (c.toNat : Int) else c.toNat - 256 := by
    have bits : c.toInt8.toInt = c.toBitVec.toInt := rfl
    rw [bits, BitVec.toInt_eq_toNat_cond]
    simp only [UInt8.toNat_toBitVec]
    split <;> split <;> omega
  have small := c.toNat_lt
  have low' : cc.toNat < 128 := UInt8.lt_iff_toNat_lt.mp low
  rw [isChar, decide_eq_true_eq, value, ← UInt8.toNat_inj]
  split <;> omega

/-- The state is that of the editor: the same line, the completed lines all sent, and as
    many bytes popped as were taken. -/
structure Edits (t : Termios) (e : Edited) (taken : Nat) (s : State) : Prop where
  inv : Inv s
  termios : s.termios = t
  sent : s.sent = e.done
  line : lineOf s = e.line
  pops : s.pops = taken
  open' : 0x0a ∉ e.line

section Editor
variable {t : Termios} {e : Edited} {taken : Nat} {s : State}

theorem typed_key (canon : t.cLflag &&& iCanon ≠ 0) (low : LowChars t)
    (line : List UInt8) (c : UInt8) :
    typed t line c = match keyOf t c with
      | .ignore => line
      | .erase => line.dropLast
      | .text b => line ++ [b] := by
  have intr : isChar (mapped t c) (t.cCc vIntr) = true ↔ mapped t c = t.cCc vIntr :=
    isChar_iff low.intr
  have erase : isChar (mapped t c) (t.cCc vErase) = true ↔ mapped t c = t.cCc vErase :=
    isChar_iff low.erase
  have eof : isChar (mapped t c) (t.cCc vEof) = true ↔ mapped t c = t.cCc vEof := isChar_iff low.eof
  unfold typed keyOf
  simp only [if_pos canon, intr, erase, eof]
  change (if t.cLflag &&& iSig ≠ 0 ∧ mapped t c = t.cCc vIntr then line
    else if mapped t c = t.cCc vErase then line.dropLast
    else if mapped t c = t.cCc vEof then line else line ++ [mapped t c]) = _
  split
  · rfl
  · split
    · rfl
    · split <;> rfl

theorem edit_open {line : List UInt8} (open' : 0x0a ∉ line) {c : UInt8}
    (same : typed t e.line c = line) :
    edit t e c = ⟨e.done, line⟩ := by
  have unfinished : line.getLast? ≠ some 0x0a := by
    intro last
    exact open' (List.mem_of_getLast? last)
  simp only [edit, same, if_neg unfinished]

theorem Edits.line_length (edits : Edits t e taken s) : s.lineLen = e.line.length := by
  rw [← edits.line]
  simp [lineOf]

theorem edit_input (late : Bool) (canon : t.cLflag &&& iCanon ≠ 0) (low : LowChars t)
    (edits : Edits t e taken s) {c : UInt8} (line : (typed t e.line c).length ≤ ttyLinesiz)
    (queue : ((edit t e c).done.drop taken).length ≤ ttyBufsiz - 1) :
    ∃ s', ttyInputc late s c = some s' ∧ Edits t (edit t e c) taken s' := by
  obtain ⟨inv, termios, sent, sameLine, pops, open'⟩ := edits
  have length := Edits.line_length ⟨inv, termios, sent, sameLine, pops, open'⟩
  have key := typed_key canon low e.line c
  have full : 32 ≤ ttyBufsiz := Nat.le_refl _
  have roomy : Roomy s c := by
    intro b text
    rw [termios] at text ⊢
    rw [if_pos canon]
    rw [text] at key
    rw [key, List.length_append, List.length_singleton] at line
    refine ⟨by omega, ?_⟩
    rintro rfl
    have finished : (e.line ++ [0x0a]).getLast? = some 0x0a := by simp
    have popped := inv.popped
    have whole : edit t e c = ⟨e.done ++ (e.line ++ [0x0a]), []⟩ := by
      simp only [edit, key, if_pos finished]
    rw [whole, List.length_drop, List.length_append, List.length_append,
      List.length_singleton] at queue
    rw [inv.queue, List.length_drop]
    rw [sent] at popped ⊢
    omega
  obtain ⟨s', taken', inv', termios', pops', effect⟩ := ttyInputc_step late inv roomy
  refine ⟨s', taken', ?_⟩
  rw [termios] at effect
  unfold Effect at effect
  cases meaning : keyOf t c with
  | ignore =>
    simp only [meaning] at key effect
    rw [edit_open open' key]
    exact ⟨inv', termios'.trans termios, effect.1.trans sent, effect.2.trans sameLine,
      pops'.trans pops, open'⟩
  | erase =>
    simp only [meaning] at key effect
    have shorter : 0x0a ∉ e.line.dropLast := fun member => open' (List.mem_of_mem_dropLast member)
    rw [edit_open shorter key]
    exact ⟨inv', termios'.trans termios, effect.1.trans sent, by rw [effect.2, sameLine],
      pops'.trans pops, shorter⟩
  | text b =>
    simp only [meaning, termios, if_pos canon] at key effect
    by_cases newline : b = 0x0a
    · rw [if_pos newline] at effect
      have finished : (e.line ++ [b]).getLast? = some 0x0a := by simp [newline]
      have whole : edit t e c = ⟨e.done ++ (e.line ++ [b]), []⟩ := by
        simp only [edit, key, if_pos finished]
      rw [whole]
      exact ⟨inv', termios'.trans termios, by rw [effect.1, sent, sameLine], effect.2,
        pops'.trans pops, by simp⟩
    · rw [if_neg newline] at effect
      have longer : 0x0a ∉ e.line ++ [b] := by
        rw [List.mem_append, List.mem_singleton, not_or]
        exact ⟨open', Ne.symm newline⟩
      rw [edit_open longer key]
      exact ⟨inv', termios'.trans termios, effect.1.trans sent, by rw [effect.2, sameLine],
        pops'.trans pops, longer⟩

theorem edit_read (canon : t.cLflag &&& iCanon ≠ 0) (edits : Edits t e taken s) (siz : Nat) :
    ∃ s', readTty s siz = (if unread s = [] then .error eAgain
    else .ok (takeLine siz (e.done.drop taken)), s') ∧
      Edits t e (taken + (takeLine siz (e.done.drop taken)).length) s' := by
  obtain ⟨inv, termios, sent, line, pops, open'⟩ := edits
  obtain ⟨bytes, s', result, inv', termios', sent', line', pops', front⟩ := readTty_step siz inv
  have queue : unread s = e.done.drop taken := by rw [inv.queue, sent, pops]
  have got : bytes = takeLine siz (e.done.drop taken) := by
    rw [← queue]
    exact front (termios ▸ canon)
  rw [← got]
  exact ⟨s', result, inv', termios'.trans termios, sent'.trans sent,
    line'.trans line, by rw [pops', pops], open'⟩

theorem takeLine_front (n : Nat) (queue : List UInt8) :
    queue.take (takeLine n queue).length = takeLine n queue := by
  induction n generalizing queue with
  | zero => simp [takeLine]
  | succ n ih =>
    cases queue with
    | nil => simp [takeLine]
    | cons c cs =>
      unfold takeLine
      split
      · simp
      · simpa using ih cs

theorem edit_done_take (e : Edited) (c : UInt8) (within : taken ≤ e.done.length) :
    (edit t e c).done.take taken = e.done.take taken := by
  simp only [edit]
  split
  · exact List.take_append_of_le_length within
  · rfl

/-- A whole run: what was taken before it, what it returned and what is left are the
    completed lines. -/
theorem runActions_edits (late : Bool) (canon : t.cLflag &&& iCanon ≠ 0) (low : LowChars t)
    (actions : List Action) (edits : Edits t e taken s) (fits : Fits t e taken actions) :
    ∃ s' got taken', runActions late s actions = some (s', got) ∧
      Edits t ((inputs actions).foldl (edit t) e) taken' s' ∧
      e.done.take taken ++ got = ((inputs actions).foldl (edit t) e).done.take taken' := by
  induction actions generalizing e taken s with
  | nil => exact ⟨s, [], taken, rfl, edits, List.append_nil _⟩
  | cons action rest ih =>
    cases action with
    | input c =>
      obtain ⟨line, queue, later⟩ := fits
      obtain ⟨s₁, typed', edits₁⟩ := edit_input late canon low edits line queue
      obtain ⟨s', got, taken', run, edits', total⟩ := ih edits₁ later
      refine ⟨s', got, taken', ?_, edits', ?_⟩
      · simp only [runActions, typed', Option.bind_eq_bind, Option.bind_some, run]
      · have within : taken ≤ e.done.length := by
          rw [← edits.pops, ← edits.sent]
          exact edits.inv.popped
        rw [← edit_done_take e c within]
        exact total
    | read siz =>
      obtain ⟨_, later⟩ := fits
      obtain ⟨s₁, result, edits₁⟩ := edit_read canon edits siz
      obtain ⟨s', got, taken', run, edits', total⟩ := ih edits₁ later
      refine ⟨s', takeLine siz (e.done.drop taken) ++ got, taken', ?_, edits', ?_⟩
      · simp only [runActions, result, Option.bind_eq_bind, run, Option.bind_some, Option.pure_def]
        by_cases none' : unread s = []
        · have empty : takeLine siz (e.done.drop taken) = [] := by
            rw [← edits.sent, ← edits.pops, ← edits.inv.queue, none']
            cases siz <;> rfl
          rw [if_pos none', empty]
        · rw [if_neg none']
      · rw [List.take_add, takeLine_front, List.append_assoc] at total
        exact total

end Editor

/-- In canonical mode, as long as line and queue have room: the bytes returned followed by
    those in the ring are the completed lines of the input; and a read at any time returns
    part of one line, or `EAGAIN` if and only if the ring is empty. -/
theorem reads_edited_lines (late : Bool) (t : Termios) (canon : t.cLflag &&& iCanon ≠ 0)
    (low : LowChars t)
    (actions : List Action) (fits : Fits t ⟨[], []⟩ 0 actions) :
    ∃ s got, runActions late (allocTty t) actions = some (s, got) ∧
      got ++ unread s = completed t (inputs actions) ∧
      ∀ siz, 1 ≤ siz → ((readTty s siz).1 = .error eAgain ↔ unread s = []) ∧
        (unread s ≠ [] → ∃ bytes s', readTty s siz = (.ok bytes, s') ∧ bytes ≠ [] ∧
        bytes.length ≤ siz ∧
          0x0a ∉ bytes.dropLast) := by
  have start : Edits t ⟨[], []⟩ 0 (allocTty t) := ⟨allocTty_inv t, rfl, rfl, rfl, rfl, by simp⟩
  obtain ⟨s, got, taken, run, edits, total⟩ := runActions_edits late canon low actions start fits
  refine ⟨s, got, run, ?_, ?_⟩
  · have queue := edits.inv.queue
    rw [edits.sent, edits.pops] at queue
    rw [List.take_nil, List.nil_append] at total
    rw [total, queue, List.take_append_drop]
    rfl
  · intro siz more
    obtain ⟨s', result, _⟩ := edit_read canon edits siz
    have queue : unread s = ((inputs actions).foldl (edit t) ⟨[], []⟩).done.drop taken := by
      rw [edits.inv.queue, edits.sent, edits.pops]
    rw [← queue] at result
    constructor
    · rw [result]
      split
      · next none' => exact ⟨fun _ => none', fun _ => rfl⟩
      · next some' => exact ⟨fun error => by simp at error, fun none' => absurd none' some'⟩
    · intro some'
      rw [if_neg some'] at result
      exact ⟨_, s', result, takeLine_some more some', takeLine_length _ _, takeLine_one_line _ _⟩

theorem reads_edited_lines_ab :
    ∃ s got, runActions true (allocTty ttydef)
        [.input 0x61, .input 0x62, .input 0x08, .input 0x0d, .read 1, .input 0x04] = some (s, got) ∧
      got ++ unread s = completed ttydef [0x61, 0x62, 0x08, 0x0d, 0x04] := by
  obtain ⟨s, got, run, total, _⟩ := reads_edited_lines true ttydef (by decide)
    ⟨by decide, by decide, by decide⟩ [.input 0x61, .input 0x62, .input 0x08, .input 0x0d,
      .read 1, .input 0x04]
    (by simp only [Fits]; decide)
  exact ⟨s, got, run, total⟩

end Tty
