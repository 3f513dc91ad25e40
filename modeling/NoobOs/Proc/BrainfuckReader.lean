import NoobOs.Driver.LineInput

/-!
The program reader of `bf` in `shell.c`. Addresses count from `cbuf`, which has 128 bytes.
The limit is tested before the store, and a backspace is stored first and then erased
together with the character before it, whether there is one or not.
-/
namespace Brainfuck
open LineInput

def bfBufsiz : Nat := 128

/-- The stack around `cbuf`, by distance from it. -/
abbrev Frame := Int → UInt8

def cleared (m : Frame) : Frame := fun a => if 0 ≤ a ∧ a < bfBufsiz then 0 else m a

/-- The loop that waits for the next byte, or has ended; `pos` is `cbp - cbuf` and `shown` what has
    been echoed. -/
inductive Reader where
  | typing (pos : Int) (m : Frame) (shown : List UInt8)
  | ended (pos : Int) (m : Frame) (shown : List UInt8)

def Reader.frame : Reader → Frame
  | .typing _ m _ => m
  | .ended _ m _ => m

def readByte (c : UInt8) : Reader → Reader
  | .ended pos m shown => .ended pos m shown
  | .typing pos m shown =>
    if c ≠ eof ∧ pos ≤ bfBufsiz then
      let m := Function.update m pos c
      if c = backspace then
        let m := Function.update m pos 0
        .typing (pos - 1) (Function.update m (pos - 1) 0) (shown ++ [c])
      else .typing (pos + 1) m (shown ++ [c])
    else .ended pos m shown

def reader (input : Stream) (m : Frame) : Nat → Reader
  | 0 => .typing 0 (cleared m) []
  | n + 1 => readByte (input n) (reader input m n)

/-- `uint16_t len = cbp - cbuf`. -/
def lenOf (pos : Int) : Nat := (pos % 65536).toNat

def Typing (input : Stream) (n : Nat) : Prop := ∀ k < n, input k ≠ eof

/-- No store leaves `cbuf`, and the end of input finds the edited text there and its length in
    `len`. -/
structure ReadsProgram (input : Stream) : Prop where
  inside : ∀ m n (a : Int), ¬ (0 ≤ a ∧ a < bfBufsiz) → (reader input m n).frame a = m a
  ends : ∀ m n, Typing input n → input n = eof →
    ∃ pos m' shown, reader input m (n + 1) = .ended pos m' shown ∧
      lenOf pos = (typedLine input n).length ∧
      ∀ i (below : i < (typedLine input n).length), m' i = (typedLine input n)[i]

section Reading
variable {input : Stream}

/-- The reader has kept up with the editing. -/
structure Follows (input : Stream) (m : Frame) (n : Nat) (m' : Frame) (shown : List UInt8) :
    Prop where
  typing : reader input m n = .typing (typedLine input n).length m' shown
  text : ∀ i (below : i < (typedLine input n).length), m' i = (typedLine input n)[i]
  outside : ∀ a : Int, ¬ (0 ≤ a ∧ a < bfBufsiz) → m' a = m a

/-- There is room for the next byte, and something to erase for a backspace. -/
def RoomFor (line : List UInt8) (c : UInt8) : Prop :=
  line.length < bfBufsiz ∧ (c = backspace → line ≠ [])

theorem readByte_plain {c : UInt8} {pos : Int} (m : Frame) (shown : List UInt8) (more : c ≠ eof)
    (plain : c ≠ backspace) (room : pos ≤ bfBufsiz) :
    readByte c (.typing pos m shown) = .typing (pos + 1) (Function.update m pos c)
    (shown ++ [c]) := by
  rw [readByte, if_pos ⟨more, room⟩, if_neg plain]

def rubout (m : Frame) (pos : Int) : Frame :=
  Function.update (Function.update (Function.update m pos backspace) pos 0) (pos - 1) 0

theorem readByte_rubout {pos : Int} (m : Frame) (shown : List UInt8) (room : pos ≤ bfBufsiz) :
    readByte backspace (.typing pos m shown) =
      .typing (pos - 1) (rubout m pos) (shown ++ [backspace]) := by
  rw [readByte, if_pos ⟨by decide, room⟩, if_pos rfl, rubout]

theorem rubout_other (m : Frame) {pos a : Int} (here : a ≠ pos) (before : a ≠ pos - 1) :
    rubout m pos a = m a := by
  rw [rubout, Function.update_of_ne before, Function.update_of_ne here, Function.update_of_ne here]

theorem rubout_here (m : Frame) (pos : Int) : rubout m pos pos = 0 := by
  rw [rubout, Function.update_of_ne (by omega), Function.update_self]

theorem rubout_before (m : Frame) (pos : Int) : rubout m pos (pos - 1) = 0 := by
  rw [rubout, Function.update_self]

theorem follows_step {m m' : Frame} {n : Nat} {shown : List UInt8}
    (follows : Follows input m n m' shown)
    (more : input n ≠ eof) (room : RoomFor (typedLine input n) (input n)) :
    ∃ m'' shown', Follows input m (n + 1) m'' shown' := by
  have length := room.1
  simp only [bfBufsiz] at length
  have fits : ((typedLine input n).length : Int) ≤ bfBufsiz := by
    simp only [bfBufsiz]
    omega
  by_cases erase : input n = backspace
  · have some' : 1 ≤ (typedLine input n).length := List.length_pos_iff.mpr (room.2 erase)
    have line : typedLine input (n + 1) = (typedLine input n).dropLast := by
      rw [typedLine, edit, if_pos erase]
    refine ⟨rubout m' (typedLine input n).length, shown ++ [backspace], ?_, ?_, ?_⟩
    · rw [reader, follows.typing, erase, readByte_rubout _ _ fits, line, List.length_dropLast,
        Int.natCast_sub some']
      rfl
    · intro i below
      simp only [line, List.getElem_dropLast]
      rw [line, List.length_dropLast] at below
      rw [rubout_other _ (by omega) (by omega)]
      exact follows.text i (by omega)
    · intro a far
      simp only [bfBufsiz] at far
      rw [rubout_other _ (by omega) (by omega)]
      exact follows.outside a far
  · have line : typedLine input (n + 1) = typedLine input n ++ [input n] := by
      rw [typedLine, edit, if_neg erase]
    refine ⟨Function.update m' (typedLine input n).length (input n), shown ++ [input n], ?_, ?_, ?_⟩
    · rw [reader, follows.typing, readByte_plain _ _ more erase fits, line, List.length_append]
      rfl
    · intro i below
      simp only [line, List.length_append, List.length_singleton] at below ⊢
      by_cases last : i = (typedLine input n).length
      · subst last
        simp
      · rw [Function.update_of_ne (by omega), List.getElem_append_left (by omega)]
        exact follows.text i (by omega)
    · intro a far
      simp only [bfBufsiz] at far
      rw [Function.update_of_ne (by omega)]
      exact follows.outside a far

theorem follows_run (m : Frame) (n : Nat) (more : Typing input n)
    (room : ∀ k < n, RoomFor (typedLine input k) (input k)) :
    ∃ m' shown, Follows input m n m' shown := by
  induction n with
  | zero =>
    refine ⟨cleared m, [], rfl, fun i below => absurd below (Nat.not_lt_zero i), ?_⟩
    intro a far
    rw [cleared, if_neg far]
  | succ n ih =>
    obtain ⟨m', shown, follows⟩ := ih (fun k below => more k (by omega)) fun k below =>
      room k (by omega)
    exact follows_step follows (more n (by omega)) (room n (by omega))

theorem ended_stays {m : Frame} {n k : Nat} {pos : Int} {m' : Frame} {shown : List UInt8}
    (ended : reader input m n = .ended pos m' shown) :
    reader input m (n + k) = .ended pos m' shown := by
  induction k with
  | zero => exact ended
  | succ k ih =>
    rw [← Nat.add_assoc, reader, ih]
    rfl

theorem program_ends (m : Frame) {n : Nat} (more : Typing input n) (last : input n = eof)
    (room : ∀ k < n, RoomFor (typedLine input k) (input k)) :
    ∃ m' shown, Follows input m n m' shown ∧
      reader input m (n + 1) = .ended (typedLine input n).length m' shown := by
  obtain ⟨m', shown, follows⟩ := follows_run m n more room
  refine ⟨m', shown, follows, ?_⟩
  rw [reader, follows.typing, readByte, last, if_neg (by simp)]

theorem typedLine_length (n : Nat) (room : ∀ k < n, RoomFor (typedLine input k) (input k)) :
    (typedLine input n).length ≤ bfBufsiz := by
  cases n with
  | zero => exact Nat.zero_le _
  | succ n =>
    have before := (room n (by omega)).1
    have grown := edit_length (typedLine input n) (input n)
    rw [typedLine]
    omega

theorem store_outside {n : Nat} (more : Typing input (n + 1))
    (room : ∀ k < n, RoomFor (typedLine input k) (input k))
    (tight : ¬ RoomFor (typedLine input n) (input n)) :
    ∃ m, ∃ a : Int, ¬ (0 ≤ a ∧ a < bfBufsiz) ∧ (reader input m (n + 1)).frame a ≠ m a := by
  have length := typedLine_length n room
  have fits : ((typedLine input n).length : Int) ≤ bfBufsiz := by exact_mod_cast length
  -- a filling that differs from whatever the byte leaves
  obtain ⟨m', shown, follows⟩ :=
    follows_run (fun _ => input n + 1) n (fun k below => more k (by omega)) room
  by_cases full : (typedLine input n).length < bfBufsiz
  · have empty : input n = backspace ∧ typedLine input n = [] := by
      by_contra other
      exact tight ⟨full, fun erase nothing => other ⟨erase, nothing⟩⟩
    refine ⟨fun _ => input n + 1, -1, by omega, ?_⟩
    rw [reader, follows.typing, empty.1, readByte_rubout _ _ fits, empty.2]
    have erased : rubout m' (([] : List UInt8).length : Int) (-1) = 0 := rubout_before m' 0
    rw [Reader.frame, erased]
    decide
  · have whole : (typedLine input n).length = bfBufsiz := by omega
    refine ⟨fun _ => input n + 1, bfBufsiz, by omega, ?_⟩
    rw [reader, follows.typing, whole]
    by_cases erase : input n = backspace
    · rw [erase, readByte_rubout _ _ (Int.le_refl _), Reader.frame, rubout_here]
      decide
    · rw [readByte_plain _ _ (more n (by omega)) erase (Int.le_refl _)]
      simp [Reader.frame]

end Reading

theorem bf_reads_program_iff (input : Stream) :
    ReadsProgram input ↔
      ∀ n, Typing input (n + 1) → RoomFor (typedLine input n) (input n) := by
  constructor
  · intro right n
    induction n using Nat.strongRecOn with
    | ind n ih =>
      intro more
      by_contra tight
      obtain ⟨m, a, far, changed⟩ := store_outside more
        (fun k below => ih k below fun i lower => more i (by omega)) tight
      exact changed (right.inside m (n + 1) a far)
  · intro room
    have earlier : ∀ {n}, Typing input n → ∀ k < n, RoomFor (typedLine input k) (input k) := by
      intro n more k below
      exact room k fun i lower => more i (by omega)
    constructor
    · intro m n a far
      by_cases more : Typing input n
      · obtain ⟨m', shown, follows⟩ := follows_run m n more (earlier more)
        rw [follows.typing]
        exact follows.outside a far
      · obtain ⟨k, below, typing, stop⟩ := first_stop (· ≠ eof) input more
        obtain ⟨m', shown, follows, ended⟩ :=
          program_ends m typing (not_not.mp stop) (earlier typing)
        have later := ended_stays (k := n - (k + 1)) ended
        rw [show k + 1 + (n - (k + 1)) = n by omega] at later
        rw [later]
        exact follows.outside a far
    · intro m n more last
      obtain ⟨m', shown, follows, ended⟩ := program_ends m more last (earlier more)
      have length := typedLine_length n (earlier more)
      refine ⟨_, m', shown, ended, ?_, follows.text⟩
      simp only [bfBufsiz] at length
      simp only [lenOf]
      omega

/-- A backspace as the first key is stored behind the other end of the buffer. -/
theorem backspace_first_underruns : ¬ ∀ input : Stream, ReadsProgram input := by
  intro right
  have kept := (right fun n => if n = 0 then backspace else eof).inside (fun _ => 1) 1
    (-1) (by decide)
  revert kept
  decide

end Brainfuck
