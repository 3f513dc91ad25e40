import NoobOs.Lib.Areas

/-!
`kgets` of `keyboard.c`, byte by byte of what `getch` returns. The room in the buffer is
tested before a character is stored, the terminator is stored without a test.
-/
namespace LineInput
open ByteMemory

/-- What `getch` returns, call after call. -/
abbrev Stream := Nat → UInt8

def newline : UInt8 := 0x0a
def eof : UInt8 := 0x04
def backspace : UInt8 := 0x08

inductive Kgets where
  | reading (idx : Nat) (m : Mem)
  | done (idx : Nat) (m : Mem)

def Kgets.mem : Kgets → Mem
  | .reading _ m => m
  | .done _ m => m

def kgetsByte (s siz : Nat) (c : UInt8) : Kgets → Kgets
  | .done idx m => .done idx m
  | .reading idx m =>
    if c = newline ∨ c = eof then .done idx (store8 m (s + idx) 0)
    else if idx ≥ siz then .done idx (store8 m (s + idx) 0)
    else if c ≠ backspace then .reading (idx + 1) (store8 m (s + idx) c)
    else if idx > 0 then .reading (idx - 1) m
    else .reading idx m

def kgets (s siz : Nat) (input : Stream) (m : Mem) : Nat → Kgets
  | 0 => .reading 0 m
  | n + 1 => kgetsByte s siz (input n) (kgets s siz input m n)

/-! ## The line that is typed -/

def edit (line : List UInt8) (c : UInt8) : List UInt8 :=
  if c = backspace then line.dropLast else line ++ [c]

def typedLine (input : Stream) : Nat → List UInt8
  | 0 => []
  | n + 1 => edit (typedLine input n) (input n)

theorem edit_length (line : List UInt8) (c : UInt8) : (edit line c).length ≤ line.length + 1 := by
  unfold edit
  split
  · rw [List.length_dropLast]
    omega
  · simp

def Open (input : Stream) (n : Nat) : Prop := ∀ k < n, input k ≠ newline ∧ input k ≠ eof

/-- What a line reader is for: no store leaves the buffer, and when the line ends, it stands in the
    buffer with its terminator, cut to the room there is, and its length is returned. -/
structure ReadsLine (s siz : Nat) (input : Stream) : Prop where
  inside : ∀ m n a, a < s ∨ s + siz ≤ a → (kgets s siz input m n).mem a = m a
  returns : ∀ m n, Open input n → ¬ Open input (n + 1) →
    ∃ m', kgets s siz input m (n + 1) = .done ((typedLine input n).take (siz - 1)).length m' ∧
      BytesAt m' s ((typedLine input n).take (siz - 1) ++ [0])

section Reading
variable {s siz : Nat} {input : Stream}

theorem bytesAt_edit {m : Mem} {line : List UInt8} (here : BytesAt m s line) {c : UInt8}
    (plain : c ≠ backspace) : BytesAt (store8 m (s + line.length) c) s (edit line c) := by
  rw [edit, if_neg plain, bytesAt_append]
  refine ⟨here.moved ?_, store8_same _ _ _, trivial⟩
  intro i below
  exact store8_other _ _ (by omega)

theorem bytesAt_erase {m : Mem} {line : List UInt8} (here : BytesAt m s line) :
    BytesAt m s (edit line backspace) := by
  rw [edit, if_pos rfl]
  by_cases empty : line = []
  · rw [empty]
    trivial
  · rw [← List.dropLast_concat_getLast empty, bytesAt_append] at here
    exact here.1

structure Holds (s siz : Nat) (input : Stream) (m : Mem) (n : Nat) (m' : Mem) : Prop where
  reading : kgets s siz input m n = .reading (typedLine input n).length m'
  line : BytesAt m' s (typedLine input n)
  outside : ∀ a, a < s ∨ s + siz ≤ a → m' a = m a

theorem holds_step {m m' : Mem} {n : Nat} (holds : Holds s siz input m n m')
    (more : input n ≠ newline ∧ input n ≠ eof) (room : (typedLine input n).length < siz) :
    ∃ m'', Holds s siz input m (n + 1) m'' := by
  have next : kgets s siz input m (n + 1) =
      kgetsByte s siz (input n) (.reading (typedLine input n).length m') := by
    rw [kgets, holds.reading]
  rw [kgetsByte, if_neg (by simp [more]), if_neg (by omega)] at next
  by_cases plain : input n ≠ backspace
  · rw [if_pos plain] at next
    refine ⟨store8 m' (s + (typedLine input n).length) (input n), ?_,
      bytesAt_edit holds.line plain, ?_⟩
    · rw [next, typedLine, edit, if_neg plain, List.length_append, List.length_singleton]
    · intro a far
      rw [store8_other _ _ (by omega)]
      exact holds.outside a far
  · have erased : input n = backspace := not_not.mp plain
    rw [if_neg plain] at next
    have shorter : (typedLine input (n + 1)).length = (typedLine input n).length - 1 := by
      rw [typedLine, edit, if_pos erased, List.length_dropLast]
    refine ⟨m', ?_, ?_, holds.outside⟩
    · rw [next, shorter]
      split
      · rfl
      · rw [show (typedLine input n).length - 1 = (typedLine input n).length by omega]
    · rw [typedLine, erased]
      exact bytesAt_erase holds.line

theorem holds_run (m : Mem) (n : Nat) (more : Open input n)
    (room : ∀ k < n, (typedLine input k).length < siz) : ∃ m', Holds s siz input m n m' := by
  induction n with
  | zero => exact ⟨m, rfl, trivial, fun _ _ => rfl⟩
  | succ n ih =>
    obtain ⟨m', holds⟩ := ih (fun k below => more k (by omega)) fun k below => room k (by omega)
    exact holds_step holds (more n (by omega)) (room n (by omega))

theorem done_stays {m : Mem} {n k idx : Nat} {m' : Mem}
    (done : kgets s siz input m n = .done idx m') :
    kgets s siz input m (n + k) = .done idx m' := by
  induction k with
  | zero => exact done
  | succ k ih =>
    rw [← Nat.add_assoc, kgets, ih]
    rfl

theorem first_stop (ok : UInt8 → Prop) (input : Stream) {n : Nat}
    (ended : ¬ ∀ k < n, ok (input k)) :
    ∃ k < n, (∀ j < k, ok (input j)) ∧ ¬ ok (input k) := by
  obtain ⟨k, below, stop⟩ : ∃ k < n, ¬ ok (input k) := by simpa using ended
  induction k using Nat.strongRecOn with
  | ind k ih =>
    by_cases earlier : ∀ j < k, ok (input j)
    · exact ⟨k, below, earlier, stop⟩
    · obtain ⟨j, less, stop'⟩ : ∃ j < k, ¬ ok (input j) := by simpa using earlier
      exact ih j less (by omega) stop'

theorem line_ends (m : Mem) {n : Nat} (more : Open input n) (ended : ¬ Open input (n + 1))
    (room : ∀ k ≤ n, (typedLine input k).length < siz) :
    ∃ m', Holds s siz input m n m' ∧ kgets s siz input m (n + 1) =
      .done (typedLine input n).length (store8 m' (s + (typedLine input n).length) 0) := by
  obtain ⟨m', holds⟩ := holds_run (s := s) m n more fun k below => room k (by omega)
  have last : input n = newline ∨ input n = eof := by
    by_contra neither
    rw [not_or] at neither
    apply ended
    intro k below
    by_cases earlier : k < n
    · exact more k earlier
    · rw [show k = n by omega]
      exact neither
  refine ⟨m', holds, ?_⟩
  rw [kgets, holds.reading, kgetsByte, if_pos last]

end Reading

/-- A line that is typed into a buffer must at no time be as long as the buffer. -/
theorem kgets_reads_line_iff (s siz : Nat) (input : Stream) :
    ReadsLine s siz input ↔ ∀ n, Open input n → (typedLine input n).length < siz := by
  constructor
  · intro right n
    induction n using Nat.strongRecOn with
    | ind n ih =>
      intro more
      by_contra long
      obtain ⟨m', holds⟩ := holds_run (s := s) (fun _ => 1) n more
        fun k below => ih k below fun i lower => more i (by omega)
      -- whatever the next byte is, the terminator goes behind the buffer
      have next : kgets s siz input (fun _ => 1) (n + 1) =
          .done (typedLine input n).length (store8 m' (s + (typedLine input n).length) 0) := by
        rw [kgets, holds.reading, kgetsByte,
          if_pos (by omega : (typedLine input n).length ≥ siz), ite_self]
      have kept := right.inside (fun _ => 1) (n + 1) (s + (typedLine input n).length) (by omega)
      rw [next] at kept
      simp [Kgets.mem, store8_same] at kept
  · intro fits
    constructor
    · intro m n a far
      by_cases more : Open input n
      · obtain ⟨m', holds⟩ := holds_run (s := s) m n more
          fun k below => fits k fun i lower => more i (by omega)
        rw [holds.reading]
        exact holds.outside a far
      · obtain ⟨k, below, open', stop⟩ :=
          first_stop (fun c => c ≠ newline ∧ c ≠ eof) input more
        have ended : ¬ Open input (k + 1) := fun all => stop (all k (Nat.lt_succ_self k))
        have room := fits k open'
        obtain ⟨m', holds, returned⟩ := line_ends (s := s) m open' ended
          fun j lower => fits j fun i first => open' i (by omega)
        have later := done_stays (k := n - (k + 1)) returned
        rw [show k + 1 + (n - (k + 1)) = n by omega] at later
        rw [later]
        simp only [Kgets.mem]
        rw [store8_other _ _ (by omega)]
        exact holds.outside a far
    · intro m n open' ended
      have room := fits n open'
      obtain ⟨m', holds, returned⟩ := line_ends (s := s) m open' ended
        fun j lower => fits j fun i first => open' i (by omega)
      rw [List.take_of_length_le (by omega)]
      refine ⟨_, returned, ?_⟩
      rw [bytesAt_append]
      refine ⟨holds.line.moved ?_, store8_same _ _ _, trivial⟩
      intro i below
      exact store8_other _ _ (by omega)

/-- 32 characters and a newline for the 32 bytes of `login`: the terminator is stored behind them.
    -/
theorem login_name_overruns :
    ¬ ∀ (s siz : Nat) (input : Stream), 1 ≤ siz → ReadsLine s siz input := by
  intro right
  have kept := (right 0 32 (fun n => if n < 32 then 0x61 else newline) (by decide)).inside
    (fun _ => 1) 33 32
    (by decide)
  revert kept
  decide

end LineInput
