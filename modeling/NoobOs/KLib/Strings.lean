import Mathlib.Data.UInt

/- The string functions of `mem.c`. A string is the list of its bytes before the
   terminator, so no byte of it is zero; a null `char *` is `none`. -/
namespace Strings

abbrev Str := List UInt8

def dlim (delim : Str) (c : UInt8) : Bool := delim.contains c

/-- The token and the new `*saveptr`. -/
def strtokR (str : Option Str) (delim : Str) (save : Option Str) : Option Str × Option Str :=
  match str.or save with
  | none => (none, none)
  | some s =>
    match s.dropWhile (dlim delim) with
    | [] => (none, none)
    | c :: cs =>
      let token := (c :: cs).takeWhile fun d => !dlim delim d
      match (c :: cs).dropWhile fun d => !dlim delim d with
      | [] => (some token, none)
      | _ :: rest => (some token, some rest)

/-- `strtok_r` called with a null string until it returns null. -/
def tokensFrom (delim : Str) : Nat → Option Str → List Str
  | 0, _ => []
  | fuel + 1, save =>
    match strtokR none delim save with
    | (none, _) => []
    | (some token, save) => token :: tokensFrom delim fuel save

def tokens (delim s : Str) : List Str := tokensFrom delim (s.length + 1) (some s)

/-- The difference at the first byte where the strings differ, one of them perhaps
    its terminator; 8 bits wide. -/
def strcmp : Str → Str → UInt8
  | [], [] => 0
  | [], d :: _ => 0 - d
  | c :: _, [] => c
  | c :: cs, d :: ds => if c = d then strcmp cs ds else c - d

/-- The loop of `strrchr`: `l` is the last match, as what stands before and after it. -/
def strrchrFrom (c : UInt8) : Str → Str → Option (Str × Str) → Option (Str × Str)
  | _, [], l => l
  | before, x :: xs, l => strrchrFrom c (before ++ [x]) xs (if x = c then some (before, xs) else l)

def strrchr (s : Str) (c : UInt8) : Option (Str × Str) := strrchrFrom c [] s none

/-- The `_S` and `_D` entries of `_ctype`. -/
def isspace (c : UInt8) : Bool := (9 ≤ c ∧ c ≤ 13) ∨ c = 32
def isdigit (c : UInt8) : Bool := 48 ≤ c ∧ c ≤ 57

def atoiDigits : Str → UInt32 → UInt32
  | [], res => res
  | c :: cs, res => if isdigit c then atoiDigits cs (res * 10 + (c - 48).toUInt32) else res

/-- The `int` result as its 32 bits. -/
def atoi (s : Str) : UInt32 :=
  match s.dropWhile isspace with
  | 0x2b :: cs => atoiDigits cs 0
  | 0x2d :: cs => 0 - atoiDigits cs 0
  | cs => atoiDigits cs 0

theorem tokensFrom_length (delim : Str) (fuel : Nat) (save : Option Str) :
    (tokensFrom delim fuel save).length ≤ fuel := by
  induction fuel generalizing save with
  | zero => simp [tokensFrom]
  | succ fuel ih =>
    unfold tokensFrom
    split
    · simp
    · next token rest _ =>
      have shorter := ih rest
      simp only [List.length_cons]
      omega

/-- The maximal runs of bytes that are no delimiter. -/
def pieces (delim s : Str) : List Str := (s.splitOnP (dlim delim)).filter fun t => t ≠ []

theorem mem_of_mem_piece {p : UInt8 → Bool} {s t : Str} (piece : t ∈ s.splitOnP p) {c : UInt8}
    (member : c ∈ t) :
    c ∈ s ∧ p c = false := by
  induction s generalizing t with
  | nil => simp_all
  | cons x xs ih =>
    obtain ⟨first, others, shape⟩ := List.exists_cons_of_ne_nil (List.splitOnP_ne_nil p xs)
    rw [List.splitOnP_cons_eq_if_modifyHead, shape] at piece
    split at piece
    · rcases List.mem_cons.mp piece with rfl | later
      · simp at member
      · exact (ih (shape ▸ later) member).imp_left (List.mem_cons_of_mem _)
    · next plain =>
      rw [List.modifyHead_cons] at piece
      rcases List.mem_cons.mp piece with rfl | later
      · rcases List.mem_cons.mp member with rfl | inside
        · exact ⟨List.mem_cons_self, by simpa using plain⟩
        · exact (ih (shape ▸ List.mem_cons_self) inside).imp_left (List.mem_cons_of_mem _)
      · exact (ih (shape ▸ List.mem_cons_of_mem _ later) member).imp_left (List.mem_cons_of_mem _)

section Tokens
variable {delim : Str}

theorem pieces_separated {c : UInt8} (sep : dlim delim c) (s t : Str) :
    pieces delim (s ++ c :: t) = pieces delim s ++ pieces delim t := by
  rw [pieces, List.splitOnP_append_cons s t sep, List.filter_append, pieces, pieces]

theorem pieces_whole {s : Str} (nonempty : s ≠ []) (plain : ∀ c ∈ s, dlim delim c = false) :
    pieces delim s = [s] := by
  rw [pieces, List.splitOnP_eq_singleton plain, List.filter_cons_of_pos (by simpa using nonempty)]
  rfl

theorem pieces_skip {c : UInt8} {cs : Str} (sep : dlim delim c) :
    pieces delim (c :: cs) = pieces delim cs :=
  pieces_separated sep [] cs

theorem strtokR_pieces (delim s : Str) :
    (pieces delim s = [] ∧ strtokR none delim (some s) = (none, none)) ∨
    ∃ t ts save, pieces delim s = t :: ts ∧ strtokR none delim (some s) = (some t, save) ∧
      ((save = none ∧ ts = []) ∨ ∃ r, save = some r ∧ r.length < s.length ∧
      pieces delim r = ts) := by
  induction s with
  | nil => exact Or.inl ⟨rfl, rfl⟩
  | cons c cs ih =>
    by_cases sep : dlim delim c = true
    · have same : strtokR none delim (some (c :: cs)) = strtokR none delim (some cs) := by
        simp [strtokR, sep]
      rw [same, pieces_skip sep]
      rcases ih with done | ⟨t, ts, save, first, call, rest⟩
      · exact Or.inl done
      · refine Or.inr ⟨t, ts, save, first, call, rest.imp id ?_⟩
        rintro ⟨r, here, shorter, others⟩
        exact ⟨r, here, Nat.lt_succ_of_lt shorter, others⟩
    · right
      have plain : ∀ x ∈ (c :: cs).takeWhile (fun d => !dlim delim d), dlim delim x = false := by
        intro x member
        simpa using List.all_eq_true.mp List.all_takeWhile x member
      have whole := List.takeWhile_append_dropWhile (p := fun d => !dlim delim d) (l := c :: cs)
      have nonempty : (c :: cs).takeWhile (fun d => !dlim delim d) ≠ [] := by simp [sep]
      cases left : (c :: cs).dropWhile fun d => !dlim delim d with
      | nil =>
        rw [left, List.append_nil] at whole
        refine ⟨c :: cs, [], none, ?_, ?_, Or.inl ⟨rfl, rfl⟩⟩
        · exact pieces_whole (List.cons_ne_nil c cs) (by rw [whole] at plain; exact plain)
        · simp only [strtokR, Option.none_or, List.dropWhile_cons_of_neg sep, left, whole]
      | cons d r =>
        rw [left] at whole
        have stop : dlim delim d = true := by
          have := List.head?_dropWhile_not (fun d => !dlim delim d) (c :: cs)
          simpa [left] using this
        have lengths := congrArg List.length whole
        simp only [List.length_append, List.length_cons] at lengths
        refine ⟨(c :: cs).takeWhile (fun d => !dlim delim d), pieces delim r, some r, ?_, ?_,
          Or.inr ⟨r, rfl, ?_, rfl⟩⟩
        · have split := pieces_separated stop ((c :: cs).takeWhile fun d => !dlim delim d) r
          rw [whole, pieces_whole nonempty plain] at split
          exact split
        · simp only [strtokR, Option.none_or, List.dropWhile_cons_of_neg sep, left]
        · simp only [List.length_cons]
          omega

theorem tokensFrom_pieces (fuel : Nat) (s : Str) (enough : s.length < fuel) :
    tokensFrom delim fuel (some s) = pieces delim s := by
  induction fuel generalizing s with
  | zero => omega
  | succ fuel ih =>
    rcases strtokR_pieces delim s with ⟨none', call⟩ | ⟨t, ts, save, first, call, rest⟩
    · simp only [tokensFrom, call, none']
    · simp only [tokensFrom, call, first, List.cons.injEq, true_and]
      rcases rest with ⟨rfl, rfl⟩ | ⟨r, rfl, shorter, rfl⟩
      · cases fuel <;> rfl
      · exact ih r (by omega)

theorem tokens_eq_pieces (s : Str) : tokens delim s = pieces delim s :=
  tokensFrom_pieces _ s (Nat.lt_succ_self _)

end Tokens

theorem strrchrFrom_unmatched {c : UInt8} {b : Str} (absent : c ∉ b) (before : Str)
    (l : Option (Str × Str)) :
    strrchrFrom c before b l = l := by
  induction b generalizing before with
  | nil => rfl
  | cons x b ih =>
    have other : x ≠ c := fun same => absent (same ▸ List.mem_cons_self)
    rw [strrchrFrom, if_neg other]
    exact ih (fun member => absent (List.mem_cons_of_mem _ member)) _

theorem strrchrFrom_last {c : UInt8} {b : Str} (absent : c ∉ b) (a before : Str)
    (l : Option (Str × Str)) :
    strrchrFrom c before (a ++ c :: b) l = some (before ++ a, b) := by
  induction a generalizing before l with
  | nil =>
    rw [List.nil_append, strrchrFrom, if_pos rfl, strrchrFrom_unmatched absent, List.append_nil]
  | cons x a ih =>
    rw [List.cons_append, strrchrFrom, ih, List.append_assoc, List.singleton_append]

theorem strrchr_last {c : UInt8} {b : Str} (absent : c ∉ b) (a : Str) :
    strrchr (a ++ c :: b) c = some (a, b) :=
  strrchrFrom_last absent a [] none

theorem strcmp_eq_zero {s d : Str} (ends : 0 ∉ s) (ends' : 0 ∉ d) : strcmp s d = 0 ↔ s = d := by
  induction s generalizing d with
  | nil =>
    cases d with
    | nil => simp [strcmp]
    | cons y ys =>
      have nonzero : y ≠ 0 := fun zero => ends' (by simp [zero])
      simpa [strcmp] using nonzero
  | cons x xs ih =>
    have nonzero : x ≠ 0 := fun zero => ends (by simp [zero])
    cases d with
    | nil => simpa [strcmp] using nonzero
    | cons y ys =>
      by_cases same : x = y
      · simp only [List.mem_cons, not_or] at ends ends'
        simp [strcmp, same, ih ends.2 ends'.2]
      · simp [strcmp, same, sub_eq_zero]

def decimal (s : Str) : Nat := s.foldl (fun n c => n * 10 + (c.toNat - 48)) 0

theorem decimal_snoc (s : Str) (c : UInt8) :
    decimal (s ++ [c]) = decimal s * 10 + (c.toNat - 48) := by
  simp [decimal]

theorem append_digit {c : UInt8} (digit : isdigit c) (n : Nat) :
    UInt32.ofNat n * 10 + (c - 48).toUInt32 = UInt32.ofNat (n * 10 + (c.toNat - 48)) := by
  have low : (48 : UInt8) ≤ c := by
    simp only [isdigit, decide_eq_true_eq] at digit
    exact digit.1
  have less : (c - 48).toNat = c.toNat - 48 := UInt8.toNat_sub_of_le _ _ low
  apply UInt32.toNat_inj.mp
  simp only [UInt32.toNat_add, UInt32.toNat_mul, UInt32.toNat_ofNat', UInt8.toNat_toUInt32, less,
    UInt32.reduceToNat]
  omega

theorem atoiDigits_append {s rest : Str} (digits : ∀ c ∈ s, isdigit c)
    (ends : ∀ c, rest.head? = some c → isdigit c = false) (n : Nat) :
    atoiDigits (s ++ rest) (UInt32.ofNat n) =
      UInt32.ofNat (s.foldl (fun n c => n * 10 + (c.toNat - 48)) n) := by
  induction s generalizing n with
  | nil =>
    cases rest with
    | nil => rfl
    | cons c rest =>
      rw [List.nil_append, atoiDigits, ends c rfl]
      rfl
  | cons c s ih =>
    have digit := digits c List.mem_cons_self
    rw [List.cons_append, atoiDigits, if_pos digit, append_digit digit, List.foldl_cons]
    exact ih (fun d member => digits d (List.mem_cons_of_mem _ member)) _

theorem atoiDigits_eq {s : Str} (digits : ∀ c ∈ s, isdigit c) (n : Nat) :
    atoiDigits s (UInt32.ofNat n) =
      UInt32.ofNat (s.foldl (fun n c => n * 10 + (c.toNat - 48)) n) := by
  have read := atoiDigits_append digits (show ∀ c, ([] : Str).head? = some c →
    isdigit c = false by simp) n
  rwa [List.append_nil] at read

theorem atoi_digits {s : Str} (digits : ∀ c ∈ s, isdigit c) :
    atoi s = UInt32.ofNat (decimal s) := by
  have plain : s.dropWhile isspace = s := by
    cases s with
    | nil => rfl
    | cons c cs =>
      have digit := digits c List.mem_cons_self
      apply List.dropWhile_cons_of_neg
      simp only [isdigit, isspace, decide_eq_true_eq] at digit ⊢
      rintro (⟨_, high⟩ | rfl)
      · exact absurd (UInt8.le_trans digit.1 high) (by decide)
      · exact absurd digit.1 (by decide)
  have start := atoiDigits_eq digits 0
  unfold atoi
  rw [plain]
  split
  · exact absurd (digits _ List.mem_cons_self) (by decide)
  · exact absurd (digits _ List.mem_cons_self) (by decide)
  · exact start

end Strings
