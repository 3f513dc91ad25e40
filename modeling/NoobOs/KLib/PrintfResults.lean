import NoobOs.KLib.Printf
import Mathlib.Tactic.IntervalCases

/-!
What a format means, said without the loop that reads it: literal bytes and directives, each with
its field. The text of every such format is read back as those directives, and what is put is what
they mean.
-/
namespace Printf
open ByteMemory Strings

/-! ## Formats -/

inductive Flag where
  | minus | zero | plus | space
  deriving DecidableEq

def Flag.byte : Flag → UInt8
  | .minus => 0x2d
  | .zero => 0x30
  | .plus => 0x2b
  | .space => 0x20

/-- Digits that an `int` holds. -/
structure Digits where
  text : Str
  digits : ∀ c ∈ text, isdigit c
  small : decimal text < 2 ^ 31

inductive Width where
  | omitted
  | literal (d : Digits) (leading : d.text.head?.all (· ≠ 0x30) ∧ d.text ≠ [])
  | star

/-- The digits of a precision may be none or begin with zeros. -/
inductive Precision where
  | omitted
  | literal (d : Digits)
  | star

inductive Kind where
  | percent | c | s | d | i | o | u | x | upperX | p
  deriving DecidableEq

def Kind.byte : Kind → UInt8
  | .percent => 0x25
  | .c => 0x63
  | .s => 0x73
  | .d => 0x64
  | .i => 0x69
  | .o => 0x6f
  | .u => 0x75
  | .x => 0x78
  | .upperX => 0x58
  | .p => 0x70

def Kind.integer (k : Kind) : Bool := k ∈ [.d, .i, .o, .u, .x, .upperX]

/-- An `l` stands before an integer only: `lc` and `ls` are wide. -/
structure Directive where
  flags : List Flag
  width : Width
  prec : Precision
  long : Bool
  kind : Kind
  narrow : long = true → kind.integer = true

def Width.text : Width → Str
  | .omitted => []
  | .literal d _ => d.text
  | .star => [0x2a]

def Precision.text : Precision → Str
  | .omitted => []
  | .literal d => 0x2e :: d.text
  | .star => [0x2e, 0x2a]

def Directive.text (d : Directive) : Str :=
  d.flags.map Flag.byte ++ (d.width.text ++
    (d.prec.text ++ ((if d.long then [0x6c] else []) ++ [d.kind.byte])))

inductive Chunk where
  | literal (c : UInt8) (plain : c ≠ 0 ∧ c ≠ 0x25)
  | directive (d : Directive)

def Chunk.text : Chunk → Str
  | .literal c _ => [c]
  | .directive d => 0x25 :: d.text

/-! ## Their meaning -/

/-- An argument: a word, the null pointer for a string, or the address of a string. -/
inductive Arg where
  | word (w : Word)
  | null
  | string (p : Word) (s : Str)

def Arg.value : Arg → Word
  | .word w => w
  | .null => 0
  | .string p _ => p

def Arg.Ok (m : Mem) : Arg → Prop
  | .string p s => p ≠ 0 ∧ StrAt m p.toNat s ∧ s.length < 2 ^ 31
  | _ => True

def digitChar (upper : Bool) (d : Nat) : UInt8 :=
  UInt8.ofNat (if d < 10 then 0x30 + d else (if upper then 0x41 else 0x61) + (d - 10))

def numeral (upper : Bool) (base n : Nat) : Str :=
  if n = 0 then [0x30] else ((Nat.digits base n).map (digitChar upper)).reverse

/-- What a directive converts: the sign, the text, and whether the value is the number zero. -/
structure Item where
  sign : Str
  body : Str
  zero : Bool

def intNumeral (prec : Option Nat) (upper : Bool) (base n : Nat) : Str :=
  if n = 0 ∧ prec = some 0 then [] else numeral upper base n

def signFlag (flags : List Flag) : Str :=
  if .plus ∈ flags then [0x2b] else if .space ∈ flags then [0x20] else []

/-- A precision is the most that is put of a string. -/
def cut : Option Nat → Str → Str
  | none, s => s
  | some n, s => s.take n

/-- The item and the arguments left. -/
def item (flags : List Flag) (prec : Option Nat) : Kind → List Arg → Option (Item × List Arg)
  | .percent, args => some (⟨[], [0x25], false⟩, args)
  | .c, .word w :: args => some (⟨[], [UInt8.ofNat w.toNat], false⟩, args)
  | .s, .null :: args => some (⟨[], [], false⟩, args)
  | .s, .string _ s :: args => some (⟨[], cut prec s, false⟩, args)
  | .d, .word w :: args | .i, .word w :: args =>
    some (⟨if w.toInt < 0 then [0x2d] else signFlag flags,
      intNumeral prec false 10 w.toInt.natAbs, w = 0⟩, args)
  | .o, .word w :: args => some (⟨[], intNumeral prec false 8 w.toNat, w = 0⟩, args)
  | .u, .word w :: args => some (⟨[], intNumeral prec false 10 w.toNat, w = 0⟩, args)
  | .x, .word w :: args | .p, .word w :: args =>
    some (⟨[], intNumeral prec false 16 w.toNat, w = 0⟩, args)
  | .upperX, .word w :: args => some (⟨[], intNumeral prec true 16 w.toNat, w = 0⟩, args)
  | _, _ => none

def leastDigits (k : Kind) (prec : Option Nat) : Nat :=
  if k = .s then 0 else prec.getD (if k = .p then 8 else 0)

/-- The text in its field: blanks or zeros up to the width, and nothing ever cut off. -/
def field (left zeros : Bool) (width : Nat) (sign digits : Str) : Str :=
  let pad := width - (sign.length + digits.length)
  if left then sign ++ digits ++ List.replicate pad 0x20
  else if zeros then sign ++ List.replicate pad 0x30 ++ digits
  else List.replicate pad 0x20 ++ sign ++ digits

/-- The width and whether it asks for the left side, from an argument for `*`; `-2^31` has no
    opposite. -/
def Width.value : Width → List Arg → Option (Nat × Bool × List Arg)
  | .omitted, args => some (0, false, args)
  | .literal d _, args => some (decimal d.text, false, args)
  | .star, .word w :: args => if w = 0x80000000 then none
    else some (w.toInt.natAbs, w.toInt < 0, args)
  | .star, _ => none

/-- A negative precision is as good as none. -/
def Precision.value : Precision → List Arg → Option (Option Nat × List Arg)
  | .omitted, args => some (none, args)
  | .literal d, args => some (some (decimal d.text), args)
  | .star, .word w :: args => some (if w.toInt < 0 then none else some w.toInt.toNat, args)
  | .star, _ => none

def Directive.meaning (d : Directive) (args : List Arg) : Option (Str × List Arg) := do
  let (width, leftArg, args) ← d.width.value args
  let (prec, args) ← d.prec.value args
  let (it, args) ← item d.flags prec d.kind args
  let left := leftArg || decide (.minus ∈ d.flags)
  let zeros := decide (.zero ∈ d.flags) && !(d.kind.integer && prec.isSome) &&
    !(it.zero && decide (prec = some 0))
  pure (field left zeros width it.sign
    (List.replicate (leastDigits d.kind prec - it.body.length) 0x30 ++ it.body), args)

def meaning : List Chunk → List Arg → Option (Str × List Arg)
  | [], args => some ([], args)
  | .literal c _ :: chunks, args => (meaning chunks args).map fun (out, rest) => (c :: out, rest)
  | .directive d :: chunks, args => do
    let (out, args) ← d.meaning args
    let (outs, rest) ← meaning chunks args
    pure (out ++ outs, rest)

/-! ## Reading a format -/

def Kind.conv : Kind → Conv
  | .percent => .percent
  | .c => .char
  | .s => .string
  | .d | .i => .signedInt
  | .o => .octal
  | .u => .unsignedInt
  | .x | .upperX => .hexInt
  | .p => .pointer

def prependOf (flags : List Flag) (before : UInt8) : UInt8 :=
  if .plus ∈ flags then 0x2b else if before = 0 then (if .space ∈ flags then 0x20 else 0)
  else before

def Width.opt : Width → Opt × Int
  | .omitted => (.none, 0)
  | .literal d _ => (.literal, decimal d.text)
  | .star => (.star, 0)

def Precision.opt : Precision → Opt × Int
  | .omitted => (.none, 0)
  | .literal d => (.literal, decimal d.text)
  | .star => (.star, 0)

def Directive.spec (d : Directive) : FormatSpec where
  fieldWidth := d.width.opt.2
  prec := d.prec.opt.2
  precOpt := d.prec.opt.1
  fieldWidthOpt := d.width.opt.1
  leftJustified := decide (.minus ∈ d.flags)
  leadingZeroPad := decide (.zero ∈ d.flags)
  prepend := prependOf d.flags 0
  caseAdjust := if d.kind = .upperX then 0 else 0x20
  lengthLong := d.long
  convSpec := d.kind.conv

section Reading
variable {rest : Str} {fs : FormatSpec} {d : Directive}

theorem parseFlags_text (flags : List Flag)
    (stop : ∀ c, rest.head? = some c → c ≠ 0x2d ∧ c ≠ 0x30 ∧ c ≠ 0x2b ∧ c ≠ 0x20) :
    parseFlags (flags.map Flag.byte ++ rest) fs = (rest, { fs with
      leftJustified := fs.leftJustified || decide (.minus ∈ flags)
      leadingZeroPad := fs.leadingZeroPad || decide (.zero ∈ flags)
      prepend := prependOf flags fs.prepend }) := by
  induction flags generalizing fs with
  | nil =>
    have same : prependOf [] fs.prepend = fs.prepend := by
      by_cases none : fs.prepend = 0 <;> simp [prependOf, none]
    cases rest with
    | nil => simp [parseFlags, same]
    | cons c rest =>
      obtain ⟨one, two, three, four⟩ := stop c rfl
      simp [parseFlags, one, two, three, four, same]
  | cons f flags ih =>
    cases f with
    | minus => simp [parseFlags, Flag.byte, ih, prependOf]
    | zero => simp [parseFlags, Flag.byte, ih, prependOf]
    | plus => simp [parseFlags, Flag.byte, ih, prependOf]
    | space =>
      by_cases none : fs.prepend = 0
      · simp [parseFlags, Flag.byte, ih, prependOf, none]
      · simp [parseFlags, Flag.byte, ih, prependOf, none]

theorem parseDigits_text (rest : Str) {s : Str} (digits : ∀ c ∈ s, isdigit c)
    (stop : ∀ c, rest.head? = some c → isdigit c = false) (n : Nat) :
    parseDigits (s ++ rest) n =
    (rest, ((s.foldl (fun n c => n * 10 + (c.toNat - 48)) n : Nat) : Int)) := by
  induction s generalizing n with
  | nil =>
    cases rest with
    | nil => rfl
    | cons c rest => simp [parseDigits, stop c rfl]
  | cons c s ih =>
    have digit := digits c List.mem_cons_self
    have value : (n : Int) * 10 + ((c.toNat : Int) - 0x30) =
        ((n * 10 + (c.toNat - 48) : Nat) : Int) := by
      have low : 48 ≤ c.toNat := by
        simp only [isdigit, decide_eq_true_eq] at digit
        exact UInt8.le_iff_toNat_le.mp digit.1
      omega
    rw [List.cons_append, parseDigits, if_pos digit, value, List.foldl_cons]
    exact ih (fun x member => digits x (List.mem_cons_of_mem _ member)) _

def letters : Str := [0x6c, 0x25, 0x63, 0x73, 0x64, 0x69, 0x6f, 0x75, 0x78, 0x58, 0x70]

theorem letters_plain : ∀ c ∈ letters, isdigit c = false ∧ c ≠ 0x2e ∧ c ≠ 0x2a ∧ c ≠ 0x2d ∧
    c ≠ 0x30 ∧ c ≠ 0x2b ∧ c ≠ 0x20 := by
  simp [letters, isdigit]

theorem kind_letter (k : Kind) : k.byte ∈ letters ∧ k.byte ≠ 0x6c := by
  cases k <;> decide

theorem parseConv_text (k : Kind) : parseConv (k.byte :: rest) fs =
    some
    (rest,
    { fs with caseAdjust := if k = .upperX then 0 else fs.caseAdjust, convSpec := k.conv }) := by
  cases k <;> simp [parseConv, Kind.byte, Kind.conv]

theorem parseLength_text (long : Bool) (k : Kind) :
    parseLength ((if long then [0x6c] else []) ++ k.byte :: rest) fs =
    (k.byte :: rest, { fs with lengthLong := fs.lengthLong || long }) := by
  cases long with
  | true => simp [parseLength]
  | false => simp [parseLength, (kind_letter k).2]

theorem parsePrec_text (p : Precision) (stop : ∀ c, rest.head? = some c → c ∈ letters)
    (nonempty : rest ≠ []) (none : fs.prec = 0)
    (omitted : fs.precOpt = .none) :
    parsePrec (p.text ++ rest) fs = (rest, { fs with prec := p.opt.2, precOpt := p.opt.1 }) := by
  obtain ⟨c, rest, rfl⟩ := List.exists_cons_of_ne_nil nonempty
  obtain ⟨digit, dot, star, minus, -⟩ := letters_plain c (stop c rfl)
  cases p with
  | omitted => simp [parsePrec, Precision.text, Precision.opt, dot, ← none, ← omitted]
  | star => simp [parsePrec, Precision.text, Precision.opt, none]
  | literal d =>
    have read :=
      parseDigits_text (c :: rest) d.digits (fun x first => by cases first; exact digit) 0
    cases start : d.text with
    | nil =>
      rw [start] at read
      simp only [Precision.text, Precision.opt, start, parsePrec, List.cons_append, List.nil_append,
        star, minus, if_false, if_true] at read ⊢
      rw [show parseDigits (c :: rest) 0 = (c :: rest, 0) from read]
      rfl
    | cons x s =>
      have first := d.digits x (by rw [start]; exact List.mem_cons_self)
      have notStar : x ≠ 0x2a := by
        rintro rfl
        exact absurd first (by decide)
      have notMinus : x ≠ 0x2d := by
        rintro rfl
        exact absurd first (by decide)
      rw [start] at read
      simp only [Precision.text, Precision.opt, start, parsePrec, List.cons_append, notStar,
        notMinus, if_false, if_true] at read ⊢
      rw [show parseDigits (x :: (s ++ c :: rest)) 0 =
        (c :: rest, ((decimal (x :: s) : Nat) : Int)) from read]

theorem parseWidth_text (w : Width) (stop : ∀ c, rest.head? = some c → isdigit c = false ∧ c ≠ 0x2a)
    (nonempty : rest ≠ [])
    (zero : fs.fieldWidth = 0) :
    parseWidth (w.text ++ rest) fs =
    (rest, { fs with fieldWidth := w.opt.2, fieldWidthOpt := w.opt.1 }) := by
  obtain ⟨c, rest, rfl⟩ := List.exists_cons_of_ne_nil nonempty
  obtain ⟨digit, star⟩ := stop c rfl
  cases w with
  | omitted =>
    have read : parseDigits (c :: rest) 0 = (c :: rest, 0) := by simp [parseDigits, digit]
    simp [parseWidth, Width.text, Width.opt, star, read, digit]
  | star => simp [parseWidth, Width.text, Width.opt, zero]
  | literal d leading =>
    have read :=
      parseDigits_text (c :: rest) d.digits (fun x first => by cases first; exact digit) 0
    obtain ⟨x, s, start⟩ := List.exists_cons_of_ne_nil leading.2
    have first := d.digits x (by rw [start]; exact List.mem_cons_self)
    have notStar : x ≠ 0x2a := by
      rintro rfl
      exact absurd first (by decide)
    rw [start] at read
    simp only [Width.text, Width.opt, start, parseWidth, List.cons_append, notStar, if_false,
      if_true, first] at read ⊢
    rw [show parseDigits (x :: (s ++ c :: rest)) 0 =
      (c :: rest, ((decimal (x :: s) : Nat) : Int)) from read]

theorem parse_text (d : Directive) (rest : Str) :
    parseFormatSpec (d.text ++ rest) = some (rest, d.spec) := by
  have lettersHead : ∀ c, ((if d.long then [0x6c] else []) ++ d.kind.byte :: rest).head? = some c →
      c ∈ letters := by
    intro c first
    cases long : d.long with
    | true =>
      rw [long] at first
      cases first
      decide
    | false =>
      rw [long] at first
      cases first
      exact (kind_letter d.kind).1
  have lettersSome : (if d.long then [0x6c] else []) ++ d.kind.byte :: rest ≠ [] := by simp
  have precHead :
    ∀ c, (d.prec.text ++ ((if d.long then [0x6c] else []) ++ d.kind.byte :: rest)).head? = some c →
      c = 0x2e ∨ c ∈ letters := by
    intro c first
    cases prec : d.prec with
    | omitted =>
      rw [prec] at first
      exact Or.inr (lettersHead c first)
    | literal e =>
      rw [prec] at first
      cases first
      exact Or.inl rfl
    | star =>
      rw [prec] at first
      cases first
      exact Or.inl rfl
  have precSome : d.prec.text ++ ((if d.long then [0x6c] else []) ++ d.kind.byte :: rest) ≠ [] := by
    simp
  have plain : ∀ c, c = 0x2e ∨ c ∈ letters → isdigit c = false ∧ c ≠ 0x2a ∧ c ≠ 0x2d ∧ c ≠ 0x30 ∧
      c ≠ 0x2b ∧ c ≠ 0x20 := by
    rintro c (rfl | letter)
    · decide
    · obtain ⟨digit, -, others⟩ := letters_plain c letter
      exact ⟨digit, others⟩
  have widthHead :
    ∀ c,
    (d.width.text ++ (d.prec.text ++
    ((if d.long then [0x6c] else []) ++ d.kind.byte :: rest))).head? = some c →
      c ≠ 0x2d ∧ c ≠ 0x30 ∧ c ≠ 0x2b ∧ c ≠ 0x20 := by
    intro c first
    cases width : d.width with
    | omitted =>
      rw [width] at first
      exact (plain c (precHead c first)).2.2
    | star =>
      rw [width] at first
      cases first
      decide
    | literal e leading =>
      obtain ⟨x, s, start⟩ := List.exists_cons_of_ne_nil leading.2
      have digit := e.digits x (by rw [start]; exact List.mem_cons_self)
      have nonzero := leading.1
      rw [width, Width.text, start] at first
      rw [start] at nonzero
      cases first
      refine ⟨?_, by simpa using nonzero, ?_, ?_⟩ <;> · rintro rfl; exact absurd digit (by decide)
  have text : d.text ++ rest =
      d.flags.map Flag.byte ++ (d.width.text ++
          (d.prec.text ++ ((if d.long then [0x6c] else []) ++ d.kind.byte :: rest))) := by
    simp [Directive.text]
  rw [text, parseFormatSpec, parseFlags_text d.flags widthHead]
  simp only
  rw [parseWidth_text d.width
    (fun c first => ⟨(plain c (precHead c first)).1, (plain c (precHead c first)).2.1⟩) precSome
    rfl]
  simp only
  rw [parsePrec_text d.prec lettersHead lettersSome rfl rfl]
  simp only
  rw [parseLength_text, parseConv_text]
  simp [cleared, Directive.spec]

end Reading

/-! ## Numerals -/

theorem utoaDigit_eq (upper : Bool) (base val : Nat) :
    utoaDigit base (if upper then 0 else 0x20) val = digitChar upper (val % base) := by
  rw [utoaDigit, digitChar]
  congr 1
  by_cases decimal : val % base < 10
  · simp only [decimal, if_true]
  · cases upper
    · show (if val % base < 10 then 0x30 else 0x37 + 32) + val % base = _
      simp only [decimal, if_false, Bool.false_eq_true]
      omega
    · show (if val % base < 10 then 0x30 else 0x37 + 0) + val % base = _
      simp only [decimal, if_false, if_true]
      omega

theorem utoaLoop_digits {base : Nat} (upper : Bool) (two : 2 ≤ base) (fuel val : Nat)
    (positive : 0 < val)
    (enough : val < 2 ^ fuel) :
    utoaLoop base (if upper then 0 else 0x20) fuel val = (Nat.digits base val).map
    (digitChar upper) := by
  induction fuel generalizing val with
  | zero => omega
  | succ fuel ih =>
    rw [utoaLoop, utoaDigit_eq, Nat.digits_def' (by omega) positive, List.map_cons]
    congr 1
    have shrinks : val / base ≤ val / 2 := Nat.div_le_div_left two (by decide)
    by_cases last : val / base = 0
    · rw [if_pos last, last, Nat.digits_zero]
      rfl
    · rw [if_neg last]
      exact ih (val / base) (Nat.pos_of_ne_zero last) (by rw [Nat.pow_succ] at enough; omega)

theorem utoaRev_numeral {base val : Nat} (upper : Bool) (two : 2 ≤ base) (word : val < 2 ^ 32) :
    (utoaRev val base (if upper then 0 else 0x20)).reverse = numeral upper base val := by
  rw [utoaRev, numeral]
  by_cases zero : val = 0
  · subst zero
    rw [if_pos rfl, utoaLoop, utoaDigit_eq, if_pos (Nat.zero_div base), Nat.zero_mod]
    cases upper <;> rfl
  · rw [if_neg zero, utoaLoop_digits upper two 32 val (Nat.pos_of_ne_zero zero) word]

theorem utoaRev_length {base val : Nat} (adj : UInt8) (eight : 8 ≤ base) (word : val < 2 ^ 32) :
    (utoaRev val base adj).length ≤ 11 := by
  have bound : ∀ k fuel v, v < 8 ^ (k + 1) → (utoaLoop base adj fuel v).length ≤ k + 1 := by
    intro k
    induction k with
    | zero =>
      intro fuel v less
      cases fuel with
      | zero => simp [utoaLoop]
      | succ fuel => simp [utoaLoop, Nat.div_eq_of_lt (show v < base by omega)]
    | succ k ih =>
      intro fuel v less
      cases fuel with
      | zero => simp [utoaLoop]
      | succ fuel =>
        have smaller : v / base < 8 ^ (k + 1) := by
          have eighth : v / base ≤ v / 8 := Nat.div_le_div_left eight (by decide)
          have divided : v / 8 < 8 ^ (k + 1) := by
            rw [Nat.div_lt_iff_lt_mul (by decide)]
            rwa [Nat.pow_succ] at less
          omega
        have rest := ih fuel (v / base) smaller
        rw [utoaLoop, List.length_cons]
        split
        · simp
        · omega
  exact bound 10 32 val (Nat.lt_trans word (by decide))

/-! ## One directive -/

section Field
variable {m : Mem} {d : Directive} {args args' : List Arg} {width : Nat} {left : Bool}
  {prec : Option Nat}

theorem convert_fits {fs : FormatSpec} {ws : List Word} {v : Converted}
    (done : convert m fs ws = some v)
    (other : fs.convSpec ≠ .string) : v.cbuf.length ≤ 11 := by
  have numbers (val base : Nat) (eight : 8 ≤ base) (word : val < 2 ^ 32) :
      (number fs val base).length ≤ 11 := by
    rw [number]
    split
    · simp
    · exact utoaRev_length _ eight word
  cases ws with
  | nil =>
    cases conv : fs.convSpec <;> simp only [convert, conv, Option.some.injEq, reduceCtorEq] at done
    subst done
    simp
  | cons w ws =>
    cases conv : fs.convSpec <;> simp only [convert, conv, Option.some.injEq] at done
      <;> first | exact absurd conv other | subst done
    · simp
    · simp
    · exact numbers _ _ (by decide) (by split <;> exact BitVec.isLt _)
    · exact numbers _ _ (by decide) w.isLt
    · exact numbers _ _ (by decide) w.isLt
    · exact numbers _ _ (by decide) w.isLt
    · exact numbers _ _ (by decide) w.isLt

def Directive.resolved (d : Directive) (width : Nat) (left : Bool) (prec : Option Nat) :
    FormatSpec :=
  { d.spec with
    fieldWidth := width
    leftJustified := left || decide (.minus ∈ d.flags)
    prec := ((prec.getD (if d.kind = .p then 8 else 0) : Nat) : Int)
    precOpt := if prec.isSome then d.prec.opt.1 else .none
    leadingZeroPad := decide (.zero ∈ d.flags) && !(d.kind.integer && prec.isSome) }

theorem starWidth_value (takes : d.width.value args = some (width, left, args')) :
    starWidth d.spec (args.map Arg.value) = some ({ d.spec with
      fieldWidth := width
      leftJustified := left || decide (.minus ∈ d.flags) }, args'.map Arg.value) := by
  cases kind : d.width with
  | omitted =>
    rw [kind, Width.value] at takes
    cases takes
    simp [starWidth, Directive.spec, kind, Width.opt]
  | literal e leading =>
    rw [kind, Width.value] at takes
    cases takes
    simp [starWidth, Directive.spec, kind, Width.opt]
  | star =>
    rw [kind] at takes
    match args, takes with
    | .word w :: args, takes =>
      simp only [Width.value] at takes
      split at takes
      · cases takes
      · cases takes
        by_cases negative : w.toInt < 0
        · simp [starWidth, Directive.spec, kind, Width.opt, Arg.value, negative]
          exact (abs_of_neg negative).symm
        · simp [starWidth, Directive.spec, kind, Width.opt, Arg.value, negative]
          exact (abs_of_nonneg (not_lt.mp negative)).symm

theorem starPrec_value (fs : FormatSpec) (same : fs.precOpt = d.prec.opt.1 ∧ fs.prec = d.prec.opt.2)
    (takes : d.prec.value args = some (prec, args')) :
    starPrec fs (args.map Arg.value) = some ({ fs with
      prec := ((prec.getD 0 : Nat) : Int)
      precOpt := if prec.isSome then d.prec.opt.1 else .none }, args'.map Arg.value) := by
  obtain ⟨opt, value⟩ := same
  cases kind : d.prec with
  | omitted =>
    rw [kind] at takes opt value
    cases takes
    simp only [Precision.opt] at opt value
    simp [starPrec, opt, ← value]
    simp [← opt]
  | literal e =>
    rw [kind] at takes opt value
    cases takes
    simp only [Precision.opt] at opt value
    simp [starPrec, opt, ← value, Precision.opt]
    simp [← opt]
  | star =>
    rw [kind] at takes opt value
    match args, takes with
    | .word w :: args, takes =>
      cases takes
      simp only [Precision.opt] at opt value
      by_cases negative : w.toInt < 0
      · simp [starPrec, opt, Arg.value, negative]
      · simp [starPrec, opt, Arg.value, negative, Precision.opt]
        exact not_lt.mp negative

theorem prec_given (takes : d.prec.value args = some (prec, args')) :
    prec.isSome = true → d.prec.opt.1 ≠ .none := by
  intro given
  cases kind : d.prec with
  | omitted =>
    rw [kind] at takes
    cases takes
    exact absurd given (by simp)
  | literal e => simp [Precision.opt]
  | star => simp [Precision.opt]

theorem defaults_resolved (given : prec.isSome = true → d.prec.opt.1 ≠ .none) (width : Nat)
    (left : Bool) :
    ignoreZero (defaultPrec { d.spec with
      fieldWidth := width
      leftJustified := left || decide (.minus ∈ d.flags)
      prec := ((prec.getD 0 : Nat) : Int)
      precOpt := if prec.isSome then d.prec.opt.1 else .none }) = d.resolved width left prec := by
  cases prec with
  | none => cases kind : d.kind
    <;> simp [defaultPrec, ignoreZero, Directive.resolved, Directive.spec, kind,
    Kind.conv, Kind.integer]
  | some n =>
    have some := given rfl
    cases kind : d.kind <;>
      simp [defaultPrec, ignoreZero, Directive.resolved, Directive.spec, kind, Kind.conv,
        Kind.integer, some]

theorem signOf_prepend (flags : List Flag) : signOf (prependOf flags 0) = signFlag flags := by
  simp only [signOf, prependOf, signFlag]
  by_cases plus : Flag.plus ∈ flags
  · simp [plus]
  · by_cases space : Flag.space ∈ flags <;> simp [plus, space]

theorem stringBytes_all {s : Str} {a fuel : Nat} (here : StrAt m a s) (enough : s.length < fuel) :
    stringBytes m fuel none a = some s := by
  induction s generalizing a fuel with
  | nil =>
    obtain ⟨fuel, rfl⟩ := Nat.exists_eq_add_of_lt enough
    simp [stringBytes, here.empty]
  | cons c s ih =>
    obtain ⟨fuel, rfl⟩ := Nat.exists_eq_add_of_lt enough
    obtain ⟨first, nonzero, rest⟩ := here.first
    rw [show (c :: s).length + fuel + 1 = (s.length + fuel + 1) + 1 by rw [List.length_cons]; omega,
      stringBytes]
    rw [if_pos ⟨rfl, by rw [first]; exact nonzero⟩]
    rw [Option.map_none, ih rest (by omega), first]
    rfl

theorem stringBytes_take {s : Str} {a fuel : Nat} (here : StrAt m a s)
    (enough : s.length < fuel) (n : Nat) :
    stringBytes m fuel (some (n : Int)) a = some (s.take n) := by
  induction s generalizing a fuel n with
  | nil =>
    obtain ⟨fuel, rfl⟩ := Nat.exists_eq_add_of_lt enough
    simp [stringBytes, here.empty]
  | cons c s ih =>
    obtain ⟨fuel, rfl⟩ := Nat.exists_eq_add_of_lt enough
    obtain ⟨first, nonzero, rest⟩ := here.first
    rw [show (c :: s).length + fuel + 1 = (s.length + fuel + 1) + 1 by rw [List.length_cons]; omega,
      stringBytes]
    cases n with
    | zero => simp
    | succ n =>
      rw [if_pos ⟨by simp, by rw [first]; exact nonzero⟩, Option.map_some,
        show ((n + 1 : Nat) : Int) - 1 = n by omega,
        ih rest (by omega), first]
      rfl

theorem stringBytes_cut {s : Str} {a fuel : Nat} (here : StrAt m a s) (enough : s.length < fuel)
    (prec : Option Nat) :
    stringBytes m fuel (prec.map ((↑) : Nat → Int)) a = some (cut prec s) := by
  cases prec with
  | none => exact stringBytes_all here enough
  | some n => exact stringBytes_take here enough n

theorem number_body (width : Nat) (left : Bool) (given : prec.isSome = true → d.prec.opt.1 ≠ .none)
    {val base : Nat} (two : 2 ≤ base) (word : val < 2 ^ 32) :
    (number (d.resolved width left prec) val base).reverse = intNumeral prec
    (decide (d.kind = .upperX)) base val := by
  have adjust : (d.resolved width left prec).caseAdjust = if decide (d.kind = .upperX) then 0
      else 0x20 := by
    simp [Directive.resolved, Directive.spec]
  have none : (val = 0 ∧ (d.resolved width left prec).precOpt ≠ .none ∧
    (d.resolved width left prec).prec = 0) ↔
      (val = 0 ∧ prec = some 0) := by
    cases prec with
    | none => simp [Directive.resolved]
    | some n => simp [Directive.resolved, given rfl]
  by_cases empty : val = 0 ∧ prec = some 0
  · rw [number, if_pos (none.mpr empty), intNumeral, if_pos empty]
    rfl
  · rw [number, if_neg (mt none.mp empty), intNumeral, if_neg empty, adjust,
      utoaRev_numeral _ two word]

theorem magnitude (w : Word) :
    (if w.toInt < 0 then (0 - w).toNat else w.toNat) = w.toInt.natAbs := by
  have bound := w.isLt
  rw [BitVec.toInt_eq_toNat_cond]
  by_cases positive : 2 * w.toNat < 2 ^ 32
  · simp only [positive, if_true]
    rw [if_neg (by omega)]
    omega
  · simp only [positive, if_false]
    rw [if_pos (by omega), BitVec.toNat_sub]
    simp only [BitVec.ofNat_eq_ofNat, BitVec.toNat_ofNat]
    omega

structure Converts (m : Mem) (d : Directive) (fs : FormatSpec) (args args' : List Arg) (it : Item)
    (v : Converted) : Prop where
  done : convert m fs (args.map Arg.value) = some v
  left : v.args = args'.map Arg.value
  sign : signOf v.signC = it.sign
  zero : v.zero = it.zero
  text : (if d.kind = .s then v.cbuf else v.cbuf.reverse) = it.body

section Conversions
variable (args : List Arg) (width : Nat) (left : Bool)
  (given : prec.isSome = true → d.prec.opt.1 ≠ .none)
include given

theorem convert_string (kind : d.kind = .s) {p : Word} {s : Str} (ok : (Arg.string p s).Ok m) :
    ∃ v, Converts m d (d.resolved width left prec) (.string p s :: args) args
      ⟨[], cut prec s, false⟩ v := by
  have conv : (d.resolved width left prec).convSpec = .string := congrArg Kind.conv kind
  have limit : (if (d.resolved width left prec).precOpt = .none then none
      else some (d.resolved width left prec).prec) = prec.map ((↑) : Nat → Int) := by
    cases prec with
    | none => simp [Directive.resolved]
    | some n => simp [Directive.resolved, given rfl]
  obtain ⟨pointer, here, short⟩ := ok
  have bytes := stringBytes_cut here (show s.length < 2 ^ 32 by omega) prec
  refine ⟨⟨cut prec s, 0, false, args.map Arg.value⟩, ?_, rfl, rfl, rfl, if_pos kind⟩
  simp only [convert, conv, List.map_cons, Arg.value, limit, if_neg pointer, bytes]
  rfl

theorem convert_signed (kind : d.kind.conv = .signedInt) (w : Word) :
    ∃ v, Converts m d (d.resolved width left prec) (.word w :: args) args
      ⟨if w.toInt < 0 then [0x2d] else signFlag d.flags, intNumeral prec false 10 w.toInt.natAbs,
        w = 0⟩ v := by
  have conv : (d.resolved width left prec).convSpec = .signedInt := kind
  have prepend : (d.resolved width left prec).prepend = prependOf d.flags 0 := rfl
  have small : w.toInt.natAbs < 2 ^ 32 := by
    rw [← magnitude]
    split <;> exact BitVec.isLt _
  have text := number_body (d := d) width left given (show 2 ≤ 10 by decide) small
  have lower : d.kind ≠ .upperX := fun upper => by simp [upper, Kind.conv] at kind
  have other : d.kind ≠ .s := fun string => by simp [string, Kind.conv] at kind
  rw [decide_eq_false lower] at text
  refine ⟨⟨number (d.resolved width left prec) w.toInt.natAbs 10,
    if w.toInt < 0 then 0x2d else prependOf d.flags 0, w = 0, args.map Arg.value⟩, ?_, rfl, ?_, rfl,
    (if_neg other).trans text⟩
  · simp only [convert, conv, List.map_cons, Arg.value, magnitude, prepend]
  · by_cases negative : w.toInt < 0
    · simp only [negative, if_true]
      rfl
    · simp only [negative, if_false]
      exact signOf_prepend d.flags

theorem convert_unsigned (kind : d.kind.conv ∈ [.octal, .unsignedInt, .hexInt, .pointer])
    (w : Word) :
    ∃ v, Converts m d (d.resolved width left prec) (.word w :: args) args
      ⟨[], intNumeral prec (decide (d.kind = .upperX)) (baseOf d.kind.conv) w.toNat, w = 0⟩ v := by
  have conv : (d.resolved width left prec).convSpec = d.kind.conv := rfl
  have two : 2 ≤ baseOf d.kind.conv := by
    unfold baseOf
    split <;> decide
  have text := number_body (d := d) width left given two w.isLt
  have other : d.kind ≠ .s := fun string => by simp [string, Kind.conv] at kind
  refine ⟨⟨number (d.resolved width left prec) w.toNat (baseOf d.kind.conv), 0, w = 0,
    args.map Arg.value⟩, ?_, rfl, rfl, rfl, (if_neg other).trans text⟩
  cases shape : d.kind.conv <;> simp [shape] at kind <;>
    simp [convert, conv, shape, Arg.value]

end Conversions

theorem convert_item {it : Item} (width : Nat) (left : Bool) (ok : ∀ a ∈ args, a.Ok m)
    (takes : item d.flags prec d.kind args = some (it, args'))
    (given : prec.isSome = true → d.prec.opt.1 ≠ .none) :
    ∃ v, Converts m d (d.resolved width left prec) args args' it v := by
  have conv : (d.resolved width left prec).convSpec = d.kind.conv := rfl
  have signed := convert_signed (m := m) (d := d) args' width left given
  have unsigned := convert_unsigned (m := m) (d := d) args' width left given
  cases kind : d.kind with
  | percent =>
    rw [kind] at takes conv
    cases takes
    exact ⟨⟨[0x25], 0, false, args.map Arg.value⟩, by simp [convert, conv, Kind.conv], rfl, rfl,
      rfl, by rw [kind]; rfl⟩
  | c =>
    rw [kind] at takes conv
    match args, takes with
    | .word w :: args, takes =>
      cases takes
      exact ⟨⟨[UInt8.ofNat w.toNat], 0, false, args'.map Arg.value⟩,
        by simp [convert, conv, Kind.conv, Arg.value], rfl, rfl, rfl, by rw [kind]; rfl⟩
  | s =>
    rw [kind] at takes conv
    match args, takes with
    | .null :: args, takes =>
      cases takes
      exact ⟨⟨[], 0, false, args'.map Arg.value⟩, by simp [convert, conv, Kind.conv, Arg.value],
        rfl, rfl, rfl, by rw [kind]; rfl⟩
    | .string p s :: args, takes =>
      cases takes
      exact convert_string _ width left given kind (ok (.string p s) List.mem_cons_self)
  | d | i =>
    rw [kind] at takes signed
    match args, takes with
    | .word w :: args, takes =>
      cases takes
      exact signed rfl w
  | o | u | x | upperX | p =>
    rw [kind] at takes unsigned
    match args, takes with
    | .word w :: args, takes =>
      cases takes
      exact unsigned (by decide) w

theorem width_omitted (takes : d.width.value args = some (width, left, args')) :
    d.width.opt.1 = .none → width = 0 := by
  intro omitted
  cases kind : d.width with
  | omitted =>
    rw [kind] at takes
    cases takes
    rfl
  | literal e leading =>
    rw [kind] at omitted
    cases omitted
  | star =>
    rw [kind] at omitted
    cases omitted

theorem item_string_sign {it : Item} {flags : List Flag}
    (takes : item flags prec .s args = some (it, args')) : it.sign = [] := by
  match args, takes with
  | .null :: args, takes =>
    cases takes
    rfl
  | .string p s :: args, takes =>
    cases takes
    rfl

theorem padChar_resolved (width : Nat) (left : Bool)
    (given : prec.isSome = true → d.prec.opt.1 ≠ .none) (zero : Bool) :
    padChar (d.resolved width left prec) zero =
      if d.width.opt.1 = .none then 0
      else if (decide (.zero ∈ d.flags) && !(d.kind.integer && prec.isSome) &&
      !(zero && decide (prec = some 0))) &&
        !(left || decide (.minus ∈ d.flags)) then 0x30 else 0x20 := by
  have none : ((d.resolved width left prec).precOpt ≠ .none ∧
    (d.resolved width left prec).prec = 0 ∧ zero = true) ↔
      (zero && decide (prec = some 0)) = true := by
    cases prec with
    | none => simp [Directive.resolved]
    | some n => simp [Directive.resolved, given rfl, and_comm]
  by_cases omitted : d.width.opt.1 = .none
  · rw [padChar, if_pos omitted]
    exact if_pos omitted
  · rw [padChar, if_neg omitted,
      if_neg (show ¬(d.resolved width left prec).fieldWidthOpt = .none from omitted)]
    by_cases empty : (zero && decide (prec = some 0)) = true
    · rw [if_pos (none.mpr empty), empty]
      simp
    · rw [if_neg (mt none.mp empty), Bool.not_eq_true _ |>.mp empty]
      simp [Directive.resolved]

theorem justify_field {signC : UInt8} {digits : Str} {payload : UInt8 → Str} {fieldPad : Nat}
    {zeros : Bool} {none : Prop}
    [Decidable none] (text : ∀ c, c = signC ∨ c = 0 → payload c = signOf c ++ digits)
    (pad : fieldPad = width - ((signOf signC).length + digits.length))
    (omitted : none → fieldPad = 0) :
    justify left (if none then 0 else if zeros && !left then 0x30
    else 0x20) signC fieldPad payload =
      field left zeros width (signOf signC) digits := by
  have whole := text signC (Or.inl rfl)
  have bare : payload 0 = digits := text 0 (Or.inr rfl)
  by_cases nothing : none
  · have empty : width - ((signOf signC).length + digits.length) = 0 := pad ▸ omitted nothing
    simp only [if_pos nothing, justify, field, whole, empty]
    simp
  · simp only [if_neg nothing, justify, field, whole, bare, pad]
    cases left <;> cases zeros <;> simp

theorem emit_field {v : Converted} {it : Item} (left : Bool)
    (omitted : d.width.opt.1 = .none → width = 0) (sign : signOf v.signC = it.sign)
    (zero : v.zero = it.zero) (text : (if d.kind = .s then v.cbuf else v.cbuf.reverse) = it.body)
    (bare : d.kind = .s → it.sign = [])
    (given : prec.isSome = true → d.prec.opt.1 ≠ .none) :
    emit (d.resolved width left prec) v = field (left || decide (.minus ∈ d.flags))
      (decide (.zero ∈ d.flags) && !(d.kind.integer && prec.isSome) &&
      !(it.zero && decide (prec = some 0))) width it.sign
      (List.replicate (leastDigits d.kind prec - it.body.length) 0x30 ++ it.body) := by
  have string : (d.resolved width left prec).convSpec = .string ↔ d.kind = .s := by
    cases kind : d.kind <;> simp [Directive.resolved, Directive.spec, kind, Kind.conv]
  have length : v.cbuf.length = it.body.length := by
    rw [← text]
    split <;> simp
  let n₀ := leastDigits d.kind prec - it.body.length
  have precPad : (if (d.resolved width left prec).convSpec = .string then 0
      else max 0 ((d.resolved width left prec).prec - v.cbuf.length)) = (n₀ : Int) := by
    by_cases isString : d.kind = .s
    · rw [if_pos (string.mpr isString)]
      simp [n₀, leastDigits, isString]
    · rw [if_neg (mt string.mp isString), length]
      simp only [Directive.resolved, n₀, leastDigits, isString, if_false]
      omega
  have fieldPad : max 0 ((d.resolved width left prec).fieldWidth - v.cbuf.length -
    (signOf v.signC).length - (n₀ : Int)) =
      ((width - (it.sign.length + (n₀ + it.body.length)) : Nat) : Int) := by
    rw [length, sign]
    simp only [Directive.resolved]
    omega
  have payload (c : UInt8) (same : c = v.signC ∨ c = 0) :
    (if (d.resolved width left prec).convSpec = .string then v.cbuf
      else signOf c ++ List.replicate n₀ 0x30 ++ v.cbuf.reverse) =
      signOf c ++ (List.replicate n₀ 0x30 ++ it.body) := by
    by_cases isString : d.kind = .s
    · have noSign : signOf c = [] := by
        rcases same with rfl | rfl
        · rw [sign, bare isString]
        · rfl
      rw [if_pos isString] at text
      rw [if_pos (string.mpr isString), noSign, text]
      simp [n₀, leastDigits, isString]
    · rw [if_neg isString] at text
      rw [if_neg (mt string.mp isString), text, List.append_assoc]
  have pad := padChar_resolved width left given v.zero
  have leftIs : (d.resolved width left prec).leftJustified = (left || decide (.minus ∈ d.flags)) :=
    rfl
  rw [zero] at pad
  simp only [emit, precPad, fieldPad, leftIs, zero, pad, Int.toNat_natCast]
  rw [← sign]
  refine justify_field (fun c same => ?_) ?_ ?_
  · exact payload c same
  · simp [n₀]
  · exact fun none => by rw [omitted none, Nat.zero_sub]

theorem width_left (takes : d.width.value args = some (width, left, args')) : args' ⊆ args := by
  cases kind : d.width <;> rw [kind] at takes
  case star =>
    match args, takes with
    | .word w :: args, takes =>
      simp only [Width.value] at takes
      split at takes <;> cases takes
      exact List.subset_cons_self _ _
  all_goals
    cases takes
    exact List.Subset.refl _

theorem prec_left (takes : d.prec.value args = some (prec, args')) : args' ⊆ args := by
  cases kind : d.prec <;> rw [kind] at takes
  case star =>
    match args, takes with
    | .word w :: args, takes =>
      cases takes
      exact List.subset_cons_self _ _
  all_goals
    cases takes
    exact List.Subset.refl _

theorem item_left {flags : List Flag} {k : Kind} {it : Item}
    (takes : item flags prec k args = some (it, args')) : args' ⊆ args := by
  cases k <;> match args, takes with
    | [], takes => cases takes <;> exact List.Subset.refl _
    | a :: args, takes => cases a <;> cases takes
      <;> first | exact List.subset_cons_self _ _ | exact List.Subset.refl _

theorem directive_turn {out : Str} (ok : ∀ a ∈ args, a.Ok m)
    (means : d.meaning args = some (out, args')) (fuel : Nat) (rest : Str) :
    vpprintfLoop m (fuel + 1) (0x25 :: (d.text ++ rest)) (args.map Arg.value) =
      (vpprintfLoop m fuel rest (args'.map Arg.value)).map (out ++ ·) := by
  simp only [Directive.meaning, Option.bind_eq_bind, Option.bind_eq_some_iff, Option.pure_def,
    Option.some.injEq, Prod.mk.injEq,
    Prod.exists] at means
  obtain ⟨width, left, args₁, takesWidth, prec, args₂, takesPrec, it, args₃, takesItem, rfl, rfl⟩ :=
    means
  have given := prec_given takesPrec
  have ok₂ : ∀ a ∈ args₂, a.Ok m :=
    fun a member => ok a (width_left takesWidth (prec_left takesPrec member))
  obtain ⟨v, converts, left', sign, zero, text⟩ := convert_item width left ok₂ takesItem given
  have put := emit_field left (width_omitted takesWidth) sign zero text
    (fun string => item_string_sign (string ▸ takesItem)) given
  rw [vpprintfLoop, if_pos rfl, parse_text]
  have stars := starPrec_value (d := d) { d.spec with
    fieldWidth := width
    leftJustified := left || decide (.minus ∈ d.flags) } ⟨rfl, rfl⟩ takesPrec
  have defaults := defaults_resolved (d := d) given width left
  simp only [starWidth_value takesWidth, stars, defaults, converts, put, left', Option.bind_eq_bind,
    Option.bind_some, Option.pure_def]
  cases vpprintfLoop m fuel rest (args₃.map Arg.value) <;> rfl

theorem directive_left {out : Str} (means : d.meaning args = some (out, args')) : args' ⊆ args := by
  simp only [Directive.meaning, Option.bind_eq_bind, Option.bind_eq_some_iff, Option.pure_def,
    Option.some.injEq, Prod.mk.injEq,
    Prod.exists] at means
  obtain ⟨_, _, _, takesWidth, _, _, takesPrec, _, _, takesItem, -, rfl⟩ := means
  exact fun a member => width_left takesWidth (prec_left takesPrec (item_left takesItem member))

theorem vpprintf_meaning {chunks : List Chunk} {out : Str} (ok : ∀ a ∈ args, a.Ok m)
    (means : meaning chunks args = some (out, args')) :
    vpprintf m (chunks.flatMap Chunk.text) (args.map Arg.value) = some out := by
  suffices turns : ∀ fuel, (chunks.flatMap Chunk.text).length ≤ fuel →
      vpprintfLoop m fuel (chunks.flatMap Chunk.text) (args.map Arg.value) =
        some out from turns _ (Nat.le_refl _)
  induction chunks generalizing args out with
  | nil =>
    intro fuel _
    cases means
    cases fuel <;> rfl
  | cons chunk chunks ih =>
    intro fuel enough
    rw [List.flatMap_cons, List.length_append] at enough
    cases chunk with
    | literal c plain =>
      obtain ⟨fuel, rfl⟩ : ∃ k, fuel = k + 1 :=
        ⟨fuel - 1, by simp only [Chunk.text, List.length_singleton] at enough; omega⟩
      obtain ⟨outs, meansRest, same⟩ := Option.map_eq_some_iff.mp means
      cases same
      rw [List.flatMap_cons, Chunk.text, List.singleton_append, vpprintfLoop, if_neg plain.2]
      simp only
      rw [ih ok meansRest fuel (by simp only [Chunk.text, List.length_singleton] at enough; omega),
        Option.map_some]
    | directive d =>
      obtain ⟨fuel, rfl⟩ : ∃ k, fuel = k + 1 :=
        ⟨fuel - 1, by simp only [Chunk.text, List.length_cons] at enough; omega⟩
      simp only [meaning, Option.bind_eq_bind, Option.bind_eq_some_iff, Option.pure_def,
        Option.some.injEq, Prod.mk.injEq,
        Prod.exists] at means
      obtain ⟨first, args₁, meansFirst, outs, rest, meansRest, rfl, rfl⟩ := means
      rw [List.flatMap_cons, Chunk.text, List.cons_append, directive_turn ok meansFirst,
        ih (fun a member => ok a (directive_left meansFirst member)) meansRest fuel
          (by simp only [Chunk.text, List.length_cons] at enough; omega), Option.map_some]

end Field

end Printf
