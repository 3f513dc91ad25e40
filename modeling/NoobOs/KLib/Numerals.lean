import NoobOs.KLib.FieldBuffers

/-!
`atoi` on every text. The number is read modulo `2^32`: the accumulator may overflow at every
digit and still holds the value of the digits, in 32 bits.
-/
namespace Strings
open ByteMemory

/-- What `atoi` distinguishes in a text. Without a sign and digits nothing is left for it to skip.
    -/
structure Numeral where
  space : Str
  sign : Str
  digits : Str
  rest : Str
  spaces : ∀ c ∈ space, isspace c
  signs : sign = [] ∨ sign = [0x2b] ∨ sign = [0x2d]
  decimals : ∀ c ∈ digits, isdigit c
  ends : ∀ c, rest.head? = some c → isdigit c = false
  bare : sign = [] → digits = [] → ∀ c, rest.head? = some c → isspace c = false ∧
    c ≠ 0x2b ∧ c ≠ 0x2d

def Numeral.text (p : Numeral) : Str := p.space ++ (p.sign ++ (p.digits ++ p.rest))

def Numeral.value (p : Numeral) : Int :=
  if p.sign = [0x2d] then -decimal p.digits else decimal p.digits

def decimalText (n : Nat) : Str := (Nat.toDigits 10 n).map fun c => UInt8.ofNat c.toNat

theorem digit_first {c : UInt8} (digit : isdigit c) : isspace c = false ∧ c ≠ 0x2b ∧ c ≠ 0x2d := by
  simp only [isdigit, isspace, decide_eq_true_eq, decide_eq_false_iff_not] at digit ⊢
  refine ⟨?_, ?_, ?_⟩
  · rintro (⟨-, high⟩ | rfl)
    · exact absurd (UInt8.le_trans digit.1 high) (by decide)
    · exact absurd digit.1 (by decide)
  · rintro rfl
    exact absurd digit.1 (by decide)
  · rintro rfl
    exact absurd digit.1 (by decide)

theorem atoi_plain {s : Str}
    (first : ∀ c, s.head? = some c → isspace c = false ∧ c ≠ 0x2b ∧ c ≠ 0x2d) :
    atoi s = atoiDigits s 0 := by
  cases s with
  | nil => rfl
  | cons c s =>
    obtain ⟨space, plus, minus⟩ := first c rfl
    rw [atoi, List.dropWhile_cons_of_neg (by simp [space])]
    split
    · next same => exact absurd (List.cons.inj same).1 plus
    · next same => exact absurd (List.cons.inj same).1 minus
    · rfl

theorem atoi_space {space : Str} (spaces : ∀ c ∈ space, isspace c) (s : Str) :
    atoi (space ++ s) = atoi s := by
  rw [atoi, atoi, List.dropWhile_append_of_pos spaces]

section Read
variable (p : Numeral)

theorem Numeral.digits_read : atoiDigits (p.digits ++ p.rest) 0 = UInt32.ofNat (decimal p.digits) :=
  atoiDigits_append p.decimals p.ends 0

theorem Numeral.atoi_text :
    atoi p.text = if p.sign = [0x2d] then 0 - UInt32.ofNat (decimal p.digits) else UInt32.ofNat
    (decimal p.digits) := by
  rw [Numeral.text, atoi_space p.spaces, ← p.digits_read]
  rcases p.signs with none' | plus | minus
  · rw [none', List.nil_append, if_neg (by simp)]
    apply atoi_plain
    intro c first
    cases all : p.digits with
    | nil => exact p.bare none' all c (by simpa [all] using first)
    | cons d ds =>
      rw [all, List.cons_append, List.head?_cons, Option.some.injEq] at first
      exact digit_first (p.decimals c (by simp [all, first]))
  · rw [plus, if_neg (by decide)]
    rfl
  · rw [minus, if_pos rfl]
    rfl

theorem Numeral.atoi_value : (atoi p.text).toInt32.toInt = p.value.bmod (2 ^ 32) := by
  have bits : (atoi p.text).toInt32.toInt = ((atoi p.text).toNat : Int).bmod (2 ^ 32) :=
    BitVec.toInt_eq_toNat_bmod _
  have same : ((atoi p.text).toNat : Int) % 2 ^ 32 = p.value % 2 ^ 32 := by
    rw [p.atoi_text, Numeral.value]
    split
    · rw [UInt32.toNat_sub, UInt32.toNat_ofNat', UInt32.toNat_zero]
      omega
    · rw [UInt32.toNat_ofNat']
      omega
  rw [bits, ← Int.emod_bmod, ← Int.emod_bmod p.value]
  exact congrArg (Int.bmod · (2 ^ 32)) same

theorem head_dropWhile {f : UInt8 → Bool} {s : Str} {c : UInt8}
    (first : (s.dropWhile f).head? = some c) :
    f c = false := by
  have stop := List.head?_dropWhile_not f s
  rw [first] at stop
  exact stop

theorem numeral_exists (s : Str) : ∃ p : Numeral, p.text = s := by
  obtain ⟨sign, s', signs, split, plain⟩ : ∃ sign s', (sign = [] ∨ sign = [0x2b] ∨ sign = [0x2d]) ∧
      sign ++ s' = s.dropWhile isspace ∧
          (sign = [] → ∀ c, s'.head? = some c → isspace c = false ∧ c ≠ 0x2b ∧ c ≠ 0x2d) := by
    by_cases plus : (s.dropWhile isspace).head? = some 0x2b
    · obtain ⟨s', same⟩ := List.head?_eq_some_iff.mp plus
      exact ⟨[0x2b], s', Or.inr (Or.inl rfl), same.symm, by simp⟩
    · by_cases minus : (s.dropWhile isspace).head? = some 0x2d
      · obtain ⟨s', same⟩ := List.head?_eq_some_iff.mp minus
        exact ⟨[0x2d], s', Or.inr (Or.inr rfl), same.symm, by simp⟩
      · refine ⟨[], s.dropWhile isspace, Or.inl rfl, rfl, ?_⟩
        intro _ c first
        exact ⟨head_dropWhile first, fun same => plus (same ▸ first),
          fun same => minus (same ▸ first)⟩
  have digits : ∀ f : UInt8 → Bool, ∀ t : Str, ∀ c ∈ t.takeWhile f, f c := fun f t =>
    List.all_eq_true.mp List.all_takeWhile
  refine ⟨⟨s.takeWhile isspace, sign, s'.takeWhile isdigit, s'.dropWhile isdigit, digits _ _,
    signs, digits _ _,
    fun c => head_dropWhile, ?_⟩, ?_⟩
  · intro unsigned none' c first
    have whole := List.takeWhile_append_dropWhile (p := isdigit) (l := s')
    rw [none', List.nil_append] at whole
    exact plain unsigned c (whole ▸ first)
  · calc s.takeWhile isspace ++ (sign ++ (s'.takeWhile isdigit ++ s'.dropWhile isdigit))
      _ = s.takeWhile isspace ++ (sign ++ s') := by rw [List.takeWhile_append_dropWhile]
      _ = s.takeWhile isspace ++ s.dropWhile isspace := by rw [split]
      _ = s := List.takeWhile_append_dropWhile

end Read

theorem decimalText_spec (n : Nat) : (∀ c ∈ decimalText n, isdigit c) ∧
    decimal (decimalText n) = n := by
  have digit : ∀ d < 10, isdigit (UInt8.ofNat (Nat.digitChar d).toNat) = true ∧
      (UInt8.ofNat (Nat.digitChar d).toNat).toNat - 48 = d := by
    decide
  induction n using Nat.strong_induction_on with
  | _ n ih =>
    by_cases small : n < 10
    · obtain ⟨here, value⟩ := digit n small
      rw [decimalText, Nat.toDigits_of_lt_base small]
      exact ⟨by simpa using here, by simpa [decimal] using value⟩
    · obtain ⟨before, value⟩ := ih (n / 10) (by omega)
      obtain ⟨here, last⟩ := digit (n % 10) (Nat.mod_lt n (by decide : 10 > 0))
      have parts : decimalText n =
          decimalText (n / 10) ++ [UInt8.ofNat (Nat.digitChar (n % 10)).toNat] := by
        rw [decimalText, Nat.toDigits_of_base_le (by decide) (by omega), List.map_append]
        rfl
      rw [parts, decimal_snoc, value, last]
      constructor
      · intro c member
        rcases List.mem_append.mp member with inside | added
        · exact before c inside
        · rw [List.mem_singleton.mp added]
          exact here
      · omega

theorem atoi_decimalText (h : UInt32) : atoi (decimalText h.toNat) = h := by
  obtain ⟨digits, value⟩ := decimalText_spec h.toNat
  rw [atoi_digits digits, value, UInt32.ofNat_toNat]

theorem decimalText_length (h : UInt32) : (decimalText h.toNat).length < 2 ^ 32 := by
  have small := UInt32.toNat_lt h
  have short : (Nat.toDigits 10 h.toNat).length ≤ 10 :=
    (Nat.length_toDigits_le_iff (by decide) (by decide)).mpr (by omega)
  rw [decimalText, List.length_map]
  omega

/-- `atoi` of any text is its number modulo `2^32`, so a 32-bit number comes back from its text. -/
theorem atoi_reads_decimals (m : Mem) (a : Nat) :
    (∀ p : Numeral, StrAt m a p.text → p.text.length < 2 ^ 32 →
      ∃ r, atoiAt m a = some r ∧ r.toInt32.toInt = p.value.bmod (2 ^ 32)) ∧
    (∀ s, ∃ p : Numeral, p.text = s) ∧
    ∀ h : UInt32, StrAt m a (decimalText h.toNat) → atoiAt m a = some h := by
  refine ⟨?_, numeral_exists, ?_⟩
  · exact fun p here short => ⟨atoi p.text, atoiAt_eq here short, p.atoi_value⟩
  · intro h here
    rw [atoiAt_eq here (decimalText_length h), atoi_decimalText]

def negativeSeven : Mem :=
  fun x => if x = 16 then 0x20 else if x = 17 then 0x2d else if x = 18 then 0x37 else
  if x = 19 then 0x2e else 0

theorem negative_seven_read : ∃ r, atoiAt negativeSeven 16 = some r ∧
    r.toInt32.toInt = (-7 : Int).bmod (2 ^ 32) :=
  (atoi_reads_decimals negativeSeven 16).1
    ⟨[0x20], [0x2d], [0x37], [0x2e], by simp [isspace], by simp, by simp [isdigit],
      by simp [isdigit], by simp⟩
    ⟨by decide, rfl, rfl, rfl, rfl, rfl, trivial⟩ (by decide)

end Strings
