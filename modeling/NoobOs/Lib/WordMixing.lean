import Mathlib.Data.BitVec
import Mathlib.Data.Int.GCD

/-!
Mixing steps on machine words, and what they lose. A word xored with a shift of itself can
be read back bit by bit from the top. A word xored with a rotation of itself cannot: when
the distance has no factor in common with the width, exactly a word and its complement
become the same.
-/
namespace WordMixing

variable {w a s : Nat}

theorem xor_shift_injective (positive : 0 < s) (x y : BitVec w)
    (same : x ^^^ (x >>> s) = y ^^^ (y >>> s)) : x = y := by
  have bits : ∀ n i, w ≤ i + n → x.getLsbD i = y.getLsbD i := by
    intro n
    induction n with
    | zero =>
      intro i high
      rw [BitVec.getLsbD_of_ge x i high, BitVec.getLsbD_of_ge y i high]
    | succ n ih =>
      intro i high
      have bit := congrArg (fun word => word.getLsbD i) same
      simp only [BitVec.getLsbD_xor, BitVec.getLsbD_ushiftRight, ih (s + i) (by omega)] at bit
      exact Bool.xor_left_inj.mp bit
  exact BitVec.eq_of_getLsbD_eq fun i _ => bits w i (by omega)

/-- Rotation to the left as it is written in C. -/
def rotl (a : Nat) (x : BitVec w) : BitVec w := (x <<< a) ||| (x >>> (w - a))

theorem rotl_bit (narrow : a ≤ w) (x : BitVec w) (i : Nat) (inside : i < w) :
    (rotl a x).getLsbD ((i + a) % w) = x.getLsbD i := by
  simp only [rotl, BitVec.getLsbD_or, BitVec.getLsbD_shiftLeft, BitVec.getLsbD_ushiftRight]
  by_cases wraps : i + a < w
  · have gone : x.getLsbD (w - a + (i + a)) = false := BitVec.getLsbD_of_ge _ _ (by omega)
    rw [Nat.mod_eq_of_lt wraps]
    simp [wraps, gone]
  · have low : (i + a) % w = i + a - w := by
      rw [Nat.mod_eq_sub_mod (by omega), Nat.mod_eq_of_lt (by omega)]
    have back : w - a + (i + a - w) = i := by omega
    rw [low, back]
    simp [show i + a - w < a by omega]

theorem rotl_injective (narrow : a ≤ w) (x y : BitVec w) (same : rotl a x = rotl a y) : x = y := by
  apply BitVec.eq_of_getLsbD_eq
  intro i inside
  rw [← rotl_bit narrow x i inside, ← rotl_bit narrow y i inside, same]

theorem rotl_fixed (narrow : a ≤ w) (coprime : Nat.Coprime a w) (x : BitVec w)
    (fixed : rotl a x = x) : x = 0 ∨ x = BitVec.allOnes w := by
  have orbit : ∀ k, x.getLsbD (k * a % w) = x.getLsbD 0 := by
    intro k
    induction k with
    | zero => simp
    | succ k ih =>
      by_cases empty : w = 0
      · subst empty
        simp
      · have moved := rotl_bit narrow x (k * a % w) (Nat.mod_lt _ (by omega))
        rw [fixed, Nat.mod_add_mod] at moved
        rw [Nat.add_mul, Nat.one_mul, moved, ih]
  have equal : ∀ i, i < w → x.getLsbD i = x.getLsbD 0 := by
    intro i inside
    obtain ⟨k, reaches⟩ : ∃ k, k * a % w = i := by
      obtain ⟨k, _, reaches⟩ := Nat.exists_mul_mod_eq_of_coprime i coprime (by omega)
      exact ⟨k, by rw [Nat.mul_comm, reaches, Nat.mod_eq_of_lt inside]⟩
    rw [← reaches]
    exact orbit k
  cases bit : x.getLsbD 0 with
  | false =>
    left
    apply BitVec.eq_of_getLsbD_eq
    intro i inside
    rw [equal i inside, bit]
    simp
  | true =>
    right
    apply BitVec.eq_of_getLsbD_eq
    intro i inside
    rw [equal i inside, bit]
    simp [inside]

theorem rotl_xor (x y : BitVec w) : rotl a (x ^^^ y) = rotl a x ^^^ rotl a y := by
  apply BitVec.eq_of_getLsbD_eq
  intro i inside
  simp only [rotl, BitVec.getLsbD_or, BitVec.getLsbD_xor, BitVec.getLsbD_shiftLeft,
    BitVec.getLsbD_ushiftRight]
  by_cases low : i < a
  · simp [low]
  · have gone : ∀ z : BitVec w, z.getLsbD (w - a + i) = false := fun z =>
      BitVec.getLsbD_of_ge _ _ (by omega)
    simp [low, inside, gone]

theorem xor_rotl_eq_iff (narrow : a ≤ w) (coprime : Nat.Coprime a w) (x y : BitVec w) :
    x ^^^ rotl a x = y ^^^ rotl a y ↔ x = y ∨ x ^^^ y = BitVec.allOnes w := by
  have difference : x ^^^ rotl a x = y ^^^ rotl a y ↔ rotl a (x ^^^ y) = x ^^^ y := by
    have regroup : x ^^^ rotl a x ^^^ (y ^^^ rotl a y) = rotl a x ^^^ rotl a y ^^^ (x ^^^ y) := by
      ac_rfl
    rw [rotl_xor, ← BitVec.xor_eq_zero_iff, regroup, BitVec.xor_eq_zero_iff]
  rw [difference]
  constructor
  · intro fixed
    rcases rotl_fixed narrow coprime _ fixed with zero | ones
    · exact Or.inl (BitVec.xor_eq_zero_iff.mp zero)
    · exact Or.inr ones
  · rintro (rfl | ones)
    · simp [rotl]
    · rw [ones]
      apply BitVec.eq_of_getLsbD_eq
      intro i inside
      simp only [rotl, BitVec.getLsbD_or, BitVec.getLsbD_shiftLeft, BitVec.getLsbD_ushiftRight,
        BitVec.getLsbD_allOnes]
      by_cases low : i < a
      · simp [low, inside, show w - a + i < w by omega]
      · simp [low, inside, show i - a < w by omega]

end WordMixing
