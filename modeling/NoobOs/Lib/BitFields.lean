import Mathlib.Data.BitVec

/-!
A field of `n` bits at bit `s` of a wider word, and what is left of the word when the mask
of the field is used to keep the old bits instead of clearing them.
-/
namespace BitFields

variable {m n s : Nat}

def fieldMask (m n s : Nat) : BitVec m := (BitVec.allOnes n).setWidth m <<< s

theorem fieldMask_bit (i : Nat) (fits : s + n ≤ m) :
    (fieldMask m n s).getLsbD i = (decide (s ≤ i) && decide (i < s + n)) := by
  simp only [fieldMask, BitVec.getLsbD_shiftLeft, BitVec.getLsbD_setWidth, BitVec.getLsbD_allOnes]
  by_cases low : s ≤ i
  · by_cases high : i < s + n
    · simp [low, high, show i < m by omega, show i - s < m by omega, show i - s < n by omega]
    · simp [low, high, show ¬ i - s < n by omega]
  · simp [low]

theorem shifted_field (o : BitVec m) (s : Nat) (fits : n ≤ m) :
    ((o >>> s) &&& fieldMask m n 0).setWidth n = o.extractLsb' s n := by
  apply BitVec.eq_of_getLsbD_eq
  intro i inside
  simp only [BitVec.getLsbD_setWidth, BitVec.getLsbD_and, BitVec.getLsbD_ushiftRight,
    fieldMask_bit i (by omega : 0 + n ≤ m), BitVec.getLsbD_extractLsb']
  simp [inside]

/-- The field is or-ed onto what the mask keeps of the old word. -/
def merge (o : BitVec m) (s : Nat) (d : BitVec n) : BitVec m :=
  (o &&& fieldMask m n s) ||| (d.setWidth m <<< s)

theorem merge_bit (o : BitVec m) (d : BitVec n) (i : Nat) (fits : s + n ≤ m) :
    (merge o s d).getLsbD i =
      (decide (s ≤ i) && decide (i < s + n) && (o.getLsbD i || d.getLsbD (i - s))) := by
  simp only [merge, BitVec.getLsbD_or, BitVec.getLsbD_and, fieldMask_bit i fits,
    BitVec.getLsbD_shiftLeft, BitVec.getLsbD_setWidth]
  by_cases low : s ≤ i
  · by_cases high : i < s + n
    · simp [low, high, show ¬ i < s by omega, show i < m by omega, show i - s < m by omega]
    · simp [low, high, BitVec.getLsbD_of_ge d (i - s) (by omega)]
  · simp [low]

theorem merge_field (o : BitVec m) (d : BitVec n) (fits : s + n ≤ m) :
    (merge o s d).extractLsb' s n = o.extractLsb' s n ||| d := by
  apply BitVec.eq_of_getLsbD_eq
  intro i inside
  simp only [BitVec.getLsbD_extractLsb', BitVec.getLsbD_or, merge_bit o d _ fits]
  simp [inside]

theorem merge_outside (o : BitVec m) (d : BitVec n) (fits : s + n ≤ m) {t l : Nat}
    (apart : t + l ≤ s ∨ s + n ≤ t) : (merge o s d).extractLsb' t l = 0 := by
  apply BitVec.eq_of_getLsbD_eq
  intro i inside
  have outside : ¬ (s ≤ t + i ∧ t + i < s + n) := by omega
  simp only [BitVec.getLsbD_extractLsb', merge_bit o d _ fits, ← Bool.decide_and]
  simp [outside]

/-! ## A value put under a mask -/

section Masked
variable {c k v : BitVec m}

theorem outside_mask (within : v &&& k = v) : v &&& ~~~k = 0 := by
  rw [← within, BitVec.and_assoc, BitVec.and_not_self]
  exact BitVec.and_zero

theorem cleared_field (c k v : BitVec m) : (c &&& ~~~k ||| v) &&& k = v &&& k := by
  rw [BitVec.and_or_distrib_right, BitVec.and_assoc, BitVec.not_and_self]
  simp

theorem cleared_outside (within : v &&& k = v) : (c &&& ~~~k ||| v) &&& ~~~k = c &&& ~~~k := by
  rw [BitVec.and_or_distrib_right, BitVec.and_assoc, BitVec.and_self, outside_mask within]
  simp

theorem kept_field (c k v : BitVec m) : (c &&& k ||| v) &&& k = (c ||| v) &&& k := by
  rw [BitVec.and_or_distrib_right, BitVec.and_or_distrib_right, BitVec.and_assoc, BitVec.and_self]

theorem kept_outside (c k v : BitVec m) : (c &&& k ||| v) &&& ~~~k = v &&& ~~~k := by
  rw [BitVec.and_or_distrib_right, BitVec.and_assoc, BitVec.and_not_self]
  simp

theorem all_under (none' : c &&& ~~~k = 0) : c &&& k = c := by
  have split : c &&& (k ||| ~~~k) = c &&& k ||| c &&& ~~~k := BitVec.and_or_distrib_left
  rw [none'] at split
  simpa using split.symm

theorem mask_parts (c k : BitVec m) : c &&& k ||| c &&& ~~~k = c := by
  rw [← BitVec.and_or_distrib_left, BitVec.or_not_self]
  exact BitVec.and_allOnes

theorem bits_set {b : BitVec m} (within : b &&& v = b) : (c ||| v) &&& b = b := by
  rw [BitVec.and_or_distrib_right, BitVec.and_comm v, within]
  ext i inside
  simp

theorem bits_beside (outside : v &&& k = 0) : (c ||| v) &&& k = c &&& k := by
  rw [BitVec.and_or_distrib_right, outside]
  exact BitVec.or_zero

theorem or_eq_right_iff : c ||| v = v ↔ c &&& ~~~v = 0 := by
  constructor
  · intro same
    rw [← same, BitVec.not_or, ← BitVec.and_assoc, BitVec.and_not_self]
    exact BitVec.zero_and
  · intro none'
    rw [← all_under none']
    ext i inside
    simp

theorem only_under_iff (within : v &&& k = v) :
    c &&& k &&& ~~~v = 0 ∧ c &&& ~~~k = 0 ↔ c &&& ~~~v = 0 := by
  constructor
  · rintro ⟨under, outside⟩
    rwa [all_under outside] at under
  · intro none'
    constructor
    · rw [BitVec.and_assoc, BitVec.and_comm k, ← BitVec.and_assoc, none']
      exact BitVec.zero_and
    · rw [← all_under none', BitVec.and_assoc, outside_mask within]
      exact BitVec.and_zero

end Masked

end BitFields
