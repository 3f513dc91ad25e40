import NoobOs.Crypt.Murmur
import NoobOs.Lib.WordMixing

/-!
Which bytes of its key the hash depends on. Two slips meet here: the tail loop counts
`len % 3` bytes where the body leaves `len % 4`, and the body xors the rotation into the
state instead of rotating it, so that a state and its complement become one.
-/
namespace Crypt

section Steps
variable {x y : UInt32}

theorem mul_cancels {m : UInt32} (inverse : UInt32) (unit : m * inverse = 1)
    (same : x * m = y * m) : x = y := by
  have back := congrArg (· * inverse) same
  simpa only [mul_assoc, unit, mul_one] using back

theorem xor_shift_cancels {s : Nat} (positive : 0 < s)
    (same : x.toBitVec ^^^ (x.toBitVec >>> s) = y.toBitVec ^^^ (y.toBitVec >>> s)) : x = y :=
  UInt32.toBitVec_inj.mp (WordMixing.xor_shift_injective positive _ _ same)

theorem murmurScramble_injective (same : murmurScramble x = murmurScramble y) : x = y := by
  have turned := mul_cancels 0x56ed309b (by decide) same
  have straight : x * 0xcc9e2d51 = y * 0xcc9e2d51 := by
    apply UInt32.toBitVec_inj.mp
    apply WordMixing.rotl_injective (a := 15) (by decide)
    simpa [WordMixing.rotl] using congrArg UInt32.toBitVec turned
  exact mul_cancels 0xdee13bb1 (by decide) straight

/-- A round of the body after the word has been xored in. -/
def murmurMix (h : UInt32) : UInt32 := (h ^^^ ((h <<< 13) ||| (h >>> 19))) * 5 + 0xe6546bb64

theorem murmurMix_eq_iff : murmurMix x = murmurMix y ↔ x = y ∨ x ^^^ y = 0xffffffff := by
  have mixed : murmurMix x = murmurMix y ↔
      x.toBitVec ^^^ WordMixing.rotl 13 x.toBitVec =
          y.toBitVec ^^^ WordMixing.rotl 13 y.toBitVec := by
    constructor
    · intro same
      have cancelled := mul_cancels 0xcccccccd (by decide) (add_right_cancel same)
      simpa [WordMixing.rotl] using congrArg UInt32.toBitVec cancelled
    · intro same
      have equal : x ^^^ ((x <<< 13) ||| (x >>> 19)) = y ^^^ ((y <<< 13) ||| (y >>> 19)) :=
        UInt32.toBitVec_inj.mp (by simpa [WordMixing.rotl] using same)
      simp only [murmurMix, equal]
  rw [mixed, WordMixing.xor_rotl_eq_iff (by decide) (by decide)]
  simp only [← UInt32.toBitVec_inj, UInt32.toBitVec_xor]
  rfl

def murmurFinish (h : UInt32) : UInt32 :=
  let h := h ^^^ (h >>> 16)
  let h := h * 0x85ebca6b
  let h := h ^^^ (h >>> 13)
  let h := h * 0xc2b2ae35
  h ^^^ (h >>> 16)

theorem murmurFinish_injective (same : murmurFinish x = murmurFinish y) : x = y := by
  simp only [murmurFinish] at same
  have third :=
    xor_shift_cancels (s := 16) (by decide) (by simpa using congrArg UInt32.toBitVec same)
  have second := mul_cancels 0x7ed1b41d (by decide) third
  have first :=
    xor_shift_cancels (s := 13) (by decide) (by simpa using congrArg UInt32.toBitVec second)
  have start := mul_cancels 0xa5cb9243 (by decide) first
  exact xor_shift_cancels (s := 16) (by decide) (by simpa using congrArg UInt32.toBitVec start)

end Steps

/-! ## Bytes in a word -/

theorem wordAt_congr {key key' : Nat → UInt8} {pos : Nat}
    (agree : ∀ j, pos ≤ j → j < pos + 4 → key j = key' j) : wordAt key pos = wordAt key' pos := by
  simp only [wordAt, agree pos (by omega) (by omega), agree (pos + 1) (by omega) (by omega),
    agree (pos + 2) (by omega) (by omega), agree (pos + 3) (by omega) (by omega)]

theorem or_shift_toNat {s : Nat} (low : UInt32) (byte : UInt8) (fits : low.toNat < 2 ^ s)
    (narrow : s + 8 ≤ 32) :
    (low ||| (byte.toUInt32 <<< UInt32.ofNat s)).toNat = low.toNat + 2 ^ s * byte.toNat := by
  have small : byte.toNat * 2 ^ s < 2 ^ 32 := by
    have byteSmall := byte.toNat_lt
    calc byte.toNat * 2 ^ s < 2 ^ 8 * 2 ^ s :=
      Nat.mul_lt_mul_of_pos_right byteSmall (Nat.two_pow_pos s)
      _ = 2 ^ (s + 8) := by rw [← pow_add, Nat.add_comm]
      _ ≤ 2 ^ 32 := Nat.pow_le_pow_right (by decide) narrow
  have shift : (UInt32.ofNat s).toNat % 32 = s := by
    rw [UInt32.toNat_ofNat_of_lt' (by simp [UInt32.size]; omega)]
    exact Nat.mod_eq_of_lt (by omega)
  rw [UInt32.toNat_or, UInt32.toNat_shiftLeft, shift, UInt8.toNat_toUInt32, Nat.shiftLeft_eq,
    Nat.mod_eq_of_lt small, Nat.or_comm, Nat.mul_comm,
    ← Nat.two_pow_add_eq_or_of_lt fits, Nat.add_comm]

theorem wordAt_toNat (key : Nat → UInt8) (pos : Nat) :
    (wordAt key pos).toNat = (key pos).toNat + 2 ^ 8 * (key (pos + 1)).toNat +
      2 ^ 16 * (key (pos + 2)).toNat + 2 ^ 24 * (key (pos + 3)).toNat := by
  have b0 := (key pos).toNat_lt
  have b1 := (key (pos + 1)).toNat_lt
  have b2 := (key (pos + 2)).toNat_lt
  have one := or_shift_toNat (s := 8) (key pos).toUInt32 (key (pos + 1))
    (by simpa using b0) (by decide)
  have two := or_shift_toNat (s := 16) _ (key (pos + 2)) (by rw [one]; simp; omega) (by decide)
  have three :=
    or_shift_toNat (s := 24) _ (key (pos + 3)) (by rw [two, one]; simp; omega) (by decide)
  exact three.trans (by rw [two, one, UInt8.toNat_toUInt32])

theorem wordAt_injective {key key' : Nat → UInt8} {pos : Nat}
    (same : wordAt key pos = wordAt key' pos) (j : Nat) (low : pos ≤ j) (high : j < pos + 4) :
    key j = key' j := by
  have equal := congrArg UInt32.toNat same
  rw [wordAt_toNat, wordAt_toNat] at equal
  have b0 := (key pos).toNat_lt
  have b1 := (key (pos + 1)).toNat_lt
  have b2 := (key (pos + 2)).toNat_lt
  have c0 := (key' pos).toNat_lt
  have c1 := (key' (pos + 1)).toNat_lt
  have c2 := (key' (pos + 2)).toNat_lt
  apply UInt8.toNat_inj.mp
  obtain rfl | rfl | rfl | rfl : j = pos ∨ j = pos + 1 ∨ j = pos + 2 ∨ j = pos + 3 := by omega
  all_goals omega

theorem murmurTail_congr {key key' : Nat → UInt8} {pos n : Nat} (k : UInt32)
    (agree : ∀ j, pos ≤ j → j < pos + n → key j = key' j) :
    murmurTail key pos n k = murmurTail key' pos n k := by
  induction n generalizing k with
  | zero => rfl
  | succ n ih =>
    simp only [murmurTail]
    rw [agree (pos + n) (by omega) (by omega)]
    exact ih _ fun j low high => agree j low (by omega)

theorem murmurTail_injective {key key' : Nat → UInt8} {pos n : Nat} (short : n < 3)
    (same : murmurTail key pos n 0 = murmurTail key' pos n 0) (j : Nat) (low : pos ≤ j)
    (high : j < pos + n) : key j = key' j := by
  obtain rfl | rfl | rfl : n = 0 ∨ n = 1 ∨ n = 2 := by omega
  · omega
  · obtain rfl : j = pos := by omega
    apply UInt8.toNat_inj.mp
    simpa [murmurTail] using congrArg UInt32.toNat same
  · have pair : ∀ b : Nat → UInt8,
        (murmurTail b pos 2 0).toNat = (b pos).toNat + 2 ^ 8 * (b (pos + 1)).toNat := by
      intro b
      have joined := or_shift_toNat (s := 8) (b pos).toUInt32 (b (pos + 1))
        (by simpa using (b pos).toNat_lt) (by decide)
      rw [UInt32.or_comm] at joined
      simpa [murmurTail] using joined
    have equal := congrArg UInt32.toNat same
    rw [pair, pair] at equal
    have b0 := (key pos).toNat_lt
    have c0 := (key' pos).toNat_lt
    apply UInt8.toNat_inj.mp
    obtain rfl | rfl : j = pos ∨ j = pos + 1 := by omega
    all_goals omega

/-! ## Two runs of the body -/

theorem murmurBody_zero (key : Nat → UInt8) (pos : Nat) (h : UInt32) : murmurBody key 0 pos h = h :=
  rfl

theorem murmurBody_first (key : Nat → UInt8) (n pos : Nat) (h : UInt32) :
    murmurBody key (n + 1) pos h =
      murmurBody key n (pos + 4) (murmurMix (h ^^^ murmurScramble (wordAt key pos))) := by
  unfold murmurMix
  conv => lhs; unfold murmurBody

theorem murmurBody_succ (key : Nat → UInt8) (n pos : Nat) (h : UInt32) :
    murmurBody key (n + 1) pos h =
      murmurMix (murmurBody key n pos h ^^^ murmurScramble (wordAt key (pos + 4 * n))) := by
  induction n generalizing pos h with
  | zero => rw [murmurBody_first, murmurBody_zero, murmurBody_zero, Nat.mul_zero, Nat.add_zero]
  | succ n ih =>
    rw [murmurBody_first, ih, murmurBody_first, show pos + 4 + 4 * n = pos + 4 * (n + 1) by omega]

def murmurState (key : Nat → UInt8) (seed : UInt32) (n : Nat) : UInt32 :=
  murmurBody key n 0 seed ^^^ murmurScramble (wordAt key (4 * n))

theorem murmurBody_next (key : Nat → UInt8) (seed : UInt32) (n : Nat) :
    murmurBody key (n + 1) 0 seed = murmurMix (murmurState key seed n) := by
  rw [murmurBody_succ, Nat.zero_add, murmurState]

section Keys
variable {key key' : Nat → UInt8} {seed : UInt32}

theorem murmurBody_congr {n : Nat} (agree : ∀ j < 4 * n, key j = key' j) :
    murmurBody key n 0 seed = murmurBody key' n 0 seed := by
  induction n with
  | zero => rfl
  | succ n ih =>
    rw [murmurBody_next, murmurBody_next, murmurState, murmurState,
      ih fun j below => agree j (by omega), wordAt_congr fun j _ below => agree j (by omega)]

theorem murmurState_congr {n : Nat} (agree : ∀ j < 4 * n + 4, key j = key' j) :
    murmurState key seed n = murmurState key' seed n := by
  rw [murmurState, murmurState, murmurBody_congr fun j below => agree j (by omega),
    wordAt_congr fun j _ below => agree j (by omega)]

/-- Keys that differ in one byte of the body stay apart as long as no two states are
    complements. Up to the word of that byte the states are equal, and behind it the words are. -/
theorem murmurBody_apart {i : Nat} (differ : key i ≠ key' i) (agree : ∀ j, j ≠ i → key j = key' j)
    (n : Nat) (inside : i < 4 * n) :
    murmurBody key n 0 seed ≠ murmurBody key' n 0 seed ↔
      ∀ m < n, murmurState key seed m ^^^ murmurState key' seed m ≠ 0xffffffff := by
  induction n with
  | zero => omega
  | succ n ih =>
    have earlier : murmurState key seed n ≠ murmurState key' seed n ↔
        ∀ m < n, murmurState key seed m ^^^ murmurState key' seed m ≠ 0xffffffff := by
      by_cases before : i < 4 * n
      · have words : wordAt key (4 * n) = wordAt key' (4 * n) :=
          wordAt_congr fun j low _ => agree j (by omega)
        rw [← ih before, murmurState, murmurState, words, ne_eq, UInt32.xor_left_inj]
      · have bodies : murmurBody key n 0 seed = murmurBody key' n 0 seed :=
          murmurBody_congr fun j below => agree j (by omega)
        constructor
        · intro _ m below
          rw [murmurState_congr fun j below => agree j (by omega), UInt32.xor_self]
          decide
        · intro _ same
          rw [murmurState, murmurState, bodies, UInt32.xor_right_inj] at same
          exact differ (wordAt_injective (murmurScramble_injective same) i (by omega) (by omega))
    rw [murmurBody_next, murmurBody_next, ne_eq, murmurMix_eq_iff, not_or, Nat.forall_lt_succ_right]
    exact and_congr_left fun _ => earlier

theorem murmur3_eq_iff (len : Nat) :
    murmur3 key len seed = murmur3 key' len seed ↔
      murmurBody key (len / 4) 0 seed ^^^ murmurScramble
      (murmurTail key (len / 4 * 4) (len % 3) 0) =
        murmurBody key' (len / 4) 0 seed ^^^ murmurScramble
        (murmurTail key' (len / 4 * 4) (len % 3) 0) := by
  have finish : ∀ b : Nat → UInt8, murmur3 b len seed = murmurFinish
      (murmurBody b (len / 4) 0 seed ^^^ murmurScramble (murmurTail b (len / 4 * 4) (len % 3) 0) ^^^
        UInt32.ofNat len) := by
    intro b
    unfold murmur3 murmurFinish
    rfl
  rw [finish, finish]
  constructor
  · intro same
    exact (UInt32.xor_left_inj _).mp (murmurFinish_injective same)
  · intro same
    rw [same]

theorem murmur3_body_only {len : Nat}
    (agree : ∀ j, len / 4 * 4 ≤ j → j < len / 4 * 4 + len % 3 → key j = key' j) :
    murmur3 key len seed = murmur3 key' len seed ↔
      murmurBody key (len / 4) 0 seed = murmurBody key' (len / 4) 0 seed := by
  rw [murmur3_eq_iff, murmurTail_congr 0 agree, UInt32.xor_left_inj]

theorem murmur3_tail_only {len : Nat} (agree : ∀ j < len / 4 * 4, key j = key' j) :
    murmur3 key len seed = murmur3 key' len seed ↔
      ∀ j, len / 4 * 4 ≤ j → j < len / 4 * 4 + len % 3 → key j = key' j := by
  rw [murmur3_eq_iff, murmurBody_congr fun j below => agree j (by omega), UInt32.xor_right_inj]
  constructor
  · intro same
    exact murmurTail_injective (Nat.mod_lt _ (by decide)) (murmurScramble_injective same)
  · intro tails
    rw [murmurTail_congr 0 tails]

end Keys

/-! ## The key and nothing else -/

theorem murmur3_reads_only_key_iff (len : Nat) (seed : UInt32) :
    (∀ key key' : Nat → UInt8, (∀ j < len, key j = key' j) →
      murmur3 key len seed = murmur3 key' len seed) ↔ len % 3 ≤ len % 4 := by
  constructor
  · intro blind
    by_contra far
    -- the last byte of the tail lies behind the key
    have last := (murmur3_tail_only (fun j below => if_neg (by omega))).mp
      (blind (fun j => if j = len / 4 * 4 + len % 3 - 1 then 1 else 0) (fun _ => 0)
        (fun j below => if_neg (by omega))) (len / 4 * 4 + len % 3 - 1) (by omega) (by omega)
    simp at last
  · intro near key key' agree
    rw [murmur3_tail_only fun j below => agree j (by omega)]
    intro j low high
    exact agree j (by omega)

/-- One byte behind a key of two words is part of its hash. -/
theorem murmur3_reads_behind :
    ¬ ∀ (len : Nat) (seed : UInt32) (key key' : Nat → UInt8), (∀ j < len, key j = key' j) →
      murmur3 key len seed = murmur3 key' len seed := by
  intro blind
  have last := (murmur3_tail_only (fun j below => if_neg (by omega))).mp
    (blind 8 0 (fun j => if j = 8 then 1 else 0) (fun _ => 0) (fun j below => if_neg (by omega)))
    8 (by decide) (by decide)
  simp at last

/-! ## Every byte of the key -/

/-- Keys of `len` bytes that differ in byte `i` and in no other. -/
structure OneByteApart (len : Nat) (key key' : Nat → UInt8) (i : Nat) : Prop where
  inside : i < len
  differ : key i ≠ key' i
  agree : ∀ j < len, j ≠ i → key j = key' j

def clash (low : UInt8) (pos j : Nat) : UInt8 :=
  if j = pos then low else if j = pos + 1 then 0x0b else if j = pos + 2 then 0x13
  else if j = pos + 3 then 0x08 else 0

theorem clash_complements (pos : Nat) :
    murmurScramble (wordAt (clash 0x09 pos) pos) ^^^ murmurScramble (wordAt (clash 0xdb pos) pos) =
      0xffffffff := by
  have word : ∀ low, wordAt (clash low pos) pos =
      low.toUInt32 ||| ((0x0b : UInt8).toUInt32 <<< 8) ||| ((0x13 : UInt8).toUInt32 <<< 16) |||
        ((0x08 : UInt8).toUInt32 <<< 24) := by
    intro low
    simp only [wordAt, clash, if_true, Nat.add_left_cancel_iff, Nat.add_eq_left,
      OfNat.ofNat_ne_zero,
      OfNat.ofNat_ne_one, OfNat.one_ne_ofNat, if_false, one_ne_zero, Nat.reduceEqDiff]
  rw [word, word]
  decide

section Clash
variable (seed : UInt32) {len n : Nat}

theorem clash_apart (rounds : len / 4 = n + 1) :
    OneByteApart len (clash 0x09 (4 * n)) (clash 0xdb (4 * n)) (4 * n) := by
  refine ⟨by omega, by simp [clash], ?_⟩
  intro j _ other
  simp only [clash, if_neg other]

theorem clash_collides (rounds : len / 4 = n + 1) :
    murmur3 (clash 0x09 (4 * n)) len seed = murmur3 (clash 0xdb (4 * n)) len seed := by
  have elsewhere : ∀ j, j ≠ 4 * n → clash 0x09 (4 * n) j = clash 0xdb (4 * n) j := by
    intro j other
    simp only [clash, if_neg other]
  rw [murmur3_body_only fun j low _ => elsewhere j (by omega), rounds, murmurBody_next,
    murmurBody_next,
    murmurMix_eq_iff, murmurState, murmurState, murmurBody_congr fun j below =>
      elsewhere j (by omega)]
  right
  have cancel : ∀ a b c : UInt32, a ^^^ b ^^^ (a ^^^ c) = b ^^^ c := by
    intro a b c
    calc a ^^^ b ^^^ (a ^^^ c) = a ^^^ a ^^^ (b ^^^ c) := by ac_rfl
      _ = b ^^^ c := by rw [UInt32.xor_self, UInt32.zero_xor]
  rw [cancel]
  exact clash_complements (4 * n)

end Clash

theorem murmur3_apart_iff {len : Nat} {seed : UInt32} {key key' : Nat → UInt8} {i : Nat}
    (apart : OneByteApart len key key' i) (behind : ∀ j, len ≤ j → key j = key' j) :
    murmur3 key len seed ≠ murmur3 key' len seed ↔
      i < len / 4 * 4 + len % 3 ∧
        ∀ n < len / 4, murmurState key seed n ^^^ murmurState key' seed n ≠ 0xffffffff := by
  have agree : ∀ j, j ≠ i → key j = key' j := by
    intro j other
    by_cases inside : j < len
    · exact apart.agree j inside other
    · exact behind j (by omega)
  by_cases body : i < len / 4 * 4
  · rw [ne_eq, murmur3_body_only fun j low _ => agree j (by omega), ← ne_eq,
      murmurBody_apart apart.differ agree (len / 4) (by omega)]
    exact (and_iff_right (by omega)).symm
  · have never : ∀ n < len / 4, murmurState key seed n ^^^ murmurState key' seed n ≠
        0xffffffff := by
      intro n below
      rw [murmurState_congr fun j low => agree j (by omega), UInt32.xor_self]
      decide
    rw [ne_eq, murmur3_tail_only fun j below => agree j (by omega), and_iff_left never]
    constructor
    · intro unlike
      by_contra outside
      exact unlike fun j low high => agree j (by omega)
    · intro inside same
      exact apart.differ (same i (by omega) inside)

theorem murmur3_short {len : Nat} (short : len < 3) (seed : UInt32)
    {key key' : Nat → UInt8} {i : Nat}
    (apart : OneByteApart len key key' i) : murmur3 key len seed ≠ murmur3 key' len seed := by
  intro same
  have inside := apart.inside
  rw [murmur3_tail_only fun j below => by omega] at same
  exact apart.differ (same i (by omega) (by omega))

theorem murmur3_three (seed : UInt32) (key key' : Nat → UInt8) :
    murmur3 key 3 seed = murmur3 key' 3 seed := by
  rw [murmur3_tail_only fun j below => by omega]
  intro j low high
  omega

theorem murmur3_sees_every_byte_iff (len : Nat) (seed : UInt32) :
    ((∀ (key key' : Nat → UInt8) (i : Nat), OneByteApart len key key' i →
      murmur3 key len seed ≠ murmur3 key' len seed) ↔ len < 3) ∧
    ∀ (key key' : Nat → UInt8) (i : Nat), OneByteApart len key key' i →
      (∀ j, len ≤ j → key j = key' j) →
      (murmur3 key len seed ≠ murmur3 key' len seed ↔ i < len / 4 * 4 + len % 3 ∧
        ∀ n < len / 4, murmurState key seed n ^^^ murmurState key' seed n ≠ 0xffffffff) := by
  constructor
  · constructor
    · intro sees
      by_contra long
      by_cases three : len = 3
      · subst three
        exact sees (fun _ => 0) (fun j => if j = 0 then 1 else 0) 0
          ⟨by decide, by decide, fun j _ other => (if_neg other).symm⟩ (murmur3_three seed _ _)
      · have rounds : len / 4 = len / 4 - 1 + 1 := by omega
        exact sees _ _ _ (clash_apart rounds) (clash_collides seed rounds)
    · intro short key key' i apart
      exact murmur3_short short seed apart
  · intro key key' i apart behind
    exact murmur3_apart_iff apart behind

/-- All passwords of three bytes have one hash. -/
theorem murmur3_three_collides :
    ¬ ∀ (seed : UInt32) (len : Nat) (key key' : Nat → UInt8) (i : Nat),
    OneByteApart len key key' i →
      murmur3 key len seed ≠ murmur3 key' len seed := by
  intro sees
  exact sees 0 3 (fun _ => 0x61) (fun j => if j = 2 then 0x62 else 0x61) 2
    ⟨by decide, by decide, fun j _ other => (if_neg other).symm⟩ (murmur3_three 0 _ _)

end Crypt
