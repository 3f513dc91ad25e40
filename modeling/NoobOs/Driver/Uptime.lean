import Mathlib.Data.UInt
import Mathlib.Tactic.Ring

/-!
The tick counter of `time.c`. `gettime` multiplies it in 32 bits, so the thousandths are exact
only as long as what is carried out of the product is a multiple of the tick rate.
-/
namespace Uptime

structure Pit where
  pitFreq : UInt32
  counter : UInt32

def pitClock : UInt32 := 1193182

/-- The bytes go to the ports `PIT_COMM` and `PIT_DATA`. -/
def initPit (freq : UInt32) : Pit × List (Nat × UInt8) :=
  let div := pitClock / freq
  let (div, pitFreq) := if div > 65535 then (0xffff, pitClock / 0xffff) else (div, freq)
  (⟨pitFreq, 0⟩, [(0x43, 0x36), (0x40, (div &&& 0xff).toUInt8),
    (0x40, (div >>> 8 &&& 0xff).toUInt8)])

def timerHandler (s : Pit) : Pit := { s with counter := s.counter + 1 }

/-- The seconds, and the thousandths stored through `ms`. -/
def gettime (s : Pit) : UInt32 × UInt32 :=
  let secs := s.counter / s.pitFreq
  (secs, s.counter * 1000 / s.pitFreq - secs * 1000)

/-- The time is exact, and not after that of the next tick unless the counter wraps there. -/
structure Right (s : Pit) : Prop where
  secs : (gettime s).1.toNat = s.counter.toNat / s.pitFreq.toNat
  ms : (gettime s).2.toNat = 1000 * s.counter.toNat / s.pitFreq.toNat - 1000 *
    (s.counter.toNat / s.pitFreq.toNat)
  small : (gettime s).2.toNat < 1000
  onward : s.counter.toNat + 1 < 2 ^ 32 → (gettime s).1 < (gettime (timerHandler s)).1 ∨
    (gettime s).1 = (gettime (timerHandler s)).1 ∧ (gettime s).2 ≤ (gettime (timerHandler s)).2

/-! ## A quotient of a remainder -/

theorem carry_iff {f m : Nat} (x : Nat) (pos : 0 < f) (less : f < m) :
    (x / f) % m = x % m / f ↔ f ∣ x / m := by
  have whole := Nat.div_add_mod x m
  have under := Nat.mod_lt x (Nat.zero_lt_of_lt less)
  constructor
  · intro same
    have parts := Nat.div_add_mod (x / f) m
    have left := Nat.div_add_mod x f
    have right := Nat.div_add_mod (x % m) f
    have leftLess := Nat.mod_lt x pos
    have rightLess := Nat.mod_lt (x % m) pos
    rw [same] at parts
    generalize x / f / m = k at parts
    have balance : m * (f * k) + x % f = m * (x / m) + x % m % f := by
      have spread : f * (x / f) = m * (f * k) + f * (x % m / f) := by
        rw [← parts]
        ring
      omega
    refine ⟨k, ?_⟩
    rcases Nat.lt_trichotomy (x / m) (f * k) with short | same' | long
    · have step := Nat.mul_le_mul_left m (Nat.succ_le_of_lt short)
      rw [Nat.mul_succ] at step
      omega
    · exact same'
    · have step := Nat.mul_le_mul_left m (Nat.succ_le_of_lt long)
      rw [Nat.mul_succ] at step
      omega
  · rintro ⟨k, carry⟩
    have split : x = f * (m * k) + x % m := by
      rw [← Nat.mul_assoc, Nat.mul_comm f m, Nat.mul_assoc, ← carry]
      exact whole.symm
    have quotient : x / f = m * k + x % m / f := by
      conv_lhs => rw [split]
      rw [Nat.mul_add_div pos]
    have small : x % m / f < m := Nat.lt_of_le_of_lt (Nat.div_le_self _ _) under
    rw [quotient, Nat.mul_add_mod, Nat.mod_eq_of_lt small]

/-! ## The clock -/

theorem initPit_freq {freq : UInt32} (low : 1 ≤ freq) (high : freq ≤ pitClock) :
    18 ≤ (initPit freq).1.pitFreq.toNat ∧ (initPit freq).1.pitFreq.toNat ≤ 1193182 := by
  have low' : 1 ≤ freq.toNat := low
  have high' : freq.toNat ≤ 1193182 := high
  have quotient : (pitClock / freq).toNat = 1193182 / freq.toNat := UInt32.toNat_div _ _
  by_cases slow : pitClock / freq > 65535
  · have result : (initPit freq).1.pitFreq = 18 := by
      simp only [initPit, if_pos slow]
      rfl
    rw [result]
    decide
  · have result : (initPit freq).1.pitFreq = freq := by
      simp only [initPit, if_neg slow]
    have fast : 1193182 / freq.toNat ≤ 65535 := by
      rw [← quotient]
      exact UInt32.not_lt.mp slow
    rw [result]
    refine ⟨?_, high'⟩
    by_contra less
    have long : 1193182 / 17 ≤ 1193182 / freq.toNat := Nat.div_le_div_left (by omega) low'
    omega

section Clock
variable {s : Pit}

theorem secs_toNat (s : Pit) : (gettime s).1.toNat = s.counter.toNat / s.pitFreq.toNat :=
  UInt32.toNat_div _ _

theorem ms_toNat (s : Pit) : (gettime s).2.toNat =
    (2 ^ 32 - 1000 * (s.counter.toNat / s.pitFreq.toNat) % 2 ^ 32 +
      1000 * s.counter.toNat % 2 ^ 32 / s.pitFreq.toNat) % 2 ^ 32 := by
  simp only [gettime, UInt32.toNat_sub, UInt32.toNat_div, UInt32.toNat_mul, Nat.mul_comm 1000]
  rfl

theorem exact_bounds (c : Nat) {f : Nat} (pos : 0 < f) :
    1000 * (c / f) ≤ 1000 * c / f ∧ 1000 * c / f < 1000 * (c / f) + 1000 := by
  have parts := Nat.div_add_mod c f
  have less := Nat.mod_lt c pos
  rw [Nat.le_div_iff_mul_le pos, Nat.div_lt_iff_lt_mul pos]
  constructor
  · have product : 1000 * (c / f) * f = 1000 * (f * (c / f)) := by ring
    omega
  · have product : (1000 * (c / f) + 1000) * f = 1000 * (f * (c / f)) + 1000 * f := by ring
    omega

theorem ms_exact_iff (pos : 0 < s.pitFreq.toNat) :
    (gettime s).2.toNat = 1000 * s.counter.toNat / s.pitFreq.toNat - 1000 *
    (s.counter.toNat / s.pitFreq.toNat) ↔
      s.pitFreq.toNat ∣ 1000 * s.counter.toNat / 2 ^ 32 := by
  have bounds := exact_bounds s.counter.toNat pos
  have small : 1000 * s.counter.toNat % 2 ^ 32 / s.pitFreq.toNat < 2 ^ 32 :=
    Nat.lt_of_le_of_lt (Nat.div_le_self _ _) (Nat.mod_lt _ (by decide))
  rw [ms_toNat, ← carry_iff _ pos (UInt32.toNat_lt s.pitFreq)]
  generalize 1000 * s.counter.toNat % 2 ^ 32 / s.pitFreq.toNat = low at *
  generalize 1000 * s.counter.toNat / s.pitFreq.toNat = all at *
  generalize 1000 * (s.counter.toNat / s.pitFreq.toNat) = whole at *
  omega

/-- From exact thousandths to those of the next tick of the same second. Where the product wraps,
    the difference that `gettime` takes wraps too, and is far above them. -/
theorem ms_onward (low : 18 ≤ s.pitFreq.toNat) (high : s.pitFreq.toNat ≤ 1193182)
    (carry : s.pitFreq.toNat ∣ 1000 * s.counter.toNat / 2 ^ 32) {t : Pit}
    (rate : t.pitFreq = s.pitFreq)
    (tick : t.counter.toNat = s.counter.toNat + 1)
    (second : t.counter.toNat / s.pitFreq.toNat = s.counter.toNat / s.pitFreq.toNat) :
    (gettime s).2.toNat ≤ (gettime t).2.toNat := by
  have pos : 0 < s.pitFreq.toNat := by omega
  have bounds := exact_bounds s.counter.toNat pos
  have exact' := (ms_exact_iff pos).mpr carry
  have product : 1000 * t.counter.toNat = 1000 * s.counter.toNat + 1000 := by omega
  have later := ms_toNat t
  rw [rate, second, product] at later
  by_cases same : (1000 * s.counter.toNat + 1000) / 2 ^ 32 = 1000 * s.counter.toNat / 2 ^ 32
  · have exact'' := (ms_exact_iff (s := t) (by rw [rate]; exact pos)).mpr
      (by rw [rate, product, same]; exact carry)
    rw [rate, second, product] at exact''
    have more : 1000 * s.counter.toNat / s.pitFreq.toNat ≤ (1000 * s.counter.toNat + 1000) /
        s.pitFreq.toNat :=
      Nat.div_le_div_right (Nat.le_add_right _ _)
    omega
  · have kept := (carry_iff (1000 * s.counter.toNat) pos (UInt32.toNat_lt s.pitFreq)).mpr carry
    have small : (1000 * s.counter.toNat + 1000) % 2 ^ 32 / s.pitFreq.toNat ≤ 999 := by
      apply Nat.le_trans (Nat.div_le_self _ _)
      omega
    have large : 3599 ≤ 1000 * s.counter.toNat % 2 ^ 32 / s.pitFreq.toNat := by
      rw [Nat.le_div_iff_mul_le pos]
      omega
    have below : 1000 * s.counter.toNat % 2 ^ 32 / s.pitFreq.toNat < 2 ^ 32 :=
      Nat.lt_of_le_of_lt (Nat.div_le_self _ _) (Nat.mod_lt _ (by decide))
    generalize (1000 * s.counter.toNat + 1000) % 2 ^ 32 / s.pitFreq.toNat = low' at *
    generalize 1000 * s.counter.toNat % 2 ^ 32 / s.pitFreq.toNat = low at *
    generalize 1000 * s.counter.toNat / s.pitFreq.toNat = all at *
    generalize 1000 * (s.counter.toNat / s.pitFreq.toNat) = whole at *
    omega

theorem right_iff (low : 18 ≤ s.pitFreq.toNat) (high : s.pitFreq.toNat ≤ 1193182) :
    Right s ↔ s.pitFreq.toNat ∣ 1000 * s.counter.toNat / 2 ^ 32 := by
  have pos : 0 < s.pitFreq.toNat := by omega
  constructor
  · exact fun right => (ms_exact_iff pos).mp right.ms
  · intro carry
    have exact' := (ms_exact_iff pos).mpr carry
    have bounds := exact_bounds s.counter.toNat pos
    refine ⟨secs_toNat s, exact', by omega, ?_⟩
    intro goes
    have tick : (timerHandler s).counter.toNat = s.counter.toNat + 1 :=
      (UInt32.toNat_add s.counter 1).trans (Nat.mod_eq_of_lt goes)
    have quotient : (gettime (timerHandler s)).1.toNat =
        (s.counter.toNat + 1) / s.pitFreq.toNat := by
      rw [secs_toNat, tick]
      rfl
    have more : s.counter.toNat / s.pitFreq.toNat ≤ (s.counter.toNat + 1) / s.pitFreq.toNat :=
      Nat.div_le_div_right (Nat.le_succ _)
    rcases Nat.lt_or_eq_of_le more with less | same
    · left
      rw [UInt32.lt_iff_toNat_lt, secs_toNat, quotient]
      exact less
    · right
      refine ⟨?_, ?_⟩
      · rw [← UInt32.toNat_inj, secs_toNat, quotient]
        exact same
      · exact ms_onward low high carry rfl tick (by rw [tick]; exact same.symm)

end Clock

/-- For each tick rate and each count: `gettime` is exact, and goes on to the next tick, just where
    the rate divides the carry of the product. -/
theorem uptime_right_iff {freq : UInt32} (low : 1 ≤ freq) (high : freq ≤ pitClock)
    (counter : UInt32) :
    Right ⟨(initPit freq).1.pitFreq, counter⟩ ↔
      (initPit freq).1.pitFreq.toNat ∣ 1000 * counter.toNat / 2 ^ 32 :=
  have rate := initPit_freq low high
  right_iff rate.1 rate.2

theorem uptime_at_start :
    Right ⟨(initPit 1).1.pitFreq, 100⟩ ↔ (initPit 1).1.pitFreq.toNat ∣ 1000 * 100 / 2 ^ 32 :=
  uptime_right_iff (by decide) (by decide) 100

/-- The product wraps for the first time at 4294968 ticks, and the thousandths are out of range. -/
theorem uptime_wraps : (initPit 1).1.pitFreq = 18 ∧ gettime ⟨18, 4294968⟩ = (238609, 4056358335) ∧
    ¬ Right ⟨(initPit 1).1.pitFreq, 4294968⟩ := by
  refine ⟨by decide, by decide, ?_⟩
  exact fun right => absurd right.small (by decide)

end Uptime
