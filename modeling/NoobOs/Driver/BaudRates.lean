import NoobOs.Lib.BitFields
import Mathlib.Data.List.GetD

/-!
The baud rates in `c_cflag`: `b2speed`, `speed2b` and the accessors of `tty.c` over them.
-/
namespace BaudRates
open BitFields

def cbaud : BitVec 32 := 0x0000100f
def cibaud : BitVec 32 := 0x100f0000

/-- `B0` to `B38400`, which are 0 to 15. -/
def speeds : List (BitVec 32) :=
  [0, 50, 75, 110, 134, 150, 200, 300, 600, 1200, 1800, 2400, 4800, 9600, 19200, 38400]

def b9600 : BitVec 32 := 0xd

def b2speed (baud : BitVec 32) : BitVec 32 := speeds.getD baud.toNat (-1)

def speed2b (speed : BitVec 32) : BitVec 32 :=
  if speed = 0 then 0 else if speed = 9600 then b9600 else -1

structure Termios where
  cCflag : BitVec 32

def cfgetispeed (t : Termios) : BitVec 32 := b2speed ((t.cCflag &&& cibaud) >>> 16)
def cfgetospeed (t : Termios) : BitVec 32 := b2speed (t.cCflag &&& cbaud)

def cfsetispeed (t : Termios) (speed : BitVec 32) : Termios :=
  ⟨t.cCflag &&& ~~~cibaud ||| speed2b speed <<< 16⟩

/-- The mask is not complemented here. -/
def cfsetospeed (t : Termios) (speed : BitVec 32) : Termios :=
  ⟨t.cCflag &&& cbaud ||| speed2b speed⟩

def cfsetspeed (t : Termios) (speed : BitVec 32) : Termios :=
  cfsetospeed (cfsetispeed t speed) speed

/-- The rate set is the rate got, and all other bits stay. -/
def InputSet (t : Termios) (s : BitVec 32) : Prop :=
  cfgetispeed (cfsetispeed t s) = s ∧
    (cfsetispeed t s).cCflag &&& ~~~cibaud = t.cCflag &&& ~~~cibaud

def OutputSet (t : Termios) (s : BitVec 32) : Prop :=
  cfgetospeed (cfsetospeed t s) = s ∧ (cfsetospeed t s).cCflag &&& ~~~cbaud = t.cCflag &&& ~~~cbaud

def BothSet (t : Termios) (s : BitVec 32) : Prop :=
  cfgetispeed (cfsetspeed t s) = s ∧ cfgetospeed (cfsetspeed t s) = s

section Rates
variable {t : Termios} {s : BitVec 32}

theorem b2speed_table : ∀ k < 16, (speeds.getD k (-1) = 0 ↔ k = 0) ∧
    (speeds.getD k (-1) = 9600 ↔ k = 13) := by
  decide

theorem b2speed_past {baud : BitVec 32} (past : 16 ≤ baud.toNat) : b2speed baud = -1 :=
  List.getD_eq_default _ _ past

theorem b2speed_iff (baud : BitVec 32) :
    (b2speed baud = 0 ↔ baud = 0) ∧ (b2speed baud = 9600 ↔ baud = b9600) := by
  rcases Nat.lt_or_ge baud.toNat 16 with less | past
  · obtain ⟨zero, rate⟩ := b2speed_table baud.toNat less
    exact ⟨zero.trans (BitVec.toNat_inj (y := 0)), rate.trans (BitVec.toNat_inj (y := b9600))⟩
  · rw [b2speed_past past]
    constructor
    · exact iff_of_false (by decide) fun same => absurd (same ▸ past) (by decide)
    · exact iff_of_false (by decide) fun same => absurd (same ▸ past) (by decide)

theorem speed2b_other (notZero : s ≠ 0) (notRate : s ≠ 9600) : speed2b s = -1 := by
  rw [speed2b, if_neg notZero, if_neg notRate]

theorem listed_known (listed : s ∈ speeds) : s ≠ -1 := by
  rintro rfl
  exact absurd listed (by decide)

theorem cfgetispeed_set (t : Termios) (s : BitVec 32) :
    cfgetispeed (cfsetispeed t s) = b2speed ((speed2b s <<< 16 &&& cibaud) >>> 16) :=
  congrArg (fun w : BitVec 32 => b2speed (w >>> 16))
    (cleared_field t.cCflag cibaud (speed2b s <<< 16))

theorem cfgetospeed_set (t : Termios) (s : BitVec 32) :
    cfgetospeed (cfsetospeed t s) = b2speed ((t.cCflag ||| speed2b s) &&& cbaud) :=
  congrArg b2speed (kept_field t.cCflag cbaud (speed2b s))

theorem inputSet_iff (listed : s ∈ speeds) : InputSet t s ↔ s = 0 ∨ s = 9600 := by
  rw [InputSet, cfgetispeed_set]
  by_cases zero : s = 0
  · subst zero
    exact iff_of_true ⟨by decide, cleared_outside (by decide)⟩ (Or.inl rfl)
  · by_cases rate : s = 9600
    · subst rate
      exact iff_of_true ⟨by decide, cleared_outside (by decide)⟩ (Or.inr rfl)
    · rw [speed2b_other zero rate]
      apply iff_of_false
      · exact fun both => listed_known listed both.1.symm
      · exact not_or.mpr ⟨zero, rate⟩

theorem outputSet_iff (listed : s ∈ speeds) :
    OutputSet t s ↔ s = 0 ∧ t.cCflag = 0 ∨ s = 9600 ∧ t.cCflag &&& ~~~b9600 = 0 := by
  have outside : (cfsetospeed t s).cCflag &&& ~~~cbaud = speed2b s &&& ~~~cbaud :=
    kept_outside _ _ _
  rw [OutputSet, cfgetospeed_set, outside]
  by_cases zero : s = 0
  · subst zero
    have only := only_under_iff (c := t.cCflag) (k := cbaud) (v := 0) (by decide)
    have none' : speed2b 0 &&& ~~~cbaud = 0 := by decide
    have same : t.cCflag ||| speed2b 0 = t.cCflag := BitVec.or_zero
    rw [show ~~~(0 : BitVec 32) = BitVec.allOnes 32 from rfl, BitVec.and_allOnes,
      BitVec.and_allOnes] at only
    rw [(b2speed_iff _).1, none', same, eq_comm (a := (0 : BitVec 32)), only]
    simp
  · by_cases rate : s = 9600
    · subst rate
      have only := only_under_iff (c := t.cCflag) (k := cbaud) (v := b9600) (by decide)
      have none' : speed2b 9600 &&& ~~~cbaud = 0 := by decide
      have under : (t.cCflag ||| speed2b 9600) &&& cbaud = b9600 ↔
          t.cCflag &&& cbaud &&& ~~~b9600 = 0 := by
        rw [← or_eq_right_iff, BitVec.and_or_distrib_right]
        rfl
      rw [(b2speed_iff _).2, none', under, eq_comm (a := (0 : BitVec 32)), only]
      simp
    · rw [speed2b_other zero rate]
      apply iff_of_false
      · rintro ⟨got, -⟩
        rw [show t.cCflag ||| -1 = -1 from BitVec.or_allOnes] at got
        exact listed_known listed got.symm
      · rintro (⟨same, -⟩ | ⟨same, -⟩)
        · exact zero same
        · exact rate same

theorem cfgetispeed_both (t : Termios) (s : BitVec 32) :
    cfgetispeed (cfsetspeed t s) = b2speed ((speed2b s &&& cibaud) >>> 16) := by
  have apart : cbaud &&& cibaud = 0 := by decide
  have bits : (cfsetspeed t s).cCflag &&& cibaud = speed2b s &&& cibaud := by
    rw [cfsetspeed, cfsetospeed, BitVec.and_or_distrib_right, BitVec.and_assoc, apart]
    simp
  rw [cfgetispeed, bits]

theorem bothSet_iff (listed : s ∈ speeds) : BothSet t s ↔ s = 0 ∧ t.cCflag &&& cbaud = 0 := by
  rw [BothSet, cfgetispeed_both]
  by_cases zero : s = 0
  · subst zero
    have kept : ~~~cibaud &&& cbaud = cbaud := by decide
    have bits : ((cfsetispeed t 0).cCflag ||| speed2b 0) &&& cbaud = t.cCflag &&& cbaud := by
      rw [cfsetispeed, BitVec.and_or_distrib_right, BitVec.and_or_distrib_right,
        BitVec.and_assoc, kept]
      simp [speed2b]
    have input : b2speed ((speed2b 0 &&& cibaud) >>> 16) = 0 := by decide
    rw [cfsetspeed, cfgetospeed_set, bits]
    exact and_congr (iff_of_true input rfl) (b2speed_iff _).1
  · apply iff_of_false
    · rintro ⟨got, -⟩
      by_cases rate : s = 9600
      · subst rate
        exact absurd got (by decide)
      · rw [speed2b_other zero rate] at got
        exact listed_known listed got.symm
    · exact fun both => zero both.1

/-- For a rate of the table, which setters do what they should: `speed2b` knows two rates, and
    `cfsetospeed` clears all but the old rate. -/
theorem baud_accessors_iff (t : Termios) {s : BitVec 32} (listed : s ∈ speeds) :
    (InputSet t s ↔ s = 0 ∨ s = 9600) ∧
    (OutputSet t s ↔ s = 0 ∧ t.cCflag = 0 ∨ s = 9600 ∧ t.cCflag &&& ~~~b9600 = 0) ∧
    (BothSet t s ↔ s = 0 ∧ t.cCflag &&& cbaud = 0) ∧
    (InputSet t s ∧ OutputSet t s ∧ BothSet t s ↔ s = 0 ∧ t.cCflag = 0) := by
  refine ⟨inputSet_iff listed, outputSet_iff listed, bothSet_iff listed, ?_⟩
  rw [inputSet_iff listed, outputSet_iff listed, bothSet_iff listed]
  constructor
  · rintro ⟨-, ⟨zero, none'⟩ | ⟨rate, -⟩, zero', -⟩
    · exact ⟨zero, none'⟩
    · rw [rate] at zero'
      cases zero'
  · rintro ⟨zero, none'⟩
    rw [none']
    exact ⟨Or.inl zero, Or.inl ⟨zero, rfl⟩, zero, BitVec.zero_and⟩

theorem rate_9600_on_empty :
    (InputSet ⟨0⟩ 9600 ↔ (9600 : BitVec 32) = 0 ∨ (9600 : BitVec 32) = 9600) ∧
    (OutputSet ⟨0⟩ 9600 ↔ (9600 : BitVec 32) = 0 ∧ (0 : BitVec 32) = 0 ∨
      (9600 : BitVec 32) = 9600 ∧ (0 : BitVec 32) &&& ~~~b9600 = 0) :=
  have all := baud_accessors_iff ⟨0⟩ (s := 9600) (by decide)
  ⟨all.1, all.2.1⟩

/-- Eight bits and the receiver enabled, at 9600: both are gone. At 38400: no rate is got. -/
theorem cfsetospeed_clears : (9600 : BitVec 32) ∈ speeds ∧ (38400 : BitVec 32) ∈ speeds ∧
    ¬ OutputSet ⟨0xbd⟩ 9600 ∧ (cfsetospeed ⟨0xbd⟩ 9600).cCflag = 0xd ∧
    cfgetospeed (cfsetospeed ⟨0xbd⟩ 38400) = -1 ∧ cfgetispeed (cfsetispeed ⟨0xbd⟩ 38400) = -1 := by
  refine ⟨by decide, by decide, ?_, by decide, by decide, by decide⟩
  exact fun set => absurd set.2 (by decide)

end Rates

end BaudRates
