import Mathlib.Algebra.Order.Field.Basic
import Mathlib.Algebra.Order.Field.Rat
import Mathlib.Algebra.Ring.Parity
import Mathlib.Order.Monotone.Basic
import Mathlib.Tactic.Ring
import LoxScan.Number.Binary64

/-!
# Values of patterns

The patterns of the non-negative numbers ascend with their values, in steps of the spacing at each
of them.  The same holds behind the greatest finite number if the exponent field is imagined
without an end, and there the pattern of infinity stands for the power of two that comes next.
-/

namespace LoxScan.Number.Binary64

theorem fractionLimit_eq : fractionLimit = 4503599627370496 := rfl

theorem infinityPattern_eq : infinityPattern = 2047 * fractionLimit := rfl

def significandAt (pattern : Nat) : Nat :=
  if pattern / fractionLimit = 0 then pattern % fractionLimit
  else fractionLimit + pattern % fractionLimit

/-- The magnitude of a pattern in units of `2 ^ -1074`, with an exponent field of any width. -/
def magnitudeAt (pattern : Nat) : Nat :=
  significandAt pattern * 2 ^ (pattern / fractionLimit - 1)

theorem significandAt_lt (pattern : Nat) : significandAt pattern < 2 * fractionLimit := by
  have hfraction : pattern % fractionLimit < fractionLimit := Nat.mod_lt _ (by decide)
  rw [significandAt]
  split <;> omega

theorem even_significandAt {pattern : Nat} : Even (significandAt pattern) ↔ Even pattern := by
  rw [significandAt, fractionLimit_eq, Nat.even_iff, Nat.even_iff]
  split <;> omega

/-- A whole number of steps behind a pattern that begins an exponent. -/
theorem magnitudeAt_add {exponent steps : Nat} (hsteps : steps ≤ 2 * fractionLimit)
    (hnormal : exponent = 0 ∨ fractionLimit ≤ steps) :
    magnitudeAt (exponent * fractionLimit + steps) = steps * 2 ^ exponent := by
  rw [magnitudeAt, significandAt]
  rw [fractionLimit_eq] at *
  by_cases hsmall : steps < 4503599627370496
  · obtain rfl : exponent = 0 := by omega
    rw [if_pos (by omega), show (0 * 4503599627370496 + steps) % 4503599627370496 = steps by omega,
      show (0 * 4503599627370496 + steps) / 4503599627370496 = 0 by omega]
  by_cases hbig : steps < 2 * 4503599627370496
  · rw [if_neg (by omega)]
    congr 1
    · omega
    · congr 1
      omega
  · obtain rfl : steps = 2 * 4503599627370496 := by omega
    rw [if_neg (by omega),
      show (exponent * 4503599627370496 + 2 * 4503599627370496) % 4503599627370496 = 0 by omega,
      show (exponent * 4503599627370496 + 2 * 4503599627370496) / 4503599627370496 - 1 =
        exponent + 1 by omega, Nat.pow_succ]
    ring

theorem magnitudeAt_succ (pattern : Nat) :
    magnitudeAt (pattern + 1) = magnitudeAt pattern + 2 ^ (pattern / fractionLimit - 1) := by
  have hsplit : (pattern / fractionLimit - 1) * fractionLimit +
      (pattern - (pattern / fractionLimit - 1) * fractionLimit) = pattern := by
    rw [fractionLimit_eq]
    omega
  generalize hexponent : pattern / fractionLimit - 1 = exponent at hsplit ⊢
  generalize hsteps : pattern - exponent * fractionLimit = steps at hsplit
  have hbound : steps + 1 ≤ 2 * fractionLimit := by
    rw [fractionLimit_eq] at *
    omega
  have hnormal : exponent = 0 ∨ fractionLimit ≤ steps := by
    rw [fractionLimit_eq] at *
    omega
  have hlater := magnitudeAt_add hbound (hnormal.imp_right Nat.le_succ_of_le)
  have hearlier := magnitudeAt_add (Nat.le_of_succ_le hbound) hnormal
  rw [← Nat.add_assoc, hsplit] at hlater
  rw [hsplit] at hearlier
  rw [hlater, hearlier, Nat.succ_mul]

theorem strictMono_magnitudeAt : StrictMono magnitudeAt := by
  apply strictMono_nat_of_lt_succ
  intro pattern
  rw [magnitudeAt_succ]
  exact Nat.lt_add_of_pos_right (Nat.two_pow_pos _)

/-- Magnitudes are multiples of a power of two, but for those below the numbers that it is the
spacing of. -/
theorem dvd_or_magnitudeAt_lt (exponent pattern : Nat) :
    2 ^ exponent ∣ magnitudeAt pattern ∨ magnitudeAt pattern < fractionLimit * 2 ^ exponent := by
  rcases Nat.lt_or_ge (pattern / fractionLimit - 1) exponent with hlt | hle
  · right
    calc
      magnitudeAt pattern < 2 * fractionLimit * 2 ^ (pattern / fractionLimit - 1) :=
        Nat.mul_lt_mul_of_pos_right (significandAt_lt pattern) (Nat.two_pow_pos _)
      _ = fractionLimit * 2 ^ (pattern / fractionLimit - 1 + 1) := by ring
      _ ≤ fractionLimit * 2 ^ exponent :=
        Nat.mul_le_mul_left _ (Nat.pow_le_pow_right (by decide) hlt)
  · left
    exact Dvd.dvd.mul_left (Nat.pow_dvd_pow 2 hle) _

theorem magnitudeAt_infinityPattern :
    magnitudeAt infinityPattern = 2 * fractionLimit * 2 ^ 2045 := by
  rw [show infinityPattern = 2045 * fractionLimit + 2 * fractionLimit from rfl]
  exact magnitudeAt_add (Nat.le_refl _) (.inr (by decide))

/-- The greatest finite magnitude. -/
theorem magnitudeAt_infinityPattern_pred :
    magnitudeAt (infinityPattern - 1) = (2 * fractionLimit - 1) * 2 ^ 2045 := by
  rw [show infinityPattern - 1 = 2045 * fractionLimit + (2 * fractionLimit - 1) from rfl]
  exact magnitudeAt_add (Nat.sub_le _ _) (.inr (by decide))

/-- The exponent field of a finite number is not the greatest one. -/
def IsFinite (x : Binary64) : Prop := x.biasedExponent ≠ 2047

/-- The rational number that a finite number stands for. -/
def toRat (x : Binary64) : ℚ :=
  (if x.isNegative then -(x.magnitude : ℚ) else x.magnitude) / 2 ^ 1074

/-- The value of a number that is neither negative nor NaN. -/
def extended (x : Binary64) : WithTop ℚ := if x.isInfinite then ⊤ else (x.toRat : WithTop ℚ)

/-- The pattern without the sign. -/
def unsigned (x : Binary64) : Nat := x.bits.toNat % 2 ^ 63

section Unsigned

variable {x y : Binary64}

theorem biasedExponent_eq (x : Binary64) : x.biasedExponent = x.unsigned / fractionLimit := by
  rw [biasedExponent, unsigned, fractionLimit_eq, show Nat.pow 2 11 = 2048 from rfl]
  omega

theorem fraction_eq (x : Binary64) : x.fraction = x.unsigned % fractionLimit := by
  rw [fraction, unsigned, fractionLimit_eq]
  omega

theorem significand_eq (x : Binary64) : x.significand = significandAt x.unsigned := by
  rw [significand, significandAt, biasedExponent_eq, fraction_eq]

theorem magnitude_eq (x : Binary64) : x.magnitude = magnitudeAt x.unsigned := by
  rw [magnitude, significand_eq, spacing, biasedExponent_eq]
  rfl

theorem isFinite_iff : x.IsFinite ↔ x.unsigned < infinityPattern := by
  have hbound : x.unsigned < 2 ^ 63 := Nat.mod_lt _ (by decide)
  rw [IsFinite, biasedExponent_eq, infinityPattern_eq, fractionLimit_eq]
  omega

theorem isFinite_iff_of_isNaN (h : x.isNaN = false) : x.IsFinite ↔ x.isInfinite = false := by
  simp only [isNaN, isInfinite, IsFinite, Bool.and_eq_false_iff, beq_eq_false_iff_ne,
    bne_eq_false_iff_eq] at h ⊢
  tauto

theorem unsigned_of_isInfinite (h : x.isInfinite = true) : x.unsigned = infinityPattern := by
  simp only [isInfinite, Bool.and_eq_true, beq_iff_eq] at h
  rw [biasedExponent_eq, fraction_eq] at h
  rw [infinityPattern_eq]
  rw [fractionLimit_eq] at *
  omega

theorem eq_of_unsigned_eq (hx : x.isNegative = false) (hy : y.isNegative = false)
    (h : x.unsigned = y.unsigned) : x = y := by
  have hbits : x.bits.toNat = y.bits.toNat := by
    simp only [isNegative, decide_eq_false_iff_not, show Nat.pow 2 63 = 2 ^ 63 from rfl] at hx hy
    rw [unsigned, unsigned] at h
    omega
  calc
    x = ⟨x.bits⟩ := rfl
    _ = ⟨y.bits⟩ := by rw [UInt64.toNat_inj.1 hbits]
    _ = y := rfl

theorem toRat_of_not_isNegative (h : x.isNegative = false) :
    x.toRat = magnitudeAt x.unsigned / 2 ^ 1074 := by
  rw [toRat, h, magnitude_eq]
  rfl

example : toRat ⟨0x3FF8000000000000⟩ = 3 / 2 := by decide +kernel

theorem abs_toRat (x : Binary64) : |x.toRat| = magnitudeAt x.unsigned / 2 ^ 1074 := by
  have hunit : (0 : ℚ) < 2 ^ 1074 := pow_pos two_pos 1074
  rw [toRat, magnitude_eq, abs_div, abs_of_pos hunit]
  split
  · rw [abs_neg, Nat.abs_cast]
  · rw [Nat.abs_cast]

end Unsigned

/-- The non-negative number with a pattern, which is infinity from its pattern on. -/
def atPattern (pattern : Nat) : Binary64 := ⟨UInt64.ofNat (min infinityPattern pattern)⟩

theorem toNat_bits_atPattern (pattern : Nat) :
    (atPattern pattern).bits.toNat = min infinityPattern pattern := by
  have hinfinity : infinityPattern < 2 ^ 64 := by decide
  exact UInt64.toNat_ofNat_of_lt' (Nat.lt_of_le_of_lt (Nat.min_le_left _ _) hinfinity)

theorem isNegative_atPattern (pattern : Nat) : (atPattern pattern).isNegative = false := by
  have hinfinity : infinityPattern < Nat.pow 2 63 := by decide
  rw [isNegative, toNat_bits_atPattern, decide_eq_false_iff_not, Nat.not_le]
  exact Nat.lt_of_le_of_lt (Nat.min_le_left _ _) hinfinity

theorem unsigned_atPattern (pattern : Nat) :
    (atPattern pattern).unsigned = min infinityPattern pattern := by
  have hinfinity : infinityPattern < 2 ^ 63 := by decide
  rw [unsigned, toNat_bits_atPattern]
  exact Nat.mod_eq_of_lt (Nat.lt_of_le_of_lt (Nat.min_le_left _ _) hinfinity)

theorem isFinite_atPattern_iff {pattern : Nat} :
    (atPattern pattern).IsFinite ↔ pattern < infinityPattern := by
  rw [isFinite_iff, unsigned_atPattern, min_lt_iff]
  exact or_iff_right (Nat.lt_irrefl _)

theorem isNaN_atPattern (pattern : Nat) : (atPattern pattern).isNaN = false := by
  rw [isNaN, biasedExponent_eq, fraction_eq, unsigned_atPattern, infinityPattern_eq,
    Bool.and_eq_false_iff, beq_eq_false_iff_ne, bne_eq_false_iff_eq, fractionLimit_eq]
  omega

theorem unsigned_atPattern_of_lt {pattern : Nat} (h : pattern < infinityPattern) :
    (atPattern pattern).unsigned = pattern := by
  rw [unsigned_atPattern, Nat.min_eq_right (Nat.le_of_lt h)]

end LoxScan.Number.Binary64
