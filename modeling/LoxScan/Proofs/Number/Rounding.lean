import Mathlib.Data.Rat.Cast.Order
import Mathlib.Tactic.Linarith
import LoxScan.Proofs.Number.Patterns

/-!
# Correct rounding

A non-negative rational number rounds to one number in binary64: the nearest finite one, of two
equally near ones the one with an even significand, or infinity if it is too large.  The number
that is computed for a quotient is that one, so it depends on the value of the quotient alone and
does not decrease when the quotient grows.

Behind the computation stands a nearest pattern in the format without a greatest exponent.  Its
magnitude is a whole multiple of the spacing around the quotient, and any other magnitude either is
one as well or lies below all the numbers with that spacing.
-/

namespace LoxScan.Number.Binary64

section Whole

variable {a b s t : ℚ}

theorem add_le_two_mul_of_nearer (hab : a < b) (h : |b - s| ≤ |a - s|) : a + b ≤ 2 * s := by
  have hb := le_abs_self (b - s)
  rcases abs_cases (a - s) with ⟨ha, -⟩ | ⟨ha, -⟩ <;> linarith

theorem two_mul_le_add_of_nearer (hab : a < b) (h : |a - s| ≤ |b - s|) : 2 * s ≤ a + b := by
  have ha := neg_abs_le (a - s)
  rcases abs_cases (b - s) with ⟨hb, -⟩ | ⟨hb, -⟩ <;> linarith

theorem abs_sub_eq_of_two_mul_eq (hab : a ≤ b) (h : 2 * s = a + b) : |a - s| = |b - s| := by
  rw [abs_of_nonpos (by linarith), abs_of_nonneg (by linarith)]
  linarith

theorem abs_sub_lt_of_between (hat : a < t) (htb : t < b) (h : 2 * s = a + b) :
    |t - s| < |b - s| := by
  rw [abs_of_nonneg (show 0 ≤ b - s by linarith), abs_lt]
  constructor <;> linarith

theorem one_le_abs_sub_add_abs_sub {m n : Nat} (hne : m ≠ n) (t : ℚ) :
    1 ≤ |(n : ℚ) - t| + |(m : ℚ) - t| := by
  have hstep : (1 : ℚ) ≤ |(n : ℚ) - m| := by
    have hdifference : (n : Int) - m ≠ 0 := by omega
    exact_mod_cast Int.one_le_abs hdifference
  calc
    1 ≤ |(n : ℚ) - m| := hstep
    _ ≤ |(n : ℚ) - t| + |t - m| := abs_sub_le _ _ _
    _ = |(n : ℚ) - t| + |(m : ℚ) - t| := by rw [abs_sub_comm t]

theorem cast_div_eq (n : Nat) {d : Nat} (hd : 0 < d) :
    (n : ℚ) / d = (n / d : Nat) + (n % d : Nat) / d := by
  have hd' : (d : ℚ) ≠ 0 := by exact_mod_cast hd.ne'
  calc
    (n : ℚ) / d = (d * (n / d) + n % d : Nat) / d := by rw [Nat.div_add_mod]
    _ = (n / d : Nat) + (n % d : Nat) / d := by
      rw [Nat.cast_add, Nat.cast_mul, add_div, mul_div_cancel_left₀ _ hd']

/-- A quotient is rounded to a whole number at a distance of one half at most, which is even if the
distance is one half. -/
theorem abs_roundQuotient_sub_le (n : Nat) {d : Nat} (hd : 0 < d) :
    |(roundQuotient n d : ℚ) - n / d| ≤ 1 / 2 ∧
      (|(roundQuotient n d : ℚ) - n / d| = 1 / 2 → Even (roundQuotient n d)) := by
  have hd' : (0 : ℚ) < d := by exact_mod_cast hd
  have hfraction : (0 : ℚ) ≤ (n % d : Nat) / d := by positivity
  have hless : ((n % d : Nat) : ℚ) / d < 1 := by
    rw [div_lt_one hd']
    exact_mod_cast Nat.mod_lt n hd
  have hhalf : ((n % d : Nat) : ℚ) / d = 1 / 2 ↔ 2 * (n % d) = d := by
    rw [div_eq_div_iff hd'.ne' two_ne_zero, one_mul, mul_comm]
    exact_mod_cast Iff.rfl
  rw [cast_div_eq n hd, roundQuotient]
  split
  · next h =>
    have hle : ((n % d : Nat) : ℚ) / d ≤ 1 / 2 := by
      rw [div_le_div_iff₀ hd' two_pos, one_mul, mul_comm]
      exact_mod_cast (show 2 * (n % d) ≤ d by omega)
    rw [sub_add_cancel_left, abs_neg, abs_of_nonneg hfraction, hhalf]
    refine ⟨hle, fun heq ↦ ?_⟩
    rw [Nat.even_iff]
    omega
  · next h =>
    have hle : 1 / 2 ≤ ((n % d : Nat) : ℚ) / d := by
      rw [div_le_div_iff₀ two_pos hd', one_mul, mul_comm ((n % d : Nat) : ℚ)]
      exact_mod_cast (show d ≤ 2 * (n % d) by omega)
    rw [Nat.cast_succ, add_sub_add_left_eq_sub, abs_of_pos (sub_pos.2 hless)]
    refine ⟨by linarith, fun heq ↦ ?_⟩
    have htie : 2 * (n % d) = d := hhalf.1 (by linarith)
    rw [Nat.even_iff]
    omega

end Whole

/-- A pattern whose magnitude is nearest to a number, and which is even if another is as near. -/
structure IsNearestPattern (s : ℚ) (pattern : Nat) : Prop where
  nearest : ∀ other, |(magnitudeAt pattern : ℚ) - s| ≤ |(magnitudeAt other : ℚ) - s|
  even : ∀ other, other ≠ pattern →
    |(magnitudeAt pattern : ℚ) - s| = |(magnitudeAt other : ℚ) - s| → Even pattern

section Nearest

variable {s t : ℚ} {pattern other : Nat}

theorem cast_magnitudeAt_lt (h : pattern < other) :
    (magnitudeAt pattern : ℚ) < magnitudeAt other := by
  exact_mod_cast strictMono_magnitudeAt h

theorem cast_magnitudeAt_le (h : pattern ≤ other) :
    (magnitudeAt pattern : ℚ) ≤ magnitudeAt other := by
  exact_mod_cast strictMono_magnitudeAt.monotone h

/-- A greater number has no smaller pattern. -/
theorem IsNearestPattern.le (hpattern : IsNearestPattern s pattern)
    (hother : IsNearestPattern t other) (h : s ≤ t) : pattern ≤ other := by
  by_contra hlt
  rw [Nat.not_le] at hlt
  have hmagnitude := cast_magnitudeAt_lt hlt
  have hleast := add_le_two_mul_of_nearer hmagnitude (hpattern.nearest other)
  have hgreatest := two_mul_le_add_of_nearer hmagnitude (hother.nearest pattern)
  -- both numbers lie halfway, so both patterns are even and one between them is nearer
  have hs : 2 * s = magnitudeAt other + magnitudeAt pattern := by linarith
  have ht : 2 * t = magnitudeAt other + magnitudeAt pattern := by linarith
  have heven := hpattern.even other hlt.ne (abs_sub_eq_of_two_mul_eq hmagnitude.le hs).symm
  have heven' := hother.even pattern hlt.ne' (abs_sub_eq_of_two_mul_eq hmagnitude.le ht)
  have hbetween : other + 1 < pattern := by
    rw [Nat.even_iff] at heven heven'
    omega
  have hnearer := abs_sub_lt_of_between (cast_magnitudeAt_lt (Nat.lt_succ_self other))
    (cast_magnitudeAt_lt hbetween) hs
  exact absurd (hpattern.nearest (other + 1)) hnearer.not_ge

theorem IsNearestPattern.unique (hpattern : IsNearestPattern s pattern)
    (hother : IsNearestPattern s other) : pattern = other :=
  Nat.le_antisymm (hpattern.le hother le_rfl) (hother.le hpattern le_rfl)

/-- From halfway on a number belongs to the next pattern if that is even. -/
theorem IsNearestPattern.succ_le_iff (hpattern : IsNearestPattern s pattern) (earlier : Nat)
    (heven : Even (earlier + 1)) :
    earlier + 1 ≤ pattern ↔ (magnitudeAt earlier + magnitudeAt (earlier + 1) : ℚ) ≤ 2 * s := by
  constructor
  · intro h
    have hleast := add_le_two_mul_of_nearer (cast_magnitudeAt_lt h) (hpattern.nearest earlier)
    linarith [cast_magnitudeAt_le h]
  · intro h
    by_contra hlt
    have hle : pattern ≤ earlier := by omega
    have hgreatest := two_mul_le_add_of_nearer (cast_magnitudeAt_lt (Nat.lt_succ_of_le hle))
      (hpattern.nearest (earlier + 1))
    have heq : pattern = earlier := by
      by_contra hne
      linarith [cast_magnitudeAt_lt (Nat.lt_of_le_of_ne hle hne)]
    subst heq
    have hhalfway : 2 * s = magnitudeAt pattern + magnitudeAt (pattern + 1) := by linarith
    have htie := abs_sub_eq_of_two_mul_eq (cast_magnitudeAt_le (Nat.le_succ pattern)) hhalfway
    exact Nat.even_add_one.1 heven (hpattern.even _ (Nat.succ_ne_self pattern) htie)

end Nearest

theorem isNearestPattern_zero : IsNearestPattern 0 0 where
  nearest other := by
    have hmagnitude : magnitudeAt 0 = 0 := rfl
    rw [hmagnitude, Nat.cast_zero, sub_zero, abs_zero]
    exact abs_nonneg _
  even _ _ _ := Even.zero

theorem div_two_pow_log2_bounds (a : Nat) :
    a / 2 ^ (a.log2 - 52) < 2 * fractionLimit ∧
      (a.log2 - 52 = 0 ∨ fractionLimit ≤ a / 2 ^ (a.log2 - 52)) := by
  have hpow : fractionLimit = 2 ^ 52 := rfl
  have hupper : a < 2 ^ (a.log2 + 1) := Nat.lt_log2_self
  constructor
  · rw [Nat.div_lt_iff_lt_mul (Nat.two_pow_pos _), hpow, ← Nat.pow_succ', ← Nat.pow_add]
    exact Nat.lt_of_lt_of_le hupper (Nat.pow_le_pow_right (by decide) (by omega))
  · by_cases hsmall : a.log2 ≤ 52
    · exact .inl (Nat.sub_eq_zero_of_le hsmall)
    · right
      have hne : a ≠ 0 := by
        rintro rfl
        exact hsmall (by decide)
      rw [Nat.le_div_iff_mul_le (Nat.two_pow_pos _), hpow, ← Nat.pow_add,
        Nat.add_sub_of_le (by omega)]
      exact Nat.log2_self_le hne

theorem div_le_roundQuotient (n d : Nat) : n / d ≤ roundQuotient n d := by
  rw [roundQuotient]
  split
  · exact Nat.le_refl _
  · exact Nat.le_succ _

theorem roundQuotient_le (n d : Nat) : roundQuotient n d ≤ n / d + 1 := by
  rw [roundQuotient]
  split
  · exact Nat.le_succ _
  · exact Nat.le_refl _

section Steps

variable {exponent steps : Nat} {t : ℚ}

/-- A magnitude is a whole number of steps, or it lies below all numbers with such steps. -/
theorem whole_or_lt (exponent pattern : Nat) (ht : exponent = 0 ∨ (fractionLimit : ℚ) ≤ t) :
    (∃ whole : Nat, (magnitudeAt pattern : ℚ) / 2 ^ exponent = whole) ∨
      (magnitudeAt pattern : ℚ) / 2 ^ exponent < fractionLimit ∧ (fractionLimit : ℚ) ≤ t := by
  have hspacing : (0 : ℚ) < 2 ^ exponent := pow_pos two_pos exponent
  rcases ht with rfl | ht
  · exact .inl ⟨magnitudeAt pattern, by rw [pow_zero, div_one]⟩
  rcases dvd_or_magnitudeAt_lt exponent pattern with ⟨whole, hwhole⟩ | hlt
  · refine .inl ⟨whole, ?_⟩
    rw [hwhole, Nat.cast_mul, Nat.cast_pow, Nat.cast_ofNat, mul_div_cancel_left₀ _ hspacing.ne']
  · refine .inr ⟨?_, ht⟩
    rw [div_lt_iff₀ hspacing]
    exact_mod_cast hlt

/-- A whole number of steps that is at most half a step away is nearest among all magnitudes. -/
theorem abs_sub_le_of_le_half (hhalf : |(steps : ℚ) - t| ≤ 1 / 2)
    (ht : exponent = 0 ∨ (fractionLimit : ℚ) ≤ t) (pattern : Nat)
    (hne : (magnitudeAt pattern : ℚ) / 2 ^ exponent ≠ steps) :
    |(steps : ℚ) - t| ≤ |(magnitudeAt pattern : ℚ) / 2 ^ exponent - t| ∧
      (|(steps : ℚ) - t| = |(magnitudeAt pattern : ℚ) / 2 ^ exponent - t| →
        |(steps : ℚ) - t| = 1 / 2) := by
  rcases whole_or_lt exponent pattern ht with ⟨whole, hwhole⟩ | ⟨hlt, ht⟩
  · rw [hwhole] at hne ⊢
    have hsum := one_le_abs_sub_add_abs_sub (m := steps) (n := whole)
      (fun h ↦ hne (by rw [h])) t
    exact ⟨by linarith, fun heq ↦ by linarith⟩
  · have hbelow : |(magnitudeAt pattern : ℚ) / 2 ^ exponent - t| =
        t - magnitudeAt pattern / 2 ^ exponent := by
      rw [abs_of_nonpos (by linarith), neg_sub]
    have hless : |(steps : ℚ) - t| < |(magnitudeAt pattern : ℚ) / 2 ^ exponent - t| := by
      rw [hbelow]
      by_cases heq : steps = fractionLimit
      · rw [heq, abs_of_nonpos (by linarith)]
        linarith
      · have hsum := one_le_abs_sub_add_abs_sub heq t
        rw [abs_of_nonpos (show (fractionLimit : ℚ) - t ≤ 0 by linarith)] at hsum
        linarith
    exact ⟨hless.le, fun heq ↦ absurd heq hless.ne⟩

/-- So many steps behind the pattern that begins an exponent, a pattern is nearest to a number if
the steps are. -/
theorem isNearestPattern_of_steps (hsteps : steps ≤ 2 * fractionLimit)
    (hnormal : exponent = 0 ∨ fractionLimit ≤ steps) (ht : exponent = 0 ∨ (fractionLimit : ℚ) ≤ t)
    (hhalf : |(steps : ℚ) - t| ≤ 1 / 2) (heven : |(steps : ℚ) - t| = 1 / 2 → Even steps) :
    IsNearestPattern (t * 2 ^ exponent) (exponent * fractionLimit + steps) := by
  have hspacing : (0 : ℚ) < 2 ^ exponent := pow_pos two_pos exponent
  have hmagnitude :
      (magnitudeAt (exponent * fractionLimit + steps) : ℚ) / 2 ^ exponent = steps := by
    rw [magnitudeAt_add hsteps hnormal, Nat.cast_mul, Nat.cast_pow, Nat.cast_ofNat,
      mul_div_cancel_right₀ _ hspacing.ne']
  have hdistance (v : ℚ) : |v - t * 2 ^ exponent| = |v / 2 ^ exponent - t| * 2 ^ exponent := by
    rw [div_sub' hspacing.ne', abs_div, abs_of_pos hspacing, div_mul_cancel₀ _ hspacing.ne',
      mul_comm t]
  constructor
  · intro other
    rw [hdistance, hdistance, hmagnitude]
    apply mul_le_mul_of_nonneg_right _ hspacing.le
    by_cases hne : (magnitudeAt other : ℚ) / 2 ^ exponent = steps
    · rw [hne]
    · exact (abs_sub_le_of_le_half hhalf ht other hne).1
  · intro other hother htie
    rw [hdistance, hdistance, hmagnitude] at htie
    have hne : (magnitudeAt other : ℚ) / 2 ^ exponent ≠ steps := by
      rw [← hmagnitude, Ne, div_left_inj' hspacing.ne', Nat.cast_inj]
      exact fun h ↦ hother (strictMono_magnitudeAt.injective h)
    have heven := heven ((abs_sub_le_of_le_half hhalf ht other hne).2
      (mul_right_cancel₀ hspacing.ne' htie))
    rw [Nat.even_iff] at heven ⊢
    rw [fractionLimit_eq]
    omega

end Steps

/-- The pattern for a quotient that is counted in units of `2 ^ -1074` already. -/
def scaledPattern (scaled d : Nat) : Nat :=
  let exponent := (scaled / d).log2 - 52
  exponent * fractionLimit + roundQuotient scaled (d * Nat.pow 2 exponent)

theorem nearestPattern_eq (n d : Nat) {unit : Nat} (hunit : unit = 1074) :
    nearestPattern n d = scaledPattern (n * Nat.pow 2 unit) d := by
  rw [nearestPattern, scaledPattern, ← hunit]

theorem isNearestPattern_scaledPattern (scaled : Nat) {d : Nat} (hd : 0 < d) :
    IsNearestPattern (scaled / d) (scaledPattern scaled d) := by
  rw [scaledPattern, Nat.pow_eq]
  have hbounds := div_two_pow_log2_bounds (scaled / d)
  rw [Nat.div_div_eq_div_mul] at hbounds
  generalize (scaled / d).log2 - 52 = exponent at hbounds ⊢
  obtain ⟨hupper, hlower⟩ := hbounds
  have hstep : 0 < d * 2 ^ exponent := Nat.mul_pos hd (Nat.two_pow_pos _)
  have hquotient : (scaled / d : ℚ) = scaled / (d * 2 ^ exponent : Nat) * 2 ^ exponent := by
    rw [Nat.cast_mul, Nat.cast_pow, Nat.cast_ofNat, div_mul_eq_mul_div,
      mul_div_mul_right _ _ (pow_pos two_pos exponent).ne']
  obtain ⟨hhalf, heven⟩ := abs_roundQuotient_sub_le scaled hstep
  have hleast := div_le_roundQuotient scaled (d * 2 ^ exponent)
  have hgreatest := roundQuotient_le scaled (d * 2 ^ exponent)
  rw [hquotient]
  refine isNearestPattern_of_steps (by omega) (hlower.imp_right fun h ↦ h.trans hleast)
    (hlower.imp_right fun h ↦ ?_) hhalf heven
  rw [le_div_iff₀ (by exact_mod_cast hstep)]
  exact_mod_cast (Nat.le_div_iff_mul_le hstep).1 h

theorem cast_scaled_div (n d exponent : Nat) :
    ((n * Nat.pow 2 exponent : Nat) : ℚ) / d = n / d * 2 ^ exponent := by
  have hpow : ((Nat.pow 2 exponent : Nat) : ℚ) = 2 ^ exponent := Nat.cast_pow 2 exponent
  rw [Nat.cast_mul, hpow, mul_div_right_comm]

/-- The computed pattern is nearest to the quotient, counted in units of `2 ^ -1074`. -/
theorem isNearestPattern_nearestPattern (n : Nat) {d : Nat} (hd : 0 < d) :
    IsNearestPattern (n / d * 2 ^ 1074) (nearestPattern n d) := by
  -- the exponent gets a name, or the unit would be evaluated
  obtain ⟨unit, hunit⟩ : ∃ unit, unit = 1074 := ⟨1074, rfl⟩
  rw [nearestPattern_eq n d hunit, ← hunit, ← cast_scaled_div]
  exact isNearestPattern_scaledPattern _ hd

/-! ## Rounding rational numbers -/

/-- Halfway between the greatest finite number and the power of two behind it. -/
def overflowBound : ℚ := 2 ^ 1024 - 2 ^ 970

/-- What rounding to nearest with ties to even makes of a non-negative rational number. -/
structure RoundsTo (q : ℚ) (x : Binary64) : Prop where
  isNegative : x.isNegative = false
  isNaN : x.isNaN = false
  isInfinite_iff : x.isInfinite = true ↔ overflowBound ≤ q
  nearest : x.IsFinite → ∀ y : Binary64, y.IsFinite → |x.toRat - q| ≤ |y.toRat - q|
  even : x.IsFinite → ∀ y : Binary64, y.IsFinite → y.toRat ≠ x.toRat →
    |x.toRat - q| = |y.toRat - q| → Even x.significand

theorem two_mul_overflowBound :
    2 * (overflowBound * 2 ^ 1074) =
      (magnitudeAt (infinityPattern - 1) + magnitudeAt infinityPattern : ℚ) := by
  have hpower : (2 : ℚ) ^ 1024 = 2 ^ 970 * 2 ^ 54 := pow_add 2 970 54
  have hspacing : (2 : ℚ) ^ 2045 = 2 ^ 970 * 2 ^ 1074 * 2 := by
    rw [← pow_add, ← pow_succ]
  have hlimit : (fractionLimit : ℚ) = 2 ^ 52 := by
    rw [fractionLimit_eq]
    norm_num
  have hpred : ((2 * fractionLimit - 1 : Nat) : ℚ) = 2 * fractionLimit - 1 := by
    rw [Nat.cast_sub (by decide), Nat.cast_mul, Nat.cast_ofNat, Nat.cast_one]
  rw [magnitudeAt_infinityPattern_pred, magnitudeAt_infinityPattern, overflowBound, hpower,
    Nat.cast_mul, Nat.cast_mul, Nat.cast_mul, hpred, Nat.cast_pow, Nat.cast_ofNat, hspacing, hlimit]
  generalize (2 : ℚ) ^ 970 = u
  generalize (2 : ℚ) ^ 1074 = v
  ring

section RoundsTo

variable {q r : ℚ} {x y : Binary64} {pattern : Nat}

theorem abs_toRat_sub (hx : x.isNegative = false) (q : ℚ) :
    |x.toRat - q| = |(magnitudeAt x.unsigned : ℚ) - q * 2 ^ 1074| / 2 ^ 1074 := by
  have hunit : (0 : ℚ) < 2 ^ 1074 := pow_pos two_pos 1074
  rw [toRat_of_not_isNegative hx, div_sub' hunit.ne', abs_div, abs_of_pos hunit, mul_comm q]

/-- Without its sign, a number is no further from a non-negative one. -/
theorem abs_magnitudeAt_sub_le (hq : 0 ≤ q) (y : Binary64) :
    |(magnitudeAt y.unsigned : ℚ) - q * 2 ^ 1074| / 2 ^ 1074 ≤ |y.toRat - q| := by
  have hunit : (0 : ℚ) < 2 ^ 1074 := pow_pos two_pos 1074
  calc
    |(magnitudeAt y.unsigned : ℚ) - q * 2 ^ 1074| / 2 ^ 1074 =
        abs (|y.toRat| - |q|) := by
      rw [abs_toRat, abs_of_nonneg hq, div_sub' hunit.ne', abs_div, abs_of_pos hunit, mul_comm q]
    _ ≤ |y.toRat - q| := abs_abs_sub_abs_le _ _

theorem isInfinite_atPattern_iff :
    (atPattern pattern).isInfinite = true ↔ infinityPattern ≤ pattern := by
  rw [← Nat.not_lt, ← isFinite_atPattern_iff, isFinite_iff_of_isNaN (isNaN_atPattern pattern),
    Bool.not_eq_false]

theorem even_of_abs_neg_sub_eq {w : ℚ} (h : IsNearestPattern (q * 2 ^ 1074) pattern) (hw : w ≠ 0)
    (htie : |w - q| = |-w - q|) : Even pattern := by
  have hzero : q = 0 := by
    rcases abs_eq_abs.1 htie with heq | heq
    · exact absurd (show w = 0 by linarith) hw
    · linarith
  rw [hzero, zero_mul] at h
  rw [h.unique isNearestPattern_zero]
  exact Even.zero

/-- The number at the nearest pattern is the rounded one. -/
theorem IsNearestPattern.roundsTo (hq : 0 ≤ q) (h : IsNearestPattern (q * 2 ^ 1074) pattern) :
    RoundsTo q (atPattern pattern) where
  isNegative := isNegative_atPattern pattern
  isNaN := isNaN_atPattern pattern
  isInfinite_iff := by
    have hbound := h.succ_le_iff (infinityPattern - 1) (by decide)
    rw [show infinityPattern - 1 + 1 = infinityPattern from rfl, ← two_mul_overflowBound] at hbound
    rw [isInfinite_atPattern_iff, hbound, mul_le_mul_iff_right₀ two_pos,
      mul_le_mul_iff_left₀ (pow_pos two_pos 1074)]
  nearest hfinite y _ := by
    rw [abs_toRat_sub (isNegative_atPattern pattern),
      unsigned_atPattern_of_lt (isFinite_atPattern_iff.1 hfinite)]
    refine le_trans ?_ (abs_magnitudeAt_sub_le hq y)
    exact div_le_div_of_nonneg_right (h.nearest _) (pow_pos two_pos 1074).le
  even hfinite y _ hne htie := by
    have hpattern := unsigned_atPattern_of_lt (isFinite_atPattern_iff.1 hfinite)
    have hunit : (0 : ℚ) < 2 ^ 1074 := pow_pos two_pos 1074
    rw [significand_eq, hpattern, even_significandAt]
    by_cases hsame : y.unsigned = pattern
    · have habs : |(atPattern pattern).toRat| = |y.toRat| := by
        rw [abs_toRat, abs_toRat, hpattern, hsame]
      rcases abs_eq_abs.1 habs with heq | heq
      · exact absurd heq.symm hne
      · have hopposite : y.toRat = -(atPattern pattern).toRat := by rw [heq, neg_neg]
        rw [hopposite] at hne htie
        exact even_of_abs_neg_sub_eq h (fun hzero ↦ hne (by rw [hzero, neg_zero])) htie
    · have hnear := abs_magnitudeAt_sub_le hq y
      rw [← htie, abs_toRat_sub (isNegative_atPattern pattern), hpattern,
        div_le_div_iff_of_pos_right hunit] at hnear
      exact h.even y.unsigned hsame (le_antisymm (h.nearest _) hnear)

/-- The number that is computed for a quotient is the rounded one. -/
theorem roundsTo_ofRatio (n : Nat) {d : Nat} (hd : 0 < d) : RoundsTo (n / d) (ofRatio n d) :=
  (isNearestPattern_nearestPattern n hd).roundsTo (by positivity)

theorem exists_isNearestPattern (hq : 0 ≤ q) :
    ∃ pattern, IsNearestPattern (q * 2 ^ 1074) pattern := by
  have hquotient : ((q.num.toNat : Nat) : ℚ) / q.den = q := by
    have hnum : ((q.num.toNat : Nat) : ℚ) = q.num := by
      exact_mod_cast Int.toNat_of_nonneg (Rat.num_nonneg.2 hq)
    rw [hnum, Rat.num_div_den]
  refine ⟨nearestPattern q.num.toNat q.den, ?_⟩
  have h := isNearestPattern_nearestPattern q.num.toNat q.den_pos
  rwa [hquotient] at h

theorem RoundsTo.isFinite_iff (h : RoundsTo q x) : x.IsFinite ↔ q < overflowBound := by
  rw [isFinite_iff_of_isNaN h.isNaN, ← Bool.not_eq_true, h.isInfinite_iff, not_le]

/-- A finite rounded number has the nearest pattern. -/
theorem RoundsTo.isNearestPattern (hq : 0 ≤ q) (h : RoundsTo q x) (hfinite : x.IsFinite) :
    IsNearestPattern (q * 2 ^ 1074) x.unsigned := by
  obtain ⟨pattern, hpattern⟩ := exists_isNearestPattern hq
  have hother := hpattern.roundsTo hq
  have hotherFinite := hother.isFinite_iff.2 (h.isFinite_iff.1 hfinite)
  have hunsigned := unsigned_atPattern_of_lt (isFinite_atPattern_iff.1 hotherFinite)
  have hequal : |x.toRat - q| = |(atPattern pattern).toRat - q| :=
    le_antisymm (h.nearest hfinite _ hotherFinite) (hother.nearest hotherFinite _ hfinite)
  have hdistance : |(magnitudeAt x.unsigned : ℚ) - q * 2 ^ 1074| =
      |(magnitudeAt pattern : ℚ) - q * 2 ^ 1074| := by
    rw [abs_toRat_sub h.isNegative, abs_toRat_sub hother.isNegative, hunsigned] at hequal
    exact (div_left_inj' (pow_pos two_pos 1074).ne').1 hequal
  constructor
  · intro other
    rw [hdistance]
    exact hpattern.nearest other
  · intro other hother htie
    by_cases hsame : x.unsigned = pattern
    · rw [hsame] at hother htie ⊢
      exact hpattern.even other hother htie
    · rw [← even_significandAt, ← significand_eq]
      refine h.even hfinite _ hotherFinite (fun heq ↦ hsame ?_) hequal
      rw [toRat_of_not_isNegative h.isNegative, toRat_of_not_isNegative (isNegative_atPattern _),
        hunsigned, div_left_inj' (pow_pos two_pos 1074).ne', Nat.cast_inj] at heq
      exact (strictMono_magnitudeAt.injective heq).symm

/-- There is one way to round. -/
theorem RoundsTo.unique (hq : 0 ≤ q) (hx : RoundsTo q x) (hy : RoundsTo q y) : x = y := by
  apply eq_of_unsigned_eq hx.isNegative hy.isNegative
  rcases lt_or_ge q overflowBound with hlt | hle
  · exact (hx.isNearestPattern hq (hx.isFinite_iff.2 hlt)).unique
      (hy.isNearestPattern hq (hy.isFinite_iff.2 hlt))
  · rw [unsigned_of_isInfinite (hx.isInfinite_iff.2 hle),
      unsigned_of_isInfinite (hy.isInfinite_iff.2 hle)]

theorem RoundsTo.extended_eq (h : RoundsTo q x) (hq : q < overflowBound) :
    x.extended = ((magnitudeAt x.unsigned / 2 ^ 1074 : ℚ) : WithTop ℚ) := by
  have hfinite : x.isInfinite = false := by
    rw [← Bool.not_eq_true, h.isInfinite_iff, not_le]
    exact hq
  rw [extended, hfinite, toRat_of_not_isNegative h.isNegative]
  rfl

/-- A greater number does not round to a smaller one. -/
theorem RoundsTo.extended_le (hq : 0 ≤ q) (hle : q ≤ r) (hx : RoundsTo q x) (hy : RoundsTo r y) :
    x.extended ≤ y.extended := by
  rcases lt_or_ge r overflowBound with hr | hr
  · have hpattern := (hx.isNearestPattern hq (hx.isFinite_iff.2 (hle.trans_lt hr))).le
      (hy.isNearestPattern (hq.trans hle) (hy.isFinite_iff.2 hr))
      (mul_le_mul_of_nonneg_right hle (pow_pos two_pos 1074).le)
    rw [hx.extended_eq (hle.trans_lt hr), hy.extended_eq hr, WithTop.coe_le_coe]
    exact div_le_div_of_nonneg_right (cast_magnitudeAt_le hpattern) (pow_pos two_pos 1074).le
  · rw [extended.eq_def y, if_pos (hy.isInfinite_iff.2 hr)]
    exact le_top

end RoundsTo

end LoxScan.Number.Binary64
