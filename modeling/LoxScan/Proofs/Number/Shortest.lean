import Mathlib.Tactic.FieldSimp
import LoxScan.Number.Shortest
import LoxScan.Proofs.Number.Rounding

/-!
# Shortest decimals read back

The neighbourhood of a number ends halfway to the next patterns on either side, so every decimal
that lies in it rounds to the number.  With seventeen digits the grid of decimals has steps that are
smaller than the neighbourhood is wide, hence one of the two grid neighbours of the number lies in
it, and the search for a decimal with at most seventeen digits succeeds.
-/

namespace LoxScan.Number

namespace Binary64

/-- A number between the midpoints around a pattern belongs to it, and a midpoint itself does so if
the pattern is even. -/
theorem isNearestPattern_of_between {s : ℚ} {earlier : Nat}
    (hlow : (magnitudeAt earlier + magnitudeAt (earlier + 1) : ℚ) ≤ 2 * s)
    (hhigh : 2 * s ≤ (magnitudeAt (earlier + 1) + magnitudeAt (earlier + 2) : ℚ))
    (heven : (magnitudeAt earlier + magnitudeAt (earlier + 1) : ℚ) = 2 * s ∨
      2 * s = (magnitudeAt (earlier + 1) + magnitudeAt (earlier + 2) : ℚ) → Even (earlier + 1)) :
    IsNearestPattern s (earlier + 1) := by
  have hfirst := cast_magnitudeAt_lt (Nat.lt_succ_self earlier)
  have hlast := cast_magnitudeAt_lt (Nat.lt_succ_self (earlier + 1))
  have hbounds : |(magnitudeAt (earlier + 1) : ℚ) - s| ≤ s - magnitudeAt earlier ∧
      |(magnitudeAt (earlier + 1) : ℚ) - s| ≤ magnitudeAt (earlier + 2) - s := by
    constructor <;> rw [abs_le] <;> constructor <;> linarith
  have hother (other : Nat) (hne : other ≠ earlier + 1) :
      s - magnitudeAt earlier ≤ |(magnitudeAt other : ℚ) - s| ∧ other ≤ earlier ∨
        magnitudeAt (earlier + 2) - s ≤ |(magnitudeAt other : ℚ) - s| ∧ earlier + 2 ≤ other := by
    rcases Nat.lt_or_gt_of_ne hne with hlt | hgt
    · have hle := cast_magnitudeAt_le (Nat.le_of_lt_succ hlt)
      have habs := neg_abs_le ((magnitudeAt other : ℚ) - s)
      exact .inl ⟨by linarith, Nat.le_of_lt_succ hlt⟩
    · have hle := cast_magnitudeAt_le hgt
      have habs := le_abs_self ((magnitudeAt other : ℚ) - s)
      exact .inr ⟨by linarith, hgt⟩
  constructor
  · intro other
    by_cases hne : other = earlier + 1
    · rw [hne]
    · rcases hother other hne with ⟨h, -⟩ | ⟨h, -⟩
      · exact hbounds.1.trans h
      · exact hbounds.2.trans h
  · intro other hne htie
    apply heven
    rcases hother other hne with ⟨h, hle⟩ | ⟨h, hle⟩
    · left
      rw [← htie] at h
      rcases abs_cases ((magnitudeAt (earlier + 1) : ℚ) - s) with ⟨habs, -⟩ | ⟨habs, -⟩ <;> linarith
    · right
      rw [← htie] at h
      rcases abs_cases ((magnitudeAt (earlier + 1) : ℚ) - s) with ⟨habs, -⟩ | ⟨habs, -⟩ <;> linarith

theorem atPattern_unsigned {x : Binary64} (hx : x.isNegative = false) (hfinite : x.IsFinite) :
    atPattern x.unsigned = x :=
  eq_of_unsigned_eq (isNegative_atPattern _) hx (unsigned_atPattern_of_lt (isFinite_iff.1 hfinite))

theorem spacing_eq (x : Binary64) : x.spacing = 2 ^ (x.unsigned / fractionLimit - 1) := by
  rw [spacing, biasedExponent_eq]
  rfl

/-- The distance to the later pattern is that to the earlier one, or twice that if the significand
begins anew. -/
theorem two_pow_succ_div (earlier : Nat) :
    2 ^ ((earlier + 1) / fractionLimit - 1) =
      if (earlier + 1) % fractionLimit = 0 ∧ 1 < (earlier + 1) / fractionLimit then
        2 * 2 ^ (earlier / fractionLimit - 1)
      else 2 ^ (earlier / fractionLimit - 1) := by
  split
  · rw [← Nat.pow_succ']
    congr 1
    rw [fractionLimit_eq] at *
    omega
  · congr 1
    rw [fractionLimit_eq] at *
    omega

theorem two_mul_gap {x : Binary64} {earlier : Nat} (hx : x.unsigned = earlier + 1) :
    (if x.fraction == 0 && 1 < x.biasedExponent then x.spacing else 2 * x.spacing) =
      2 * 2 ^ (earlier / fractionLimit - 1) := by
  rw [spacing_eq, fraction_eq, biasedExponent_eq, hx, two_pow_succ_div]
  simp only [Bool.and_eq_true, beq_iff_eq, decide_eq_true_eq]
  split <;> rfl

end Binary64

namespace Neighbourhood

open Binary64

variable {x : Binary64} {earlier point : Nat}

theorem value_ofBinary64 (x : Binary64) : (ofBinary64 x).value = 4 * magnitudeAt x.unsigned := by
  rw [← magnitude_eq]
  rfl

theorem low_ofBinary64 (hx : x.unsigned = earlier + 1) :
    (ofBinary64 x).low = 2 * (magnitudeAt earlier + magnitudeAt (earlier + 1)) := by
  have hlow : (ofBinary64 x).low = (ofBinary64 x).value -
      if x.fraction == 0 && 1 < x.biasedExponent then x.spacing else 2 * x.spacing := rfl
  rw [hlow, value_ofBinary64, two_mul_gap hx, hx, magnitudeAt_succ]
  omega

theorem high_ofBinary64 (hx : x.unsigned = earlier + 1) :
    (ofBinary64 x).high = 2 * (magnitudeAt (earlier + 1) + magnitudeAt (earlier + 2)) := by
  have hhigh : (ofBinary64 x).high = (ofBinary64 x).value + 2 * x.spacing := rfl
  rw [hhigh, value_ofBinary64, spacing_eq, hx, magnitudeAt_succ (earlier + 1)]
  omega

theorem low_pos (hzero : x.unsigned ≠ 0) : 0 < (ofBinary64 x).low := by
  obtain ⟨earlier, hearlier⟩ := Nat.exists_eq_succ_of_ne_zero hzero
  have hpos : magnitudeAt 0 < magnitudeAt (earlier + 1) :=
    strictMono_magnitudeAt (Nat.succ_pos earlier)
  rw [low_ofBinary64 hearlier]
  omega

theorem closed_ofBinary64 : (ofBinary64 x).closed = true ↔ Even x.unsigned := by
  rw [← even_significandAt, ← significand_eq, Nat.even_iff]
  exact beq_iff_eq

theorem cast_unitsOfOne : (unitsOfOne : ℚ) = 4 * 2 ^ 1074 := by
  -- the exponents get names, or the powers would be evaluated
  obtain ⟨unit, hunit⟩ : ∃ unit, unit = 1074 := ⟨1074, rfl⟩
  obtain ⟨exponent, hexponent⟩ : ∃ exponent, exponent = 1076 := ⟨1076, rfl⟩
  have hcast : ((Nat.pow 2 exponent : Nat) : ℚ) = 2 ^ exponent := Nat.cast_pow 2 exponent
  unfold unitsOfOne
  rw [← hexponent, hcast, ← hunit, show exponent = unit + 2 by omega, pow_add]
  ring

theorem unitsOfOne_pos : 0 < unitsOfOne := by
  unfold unitsOfOne
  generalize 1076 = exponent
  exact Nat.pow_pos (by decide)

theorem fineness_pos : 0 < fineness := by
  unfold fineness
  generalize fineDigits = exponent
  exact Nat.pow_pos (by decide)

theorem cast_fineness : (fineness : ℚ) = 10 ^ fineDigits := by
  unfold fineness
  generalize fineDigits = exponent
  exact Nat.cast_pow 10 exponent

theorem contains_iff {n : Neighbourhood} :
    n.contains point = true ↔ n.low * fineness ≤ point ∧ point ≤ n.high * fineness ∧
      (n.low * fineness = point ∨ point = n.high * fineness → n.closed = true) := by
  rw [contains]
  cases n.closed with
  | true => simp
  | false =>
    simp only [Bool.false_eq_true, if_false, Bool.and_eq_true, decide_eq_true_eq, imp_false]
    omega

/-- Bounds of a neighbourhood and points on a grid are counted in the same unit. -/
theorem scaled_iff {s t : ℚ} {bound : Nat}
    (hs : (point / (unitsOfOne * fineness) : ℚ) * 2 ^ 1074 = s)
    (ht : (bound : ℚ) = 2 * t * fineness) :
    (bound ≤ point ↔ t ≤ 2 * s) ∧ (point ≤ bound ↔ 2 * s ≤ t) ∧ (bound = point ↔ t = 2 * s) := by
  have hfineness : (0 : ℚ) < fineness := by exact_mod_cast fineness_pos
  have hpower : (0 : ℚ) < 2 ^ 1074 := pow_pos two_pos 1074
  have hpoint : (point : ℚ) = 2 * (2 * s) * fineness := by
    rw [← hs, cast_unitsOfOne]
    generalize (2 : ℚ) ^ 1074 = power at hpower
    field_simp
    ring
  rw [← Nat.cast_le (α := ℚ), ← Nat.cast_le (α := ℚ), ← Nat.cast_inj (R := ℚ), ht, hpoint,
    mul_le_mul_iff_left₀ hfineness, mul_le_mul_iff_left₀ hfineness,
    mul_left_inj' hfineness.ne', mul_le_mul_iff_right₀ two_pos, mul_le_mul_iff_right₀ two_pos,
    mul_right_inj' two_ne_zero]
  exact ⟨Iff.rfl, Iff.rfl, Iff.rfl⟩

/-- What the neighbourhood of a number contains rounds to the number. -/
theorem roundsTo_of_contains (hx : x.isNegative = false) (hfinite : x.IsFinite)
    (hzero : x.unsigned ≠ 0) (h : (ofBinary64 x).contains point = true) :
    RoundsTo (point / (unitsOfOne * fineness)) x := by
  obtain ⟨earlier, hearlier⟩ := Nat.exists_eq_succ_of_ne_zero hzero
  obtain ⟨hlow, hhigh, hclosed⟩ := contains_iff.1 h
  rw [closed_ofBinary64, hearlier] at hclosed
  rw [low_ofBinary64 hearlier] at hlow hclosed
  rw [high_ofBinary64 hearlier] at hhigh hclosed
  have hnonneg : (0 : ℚ) ≤ point / (unitsOfOne * fineness) :=
    div_nonneg (Nat.cast_nonneg _) (mul_nonneg (Nat.cast_nonneg _) (Nat.cast_nonneg _))
  rw [← atPattern_unsigned hx hfinite, hearlier]
  refine IsNearestPattern.roundsTo hnonneg ?_
  have hcast (first second : Nat) : ((2 * (first + second) * fineness : Nat) : ℚ) =
      2 * (first + second) * fineness := by push_cast; rfl
  obtain ⟨hleast, -, hleastEq⟩ := scaled_iff rfl (hcast (magnitudeAt earlier) _)
  obtain ⟨-, hgreatest, hgreatestEq⟩ := scaled_iff rfl (hcast _ (magnitudeAt (earlier + 2)))
  refine isNearestPattern_of_between (hleast.1 hlow) (hgreatest.1 hhigh) fun htie ↦ hclosed ?_
  exact htie.imp hleastEq.2 fun h ↦ (hgreatestEq.2 h.symm).symm

section Grid

variable {n : Neighbourhood} {digits : Nat} {d : Decimal}

/-- The distance of two decimals with a count of digits. -/
def gridStep (n : Neighbourhood) (digits : Nat) : Nat :=
  Nat.pow 10 (n.wholeDigits - digits) * unitsOfOne

theorem gridStep_pos (n : Neighbourhood) (digits : Nat) : 0 < n.gridStep digits :=
  Nat.mul_pos (Nat.pow_pos (by decide)) unitsOfOne_pos

theorem of_onGrid? (h : n.onGrid? digits = some d) :
    n.contains (d.coefficient * n.gridStep digits) = true ∧
      d.exponent = (n.wholeDigits : Int) - digits - fineDigits := by
  rw [onGrid?] at h
  dsimp only at h
  split at h
  · cases h
  · next hlower _ =>
    cases h
    exact ⟨hlower, rfl⟩
  · next _ hupper =>
    cases h
    exact ⟨hupper, rfl⟩
  · next hlower hupper =>
    split at h
    · cases h
      exact ⟨hlower, rfl⟩
    · cases h
      exact ⟨hupper, rfl⟩

/-- A neighbourhood that is wider than a step contains a multiple of the step. -/
theorem contains_or_contains {step : Nat} (hpos : 0 < step) (hlow : n.low < n.value)
    (hhigh : n.value < n.high) (hstep : n.low * fineness + step < n.high * fineness) :
    n.contains (n.value * fineness / step * step) = true ∨
      n.contains ((n.value * fineness / step + 1) * step) = true := by
  have hbefore : n.value * fineness / step * step ≤ n.value * fineness := Nat.div_mul_le_self _ _
  have hafter : n.value * fineness < (n.value * fineness / step + 1) * step :=
    (Nat.lt_mul_div_succ _ hpos).trans_eq (Nat.mul_comm _ _)
  have hlow' := Nat.mul_lt_mul_of_pos_right hlow fineness_pos
  have hhigh' := Nat.mul_lt_mul_of_pos_right hhigh fineness_pos
  rw [Nat.succ_mul] at hafter ⊢
  rw [contains_iff, contains_iff]
  generalize n.value * fineness / step * step = lower at *
  omega

/-- A grid finds a decimal if its steps are smaller than the neighbourhood is wide. -/
theorem onGrid?_isSome (hlow : n.low < n.value) (hhigh : n.value < n.high)
    (hstep : n.low * fineness + n.gridStep digits < n.high * fineness) :
    (n.onGrid? digits).isSome := by
  have hcontains := contains_or_contains (n.gridStep_pos digits) hlow hhigh hstep
  unfold gridStep at hcontains
  rw [onGrid?]
  dsimp only
  split
  · next hlower hupper =>
    rw [hlower, hupper] at hcontains
    simp at hcontains
  · rfl
  · rfl
  · split <;> rfl

end Grid

theorem pow_le_of_length_toDigits {m : Nat} (hm : 0 < m) :
    10 ^ ((Nat.toDigits 10 m).length - 1) ≤ m := by
  by_cases hone : (Nat.toDigits 10 m).length - 1 = 0
  · rw [hone]
    exact hm
  · rw [← Nat.not_lt, ← Nat.length_toDigits_le_iff (by decide) (Nat.pos_of_ne_zero hone)]
    omega

theorem lt_pow_length_toDigits (m : Nat) : m < 10 ^ (Nat.toDigits 10 m).length :=
  (Nat.length_toDigits_le_iff (by decide) Nat.length_toDigits_pos).1 le_rfl

theorem value_between (hx : x.unsigned = earlier + 1) :
    (ofBinary64 x).low < (ofBinary64 x).value ∧ (ofBinary64 x).value < (ofBinary64 x).high := by
  have hfirst : magnitudeAt earlier < magnitudeAt (earlier + 1) :=
    strictMono_magnitudeAt (Nat.lt_succ_self _)
  have hlast : magnitudeAt (earlier + 1) < magnitudeAt (earlier + 2) :=
    strictMono_magnitudeAt (Nat.lt_succ_self _)
  rw [low_ofBinary64 hx, high_ofBinary64 hx, value_ofBinary64, hx]
  omega

theorem ten_pow_le_wholePart (hx : x.unsigned = earlier + 1) :
    10 ^ 16 ≤ (ofBinary64 x).value * fineness / unitsOfOne := by
  have hleast : 10 ^ 16 * unitsOfOne ≤ 4 * fineness := by decide +kernel
  have hvalue : 4 ≤ (ofBinary64 x).value := by
    have hpos : magnitudeAt 0 < magnitudeAt (earlier + 1) :=
      strictMono_magnitudeAt (Nat.succ_pos earlier)
    rw [value_ofBinary64, hx]
    omega
  rw [Nat.le_div_iff_mul_le unitsOfOne_pos]
  exact hleast.trans (Nat.mul_le_mul_right _ hvalue)

/-- The whole part has more digits than are ever needed. -/
theorem le_wholeDigits (hx : x.unsigned = earlier + 1) : 17 ≤ (ofBinary64 x).wholeDigits := by
  have hpart := ten_pow_le_wholePart hx
  rw [← Nat.not_lt, ← Nat.length_toDigits_le_iff (by decide) (by decide)] at hpart
  exact Nat.not_le.1 hpart

/-- The steps of seventeen digits are small in comparison to the value. -/
theorem gridStep_mul_le (hx : x.unsigned = earlier + 1) :
    (ofBinary64 x).gridStep 17 * 10 ^ 16 ≤ (ofBinary64 x).value * fineness := by
  have hdigits := le_wholeDigits hx
  have hpart := ten_pow_le_wholePart hx
  rw [wholeDigits] at hdigits
  rw [gridStep, wholeDigits]
  generalize (ofBinary64 x).value * fineness = total at *
  have hpow := pow_le_of_length_toDigits (m := total / unitsOfOne) (by omega)
  generalize (Nat.toDigits 10 (total / unitsOfOne)).length = length at *
  calc
    Nat.pow 10 (length - 17) * unitsOfOne * 10 ^ 16 = 10 ^ (length - 1) * unitsOfOne := by
      rw [Nat.pow_eq, Nat.mul_right_comm, ← Nat.pow_add]
      congr 2
      omega
    _ ≤ total / unitsOfOne * unitsOfOne := Nat.mul_le_mul_right _ hpow
    _ ≤ total := Nat.div_mul_le_self _ _

theorem gap_cases (earlier : Nat) :
    2 ^ ((earlier + 1) / fractionLimit - 1) = 2 ^ (earlier / fractionLimit - 1) ∨
      significandAt (earlier + 1) = fractionLimit ∧
        2 ^ ((earlier + 1) / fractionLimit - 1) = 2 * 2 ^ (earlier / fractionLimit - 1) := by
  rw [two_pow_succ_div]
  split
  · next hpower =>
    refine .inr ⟨?_, rfl⟩
    rw [significandAt, if_neg (by omega), hpower.1, Nat.add_zero]
  · exact .inl rfl

/-- The steps of seventeen digits are smaller than the neighbourhood is wide. -/
theorem low_add_gridStep_lt (hx : x.unsigned = earlier + 1) :
    (ofBinary64 x).low * fineness + (ofBinary64 x).gridStep 17 <
      (ofBinary64 x).high * fineness := by
  have hstep := gridStep_mul_le hx
  rw [value_ofBinary64, hx] at hstep
  rw [low_ofBinary64 hx, high_ofBinary64 hx, magnitudeAt_succ (earlier + 1)]
  have hsignificand := significandAt_lt (earlier + 1)
  have hmagnitude : magnitudeAt (earlier + 1) =
      significandAt (earlier + 1) * 2 ^ ((earlier + 1) / fractionLimit - 1) := rfl
  have hgap : 0 < 2 ^ (earlier / fractionLimit - 1) := Nat.two_pow_pos _
  have hgaps := gap_cases earlier
  have hearlier := magnitudeAt_succ earlier
  generalize (ofBinary64 x).gridStep 17 = step at *
  generalize 2 ^ ((earlier + 1) / fractionLimit - 1) = later at *
  generalize 2 ^ (earlier / fractionLimit - 1) = gap at *
  generalize significandAt (earlier + 1) = significand at *
  have hfineness := fineness_pos
  generalize fineness = unit at *
  by_contra hnarrow
  have hwidth : (2 * gap + 2 * later) * unit ≤ step := by
    rw [Nat.not_lt, hearlier] at hnarrow
    have hsplit : 2 * (magnitudeAt earlier + gap + (magnitudeAt earlier + gap + later)) * unit =
        2 * (magnitudeAt earlier + (magnitudeAt earlier + gap)) * unit +
          (2 * gap + 2 * later) * unit := by ring
    rw [hsplit] at hnarrow
    exact Nat.le_of_add_le_add_left hnarrow
  have hbound : (2 * gap + 2 * later) * 10 ^ 16 ≤ 4 * (significand * later) := by
    refine Nat.le_of_mul_le_mul_right ?_ hfineness
    calc
      (2 * gap + 2 * later) * 10 ^ 16 * unit = (2 * gap + 2 * later) * unit * 10 ^ 16 := by
        ring
      _ ≤ step * 10 ^ 16 := Nat.mul_le_mul_right _ hwidth
      _ ≤ 4 * (significand * later) * unit := by rwa [← hmagnitude]
  rw [fractionLimit_eq] at *
  rcases hgaps with rfl | ⟨rfl, rfl⟩
  · have hle : 10 ^ 16 ≤ significand := by
      refine Nat.le_of_mul_le_mul_right ?_ hgap
      omega
    omega
  · omega

end Neighbourhood

/-! ## The shortest decimal -/

/-- The rational number that a decimal stands for. -/
def Decimal.toRat (d : Decimal) : ℚ := d.coefficient * 10 ^ d.exponent

namespace Binary64

open Neighbourhood (ofBinary64 gridStep)

variable {x : Binary64}

theorem exists_onGrid?_eq_shortest (hzero : x.unsigned ≠ 0) :
    ∃ digits ≤ 17, (ofBinary64 x).onGrid? digits = some x.shortest := by
  obtain ⟨earlier, hearlier⟩ := Nat.exists_eq_succ_of_ne_zero hzero
  have hbetween := Neighbourhood.value_between hearlier
  have hlast := Neighbourhood.onGrid?_isSome hbetween.1 hbetween.2
    (Neighbourhood.low_add_gridStep_lt hearlier)
  have hfound : ((List.range' 1 17).findSome? (ofBinary64 x).onGrid?).isSome := by
    rw [List.findSome?_isSome_iff]
    exact ⟨17, by decide, hlast⟩
  obtain ⟨d, hd⟩ := Option.isSome_iff_exists.1 hfound
  obtain ⟨digits, hdigits, hgrid⟩ := List.exists_of_findSome?_eq_some hd
  refine ⟨digits, ?_, ?_⟩
  · rw [List.mem_range'_1] at hdigits
    omega
  · rw [shortest, hd]
    exact hgrid

theorem toRat_of_onGrid? {d : Decimal} {digits : Nat} (hzero : x.unsigned ≠ 0)
    (hdigits : digits ≤ 17) (hexponent : d.exponent =
      ((ofBinary64 x).wholeDigits : Int) - digits - Neighbourhood.fineDigits) :
    d.toRat = (d.coefficient * (ofBinary64 x).gridStep digits : Nat) /
      (Neighbourhood.unitsOfOne * Neighbourhood.fineness) := by
  obtain ⟨earlier, hearlier⟩ := Nat.exists_eq_succ_of_ne_zero hzero
  have hwhole := Neighbourhood.le_wholeDigits hearlier
  have hpow (n : Nat) : ((Nat.pow 10 n : Nat) : ℚ) = 10 ^ n := Nat.cast_pow 10 n
  have hunits : (Neighbourhood.unitsOfOne : ℚ) ≠ 0 := by
    exact_mod_cast Neighbourhood.unitsOfOne_pos.ne'
  rw [Decimal.toRat, hexponent, gridStep, Neighbourhood.cast_fineness, ← Nat.cast_sub (by omega),
    zpow_sub₀ (by norm_num), zpow_natCast, zpow_natCast, Nat.cast_mul, Nat.cast_mul, hpow]
  field_simp

/-- A finite number that is not zero has a shortest decimal, and this rounds to the number. -/
theorem roundsTo_shortest (hx : x.isNegative = false) (hfinite : x.IsFinite)
    (hzero : x.unsigned ≠ 0) : 0 < x.shortest.coefficient ∧ RoundsTo x.shortest.toRat x := by
  obtain ⟨digits, hdigits, hgrid⟩ := exists_onGrid?_eq_shortest hzero
  obtain ⟨hcontains, hexponent⟩ := Neighbourhood.of_onGrid? hgrid
  constructor
  · apply Nat.pos_of_ne_zero
    intro hcoefficient
    have hlow := (Neighbourhood.contains_iff.1 hcontains).1
    rw [hcoefficient, Nat.zero_mul, Nat.le_zero, Nat.mul_eq_zero] at hlow
    rcases hlow with hlow | hfineness
    · exact (Neighbourhood.low_pos hzero).ne' hlow
    · exact Neighbourhood.fineness_pos.ne' hfineness
  · rw [toRat_of_onGrid? hzero hdigits hexponent]
    exact Neighbourhood.roundsTo_of_contains hx hfinite hzero hcontains

end Binary64

end LoxScan.Number
