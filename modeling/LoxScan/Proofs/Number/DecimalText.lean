import LoxScan.Number.Shortest
import LoxScan.Proofs.Number.Shortest
import LoxScan.Proofs.Source.Numbers

/-!
# The text of a decimal

Zeros at either end of a row of digits do not change what it denotes, so a decimal stands for its
digits behind a point that is moved to its place.  Written positionally it is a numeral for just
this number.  Whether it is written so depends on its magnitude alone, and for the shortest decimal
of a number on the magnitude of the number.
-/

namespace LoxScan.Number

open Grammar (IsDigitRun Denotes)
open Numeral (digitValue wholeValue fractionValue)

namespace Numeral

theorem fractionValue_append (digits later : List Char) :
    fractionValue (digits ++ later) =
      fractionValue digits + fractionValue later / 10 ^ digits.length := by
  induction digits with
  | nil => simp [fractionValue]
  | cons c digits ih =>
    rw [List.cons_append, fractionValue, fractionValue, ih, List.length_cons, pow_succ]
    field_simp
    ring

theorem fractionValue_of_zeros {digits : List Char} (h : ∀ c ∈ digits, c = '0') :
    fractionValue digits = 0 := by
  induction digits with
  | nil => rfl
  | cons c digits ih =>
    obtain ⟨rfl, hdigits⟩ := List.forall_mem_cons.1 h
    rw [fractionValue, ih hdigits, show digitValue '0' = 0 from rfl, Nat.cast_zero, add_zero,
      zero_div]

theorem fractionValue_zeros (count : Nat) : fractionValue (List.replicate count '0') = 0 :=
  fractionValue_of_zeros fun _ ↦ List.eq_of_mem_replicate

theorem wholeValue_toDigits (n : Nat) : wholeValue (Nat.toDigits 10 n) = n := by
  rw [← cast_ofDigits]
  exact congrArg Nat.cast Nat.ofDigitChars_ten_toDigits

end Numeral

namespace Decimal

variable {d : Decimal}

/-- Only zeros at the end are left out of the digits. -/
theorem toDigits_eq (d : Decimal) :
    ∃ zeros : List Char, (∀ c ∈ zeros, c = '0') ∧
      Nat.toDigits 10 d.coefficient = d.digits ++ zeros := by
  refine ⟨((Nat.toDigits 10 d.coefficient).reverse.takeWhile (· = '0')).reverse, fun c hc ↦ ?_, ?_⟩
  · rw [List.mem_reverse] at hc
    simpa using List.mem_takeWhile_imp hc
  · rw [digits, ← List.reverse_append, List.takeWhile_append_dropWhile, List.reverse_reverse]

theorem isDigit_of_mem_digits {c : Char} (hc : c ∈ d.digits) : c.isDigit := by
  obtain ⟨zeros, -, hdigits⟩ := d.toDigits_eq
  refine Nat.isDigit_of_mem_toDigits (b := 10) (n := d.coefficient) (by decide) (by decide) ?_
  rw [hdigits]
  exact List.mem_append_left _ hc

/-- A decimal stands for its digits with the point moved. -/
theorem fractionValue_digits (d : Decimal) : fractionValue d.digits * 10 ^ d.point = d.toRat := by
  obtain ⟨zeros, hzeros, hdigits⟩ := d.toDigits_eq
  have hvalue := Numeral.wholeValue_toDigits d.coefficient
  have hfraction : fractionValue (Nat.toDigits 10 d.coefficient) = fractionValue d.digits := by
    rw [hdigits, Numeral.fractionValue_append, Numeral.fractionValue_of_zeros hzeros, zero_div,
      add_zero]
  rw [Numeral.wholeValue_eq, hfraction] at hvalue
  rw [toRat, point, zpow_add₀ (by norm_num), zpow_natCast, ← mul_assoc, hvalue]

theorem digits_ne_nil (h : 0 < d.coefficient) : d.digits ≠ [] := by
  intro hnil
  have hvalue := d.fractionValue_digits
  rw [hnil, fractionValue, zero_mul, toRat, eq_comm, mul_eq_zero, Nat.cast_eq_zero] at hvalue
  rcases hvalue with hzero | hpow
  · exact h.ne' hzero
  · exact zpow_ne_zero _ (by norm_num) hpow

/-- Digits behind the point, of which there is always one. -/
def fractionOrZero (fraction : List Char) : List Char :=
  if fraction.isEmpty then ['0'] else fraction

theorem isDigitRun_fractionOrZero {fraction : List Char} (h : ∀ c ∈ fraction, c.isDigit) :
    IsDigitRun (fractionOrZero fraction) := by
  rw [fractionOrZero]
  split
  · exact ⟨by simp, by simp⟩
  · next hne => exact ⟨by simpa using hne, h⟩

theorem fractionValue_fractionOrZero (fraction : List Char) :
    fractionValue (fractionOrZero fraction) = fractionValue fraction := by
  rw [fractionOrZero]
  split
  · next hempty =>
    rw [List.isEmpty_iff.1 hempty]
    exact Numeral.fractionValue_zeros 1
  · rfl

/-- Zeros fill the place between the point and the digits behind it. -/
theorem positional_of_nonpos {digits : List Char} {point : Int} (h : point ≤ 0) :
    positional digits point =
      ['0'] ++ '.' :: fractionOrZero (List.replicate (-point).toNat '0' ++ digits) := by
  rw [positional, if_pos h, Int.toNat_of_nonpos h]
  rfl

/-- Zeros fill the place between the digits and the point behind them. -/
theorem positional_of_pos {digits : List Char} {point : Int} (h : 0 < point) :
    positional digits point =
      (digits.take point.toNat ++ List.replicate (point.toNat - digits.length) '0') ++
        '.' :: fractionOrZero (digits.drop point.toNat) := by
  rw [positional, if_neg (not_le.2 h), Int.toNat_of_nonpos (show -point ≤ 0 by omega)]
  rfl

theorem isDigit_of_mem_zeros {count : Nat} {c : Char} (hc : c ∈ List.replicate count '0') :
    c.isDigit := by
  rw [List.eq_of_mem_replicate hc]
  rfl

/-- The digits in front of the point, which is a number of places behind their beginning. -/
def wholeDigits (digits : List Char) (places : Nat) : List Char :=
  digits.take places ++ List.replicate (places - digits.length) '0'

theorem length_wholeDigits (digits : List Char) (places : Nat) :
    (wholeDigits digits places).length = places := by
  rw [wholeDigits, List.length_append, List.length_take, List.length_replicate]
  omega

/-- Cutting digits at the point changes nothing but the place of the point. -/
theorem wholeValue_wholeDigits (digits : List Char) (places : Nat) :
    wholeValue (wholeDigits digits places) + fractionValue (digits.drop places) =
      fractionValue digits * 10 ^ places := by
  have hrow : fractionValue (wholeDigits digits places ++ digits.drop places) =
      fractionValue digits := by
    rcases Nat.le_total places digits.length with hle | hle
    · rw [wholeDigits, Nat.sub_eq_zero_of_le hle, List.replicate_zero, List.append_nil,
        List.take_append_drop]
    · rw [wholeDigits, List.take_of_length_le hle, List.drop_eq_nil_of_le hle, List.append_nil,
        Numeral.fractionValue_append, Numeral.fractionValue_zeros, zero_div, add_zero]
  rw [Numeral.fractionValue_append, length_wholeDigits] at hrow
  rw [Numeral.wholeValue_eq, length_wholeDigits, ← hrow]
  field_simp

/-- Digits in positional form are a numeral for what they denote with the point moved. -/
theorem exists_positional {digits : List Char} (hdigits : ∀ c ∈ digits, c.isDigit) (point : Int) :
    ∃ whole fraction, IsDigitRun whole ∧ IsDigitRun fraction ∧
      positional digits point = whole ++ '.' :: fraction ∧
      wholeValue whole + fractionValue fraction = fractionValue digits * 10 ^ point := by
  rcases lt_or_ge 0 point with hpos | hle
  · obtain ⟨places, rfl⟩ := Int.eq_ofNat_of_zero_le hpos.le
    refine ⟨wholeDigits digits places, fractionOrZero (digits.drop places), ⟨?_, ?_⟩,
      isDigitRun_fractionOrZero fun c hc ↦ hdigits c (List.mem_of_mem_drop hc),
      positional_of_pos hpos, ?_⟩
    · rw [← List.length_pos_iff, length_wholeDigits]
      exact_mod_cast hpos
    · rw [wholeDigits, List.forall_mem_append]
      exact ⟨fun c hc ↦ hdigits c (List.mem_of_mem_take hc), fun c ↦ isDigit_of_mem_zeros⟩
    · rw [fractionValue_fractionOrZero, wholeValue_wholeDigits, zpow_natCast]
  · obtain ⟨places, rfl⟩ := Int.exists_eq_neg_ofNat hle
    refine ⟨['0'], fractionOrZero (List.replicate places '0' ++ digits),
      ⟨List.cons_ne_nil _ _, List.forall_mem_singleton.2 rfl⟩, isDigitRun_fractionOrZero ?_, ?_, ?_⟩
    · rw [List.forall_mem_append]
      exact ⟨fun c ↦ isDigit_of_mem_zeros, hdigits⟩
    · rw [positional_of_nonpos hle, neg_neg]
      rfl
    · have hzero : wholeValue ['0'] = 0 := by simpa using Numeral.wholeValue_toDigits 0
      rw [fractionValue_fractionOrZero, Numeral.fractionValue_append, Numeral.fractionValue_zeros,
        List.length_replicate, hzero, zpow_neg, zpow_natCast, zero_add, zero_add, div_eq_mul_inv]

/-- The place of the point tells the magnitude up to a factor of ten. -/
theorem toRat_bounds (h : 0 < d.coefficient) :
    10 ^ (d.point - 1) ≤ d.toRat ∧ d.toRat < 10 ^ d.point := by
  have hlow := Neighbourhood.pow_le_of_length_toDigits h
  have hhigh := Neighbourhood.lt_pow_length_toDigits d.coefficient
  have hpos : 0 < (Nat.toDigits 10 d.coefficient).length := Nat.length_toDigits_pos
  have hscale : (0 : ℚ) < 10 ^ d.exponent := zpow_pos (by norm_num) _
  rw [point, toRat]
  generalize (Nat.toDigits 10 d.coefficient).length = length at *
  rw [show (length : Int) + d.exponent - 1 = (length - 1 : Nat) + d.exponent by omega,
    zpow_add₀ (by norm_num), zpow_add₀ (by norm_num), zpow_natCast, zpow_natCast]
  constructor
  · refine mul_le_mul_of_nonneg_right ?_ hscale.le
    exact_mod_cast hlow
  · refine mul_lt_mul_of_pos_right ?_ hscale
    exact_mod_cast hhigh

theorem point_le_iff (h : 0 < d.coefficient) (places : Int) :
    d.point ≤ places ↔ d.toRat < 10 ^ places := by
  obtain ⟨hlow, hhigh⟩ := toRat_bounds h
  constructor
  · intro hle
    exact hhigh.trans_le (zpow_le_zpow_right₀ (by norm_num) hle)
  · intro hlt
    have hpow := (zpow_lt_zpow_iff_right₀ (by norm_num)).1 (hlow.trans_lt hlt)
    omega

end Decimal

namespace Binary64

variable {q r : ℚ} {x y : Binary64}

theorem RoundsTo.toRat_le (hq : 0 ≤ q) (hle : q ≤ r) (hx : RoundsTo q x) (hy : RoundsTo r y)
    (hxfinite : x.IsFinite) (hyfinite : y.IsFinite) : x.toRat ≤ y.toRat := by
  have h := hx.extended_le hq hle hy
  rw [extended, extended, (isFinite_iff_of_isNaN hx.isNaN).1 hxfinite,
    (isFinite_iff_of_isNaN hy.isNaN).1 hyfinite] at h
  exact WithTop.coe_le_coe.1 h

theorem eq_of_toRat_eq (hx : x.isNegative = false) (hy : y.isNegative = false)
    (h : x.toRat = y.toRat) : x = y := by
  rw [toRat_of_not_isNegative hx, toRat_of_not_isNegative hy,
    div_left_inj' (pow_pos two_pos 1074).ne', Nat.cast_inj] at h
  exact eq_of_unsigned_eq hx hy (strictMono_magnitudeAt.injective h)

/-- A bound that rounds up divides the numbers as it divides what rounds to them, if the number that
it rounds to stays on its side. -/
theorem RoundsTo.le_toRat_iff {bound : ℚ} (hbound : 0 ≤ bound) (hy : RoundsTo bound y)
    (hyfinite : y.IsFinite) (hup : bound ≤ y.toRat) (hx : RoundsTo q x) (hxfinite : x.IsFinite)
    (hq : 0 ≤ q) (hsame : x = y → bound ≤ q) : bound ≤ x.toRat ↔ bound ≤ q := by
  constructor
  · intro hle
    by_contra hlt
    have hbelow := hx.toRat_le hq (not_le.1 hlt).le hy hxfinite hyfinite
    have hnear := hy.nearest hyfinite x hxfinite
    rw [abs_of_nonneg (by linarith), abs_of_nonneg (by linarith)] at hnear
    exact hlt (hsame (eq_of_toRat_eq hx.isNegative hy.isNegative (by linarith)))
  · intro hle
    exact hup.trans (hy.toRat_le hbound hle hx hyfinite hxfinite)

/-- The least number that is shown positionally, and the least one that is too large for it. -/
def positionalFirst : Binary64 := ⟨0x3F1A36E2EB1C432D⟩

def positionalEnd : Binary64 := ⟨0x4341C37937E08000⟩

theorem roundsTo_positionalFirst : RoundsTo (1 / 10 ^ 4) positionalFirst := by
  have h := roundsTo_ofRatio 1 (d := 10 ^ 4) (by decide)
  rw [show ofRatio 1 (10 ^ 4) = positionalFirst by decide +kernel] at h
  exact_mod_cast h

theorem roundsTo_positionalEnd : RoundsTo (10 ^ 16) positionalEnd := by
  have h := roundsTo_ofRatio (10 ^ 16) (d := 1) (by decide)
  rw [show ofRatio (10 ^ 16) 1 = positionalEnd by decide +kernel, Nat.cast_one, div_one] at h
  exact_mod_cast h

/-- The form in which the shortest decimal is shown depends on the magnitude of the number. -/
theorem shortest_point_iff (hx : x.isNegative = false) (hfinite : x.IsFinite)
    (hzero : x.unsigned ≠ 0) :
    -3 ≤ x.shortest.point ∧ x.shortest.point ≤ 16 ↔ 1 / 10 ^ 4 ≤ x.toRat ∧ x.toRat < 10 ^ 16 := by
  obtain ⟨hpos, hround⟩ := roundsTo_shortest hx hfinite hzero
  have hnonneg : 0 ≤ x.shortest.toRat :=
    mul_nonneg (Nat.cast_nonneg _) (zpow_nonneg (by norm_num) _)
  have hfirst := roundsTo_positionalFirst.le_toRat_iff (by norm_num) (by unfold IsFinite; decide)
    (by decide +kernel) hround hfinite hnonneg (fun h ↦ by
      rw [h, show positionalFirst.shortest = ⟨1, -4⟩ by decide +kernel]
      norm_num [Decimal.toRat])
  have hend := roundsTo_positionalEnd.le_toRat_iff (by norm_num) (by unfold IsFinite; decide)
    (by decide +kernel) hround hfinite hnonneg (fun h ↦ by
      rw [h, show positionalEnd.shortest = ⟨1, 16⟩ by decide +kernel]
      norm_num [Decimal.toRat])
  have hleast : -3 ≤ x.shortest.point ↔ 1 / 10 ^ 4 ≤ x.shortest.toRat := by
    have hpoint := (Decimal.point_le_iff hpos (-4)).not
    rw [not_le, not_lt] at hpoint
    rw [show (1 / 10 ^ 4 : ℚ) = 10 ^ (-4 : ℤ) by norm_num, ← hpoint]
    omega
  have hgreatest : x.shortest.point ≤ 16 ↔ x.shortest.toRat < 10 ^ 16 :=
    Decimal.point_le_iff hpos 16
  rw [hleast, hgreatest, hfirst, ← not_le, ← not_le, hend]

end Binary64

end LoxScan.Number
