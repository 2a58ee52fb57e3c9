import LoxScan.Number.Binary64
import LoxScan.Proofs.Number.Rounding
import LoxScan.Proofs.Source.Segmentation

/-!
# Number literals

The lexeme of a number denotes a rational number by the places of its digits, of which there may be
any number in front of the point and behind it.  The literal of the token is what this number
rounds to, so it depends on the denoted number alone.
-/

namespace LoxScan

namespace Number.Numeral

/-- What digits in front of a point denote. -/
def wholeValue : List Char → ℚ
  | [] => 0
  | c :: digits => digitValue c * 10 ^ digits.length + wholeValue digits

/-- What digits behind a point denote. -/
def fractionValue : List Char → ℚ
  | [] => 0
  | c :: digits => (digitValue c + fractionValue digits) / 10

theorem wholeValue_nonneg (digits : List Char) : 0 ≤ wholeValue digits := by
  induction digits with
  | nil => exact le_rfl
  | cons c digits ih => exact add_nonneg (by positivity) ih

theorem fractionValue_nonneg (digits : List Char) : 0 ≤ fractionValue digits := by
  induction digits with
  | nil => exact le_rfl
  | cons c digits ih => exact div_nonneg (add_nonneg (Nat.cast_nonneg _) ih) (by norm_num)

theorem wholeValue_append (digits later : List Char) :
    wholeValue (digits ++ later) = wholeValue digits * 10 ^ later.length + wholeValue later := by
  induction digits with
  | nil => rw [List.nil_append, wholeValue, zero_mul, zero_add]
  | cons c digits ih =>
    rw [List.cons_append, wholeValue, wholeValue, ih, List.length_append, pow_add]
    ring

theorem wholeValue_eq (digits : List Char) :
    wholeValue digits = fractionValue digits * 10 ^ digits.length := by
  induction digits with
  | nil => rw [wholeValue, fractionValue, zero_mul]
  | cons c digits ih =>
    rw [wholeValue, fractionValue, ih, List.length_cons, pow_succ]
    ring

theorem cast_foldl_digits (digits : List Char) (n : Nat) :
    ((digits.foldl (fun n c ↦ 10 * n + digitValue c) n : Nat) : ℚ) =
      n * 10 ^ digits.length + wholeValue digits := by
  induction digits generalizing n with
  | nil => rw [List.foldl_nil, wholeValue, List.length_nil, pow_zero, mul_one, add_zero]
  | cons c digits ih =>
    rw [List.foldl_cons, ih, wholeValue, List.length_cons, pow_succ]
    push_cast
    ring

theorem cast_ofDigits (digits : List Char) : (ofDigits digits : ℚ) = wholeValue digits := by
  rw [ofDigits, cast_foldl_digits, Nat.cast_zero, zero_mul, zero_add]

/-- The quotient that a numeral is rounded from is what it denotes. -/
theorem numerator_div_denominator (n : Numeral) :
    (n.numerator : ℚ) / n.denominator = wholeValue n.whole + fractionValue n.fractionDigits := by
  have hpow : ((Nat.pow 10 n.fractionDigits.length : Nat) : ℚ) = 10 ^ n.fractionDigits.length :=
    Nat.cast_pow 10 _
  have hne : (10 : ℚ) ^ n.fractionDigits.length ≠ 0 := by positivity
  rw [numerator, denominator, cast_ofDigits, hpow, wholeValue_append,
    wholeValue_eq n.fractionDigits, ← add_mul, mul_div_cancel_right₀ _ hne]

theorem roundsTo_value (n : Numeral) :
    Binary64.RoundsTo (wholeValue n.whole + fractionValue n.fractionDigits) n.value := by
  rw [← numerator_div_denominator]
  exact Binary64.roundsTo_ofRatio _ (Nat.pow_pos (by decide))

end Number.Numeral

namespace Grammar

open Number
open Number.Numeral (wholeValue fractionValue)
open Number.Binary64 (RoundsTo)

/-- The rational number that the lexeme of a number denotes: a run of digits, or two runs with a
point between them. -/
inductive Denotes : List Char → ℚ → Prop where
  | integer {whole : List Char} (hwhole : IsDigitRun whole) : Denotes whole (wholeValue whole)
  | decimal {whole fraction : List Char} (hwhole : IsDigitRun whole)
      (hfraction : IsDigitRun fraction) :
      Denotes (whole ++ '.' :: fraction) (wholeValue whole + fractionValue fraction)

theorem Denotes.nonneg {text : List Char} {q : ℚ} (h : Denotes text q) : 0 ≤ q := by
  cases h with
  | integer => exact Numeral.wholeValue_nonneg _
  | decimal =>
    exact add_nonneg (Numeral.wholeValue_nonneg _) (Numeral.fractionValue_nonneg _)

/-- What denotes a number spells the number that it rounds to. -/
theorem Denotes.exists_spells {text : List Char} {q : ℚ} (h : Denotes text q) :
    ∃ x, Spells .number (some (.number x)) text ∧ RoundsTo q x := by
  cases h with
  | integer hwhole =>
    have hround := Numeral.roundsTo_value ⟨text, none⟩
    rw [Numeral.fractionDigits, Option.getD_none, fractionValue, add_zero] at hround
    exact ⟨_, .integer hwhole, hround⟩
  | @decimal whole fraction hwhole hfraction =>
    exact ⟨_, .decimal hwhole hfraction, Numeral.roundsTo_value ⟨whole, some fraction⟩⟩

theorem Spells.exists_denotes {literal : Option Literal} {text : List Char}
    (h : Spells .number literal text) : ∃ q, Denotes text q := by
  cases h with
  | integer hwhole => exact ⟨_, .integer hwhole⟩
  | decimal hwhole hfraction => exact ⟨_, .decimal hwhole hfraction⟩

/-- Every token but the last spells its value. -/
theorem spells_or_ends_of_mem_tokens {source : String} {t : Token}
    (ht : t ∈ (Scan.ofText source).tokens) :
    Spells t.kind t.literal t.lexeme.toList ∨ t.kind = .endOfText ∧ t.literal = none := by
  rw [tokens_ofText, List.mem_append, List.mem_singleton] at ht
  rcases ht with ht | rfl
  · exact .inl (spells_of_mem_tokensAfter ht)
  · exact .inr ⟨rfl, rfl⟩

/-- The literal of a token whose lexeme denotes a number is what this rounds to. -/
theorem roundsTo_of_denotes {source : String} {t : Token} (ht : t ∈ (Scan.ofText source).tokens)
    {q : ℚ} (hq : Denotes t.lexeme.toList q) {x : Binary64} (hx : t.literal = some (.number x)) :
    RoundsTo q x := by
  obtain ⟨y, hnumber, hround⟩ := hq.exists_spells
  rcases spells_or_ends_of_mem_tokens ht with hspells | ⟨-, hnone⟩
  · have hliteral := (hnumber.unique hspells).2
    rw [hx, Option.some_inj, Literal.number.injEq] at hliteral
    rwa [← hliteral]
  · rw [hx] at hnone
    cases hnone

/-- The lexeme of a number denotes a rational number, and the literal is the one number that this
rounds to.  So numbers that denote the same have the same pattern, wherever they stand, and one
that denotes more is not smaller. -/
theorem literal_of_number {source : String} {t : Token} (ht : t ∈ (Scan.ofText source).tokens)
    (hkind : t.kind = .number) :
    ∃ (q : ℚ) (x : Binary64), Denotes t.lexeme.toList q ∧ t.literal = some (.number x) ∧
      (∀ y, RoundsTo q y ↔ y = x) ∧
      ∀ (other : String), ∀ u ∈ (Scan.ofText other).tokens, ∀ (r : ℚ) (y : Binary64),
        Denotes u.lexeme.toList r → u.literal = some (.number y) →
          (r = q → y.bits = x.bits) ∧ (q ≤ r → x.extended ≤ y.extended) := by
  have hspells : Spells .number t.literal t.lexeme.toList := by
    rcases spells_or_ends_of_mem_tokens ht with hspells | ⟨hend, -⟩
    · rwa [hkind] at hspells
    · rw [hkind] at hend
      cases hend
  obtain ⟨q, hq⟩ := hspells.exists_denotes
  obtain ⟨x, hnumber, hround⟩ := hq.exists_spells
  refine ⟨q, x, hq, (hspells.unique hnumber).2, fun y ↦ ⟨fun hy ↦ ?_, fun hy ↦ ?_⟩, ?_⟩
  · exact hy.unique hq.nonneg hround
  · rw [hy]
    exact hround
  · intro other u hu r y hr hy
    have hother := roundsTo_of_denotes hu hr hy
    refine ⟨fun heq ↦ ?_, fun hle ↦ hround.extended_le hq.nonneg hle hother⟩
    rw [heq] at hother
    rw [hother.unique hq.nonneg hround]

/-- One and half of a step lies halfway between two numbers, of which one itself is even. -/
theorem literal_of_number_halfway :
    ∃ q, Denotes "1.00000000000000011102230246251565404236316680908203125".toList q ∧
      ∀ y, RoundsTo q y ↔ y = ⟨0x3FF0000000000000⟩ := by
  let lexeme := "1.00000000000000011102230246251565404236316680908203125"
  let t : Token := ⟨.number, lexeme, some (.number ⟨0x3FF0000000000000⟩), 1⟩
  have ht : t ∈ (Scan.ofText lexeme).tokens := by decide +kernel
  obtain ⟨q, x, hq, hliteral, hround, -⟩ := literal_of_number ht rfl
  cases hliteral
  exact ⟨q, hq, hround⟩

end Grammar

end LoxScan
