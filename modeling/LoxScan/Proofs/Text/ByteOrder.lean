import LoxScan.Text.Basic

/-!
# The order of encoded text

UTF-8 keeps the order of characters: texts compare as their bytes do.  A character with more bytes
has the greater first byte, and of two characters with equally many bytes the greater one has the
greater byte where they first differ.
-/

namespace LoxScan.Text.Utf8

/-- Bytes that come before others whatever follows either of them. -/
def Precedes (s t : List UInt8) : Prop := ∀ x y, s ++ x < t ++ y

theorem precedes_cons {m n : Nat} (hmn : m < n) (hn : n < 256) (s t : List UInt8) :
    Precedes (UInt8.ofNat m :: s) (UInt8.ofNat n :: t) := by
  intro x y
  rw [List.cons_append, List.cons_append, List.cons_lt_cons_iff]
  exact .inl ((UInt8.ofNat_lt_iff_lt (Nat.lt_trans hmn hn) hn).2 hmn)

/-- The bytes of a number: the later ones hold six bits each, and the first one adds a mark to what
is left. -/
def multibyte (base mark : Nat) : Nat → Nat → List UInt8
  | 0, n => [UInt8.ofNat (n % base + mark)]
  | later + 1, n => multibyte base mark later (n / 64) ++ [UInt8.ofNat (n % 64 + 128)]

/-- The first number for which so many later bytes do not suffice. -/
def capacity (base : Nat) : Nat → Nat
  | 0 => base
  | later + 1 => 64 * capacity base later

/-- The last byte decides if all before it agree. -/
theorem precedes_multibyte {base mark later m n : Nat} (hroom : base + mark ≤ 256) (hmn : m < n)
    (hn : n < capacity base later) :
    Precedes (multibyte base mark later m) (multibyte base mark later n) := by
  induction later generalizing m n with
  | zero =>
    rw [capacity] at hn
    rw [multibyte, multibyte, Nat.mod_eq_of_lt hn, Nat.mod_eq_of_lt (Nat.lt_trans hmn hn)]
    exact precedes_cons (by omega) (by omega) [] []
  | succ later ih =>
    have hlater : n / 64 < capacity base later := Nat.div_lt_of_lt_mul hn
    intro x y
    rw [multibyte, multibyte, List.append_assoc, List.append_assoc]
    by_cases hlt : m / 64 < n / 64
    · exact ih hlt hlater _ _
    · have heq : m / 64 = n / 64 := by omega
      rw [heq]
      exact List.append_left_lt (precedes_cons (by omega) (by omega) [] [] x y)

theorem toNat_lt (c : Char) : c.val.toNat < 1114112 := by
  rcases c.valid with h | h
  · exact Nat.lt_trans h (by decide)
  · exact h.2

theorem div_div (n : Nat) : n / 64 / 64 = n / 4096 ∧ n / 64 / 64 / 64 = n / 262144 := by
  rw [Nat.div_div_eq_div_mul, Nat.div_div_eq_div_mul]
  exact ⟨rfl, rfl⟩

/-- A character of several bytes, by their number. -/
theorem multibyte_eq (n : Nat) :
    multibyte 32 192 1 n = [UInt8.ofNat (n / 64 % 32 + 192), UInt8.ofNat (n % 64 + 128)] ∧
      multibyte 16 224 2 n = [UInt8.ofNat (n / 4096 % 16 + 224),
        UInt8.ofNat (n / 64 % 64 + 128), UInt8.ofNat (n % 64 + 128)] ∧
      multibyte 8 240 3 n = [UInt8.ofNat (n / 262144 % 8 + 240),
        UInt8.ofNat (n / 4096 % 64 + 128), UInt8.ofNat (n / 64 % 64 + 128),
        UInt8.ofNat (n % 64 + 128)] := by
  rw [← (div_div n).2, ← (div_div n).1]
  exact ⟨rfl, rfl, rfl⟩

theorem precedes_utf8EncodeChar {c d : Char} (h : c < d) :
    Precedes (String.utf8EncodeChar c) (String.utf8EncodeChar d) := by
  have hlt : c.val.toNat < d.val.toNat := h
  have hd := toNat_lt d
  simp only [String.utf8EncodeChar]
  generalize c.val.toNat = m at *
  generalize d.val.toNat = n at *
  split
  · split
    · exact precedes_cons hlt (by omega) [] []
    all_goals (repeat' split) <;> exact precedes_cons (by omega) (by omega) _ _
  split
  · rw [if_neg (by omega)]
    split
    · rw [← (multibyte_eq m).1, ← (multibyte_eq n).1]
      exact precedes_multibyte (by decide) hlt (show n < 2048 by omega)
    all_goals (repeat' split) <;> exact precedes_cons (by omega) (by omega) _ _
  split
  · rw [if_neg (by omega), if_neg (by omega)]
    split
    · rw [← (multibyte_eq m).2.1, ← (multibyte_eq n).2.1]
      exact precedes_multibyte (by decide) hlt (show n < 65536 by omega)
    · exact precedes_cons (by omega) (by omega) _ _
  · rw [if_neg (by omega), if_neg (by omega), if_neg (by omega), ← (multibyte_eq m).2.2,
      ← (multibyte_eq n).2.2]
    exact precedes_multibyte (by decide) hlt (show n < 2097152 by omega)

theorem encode_lt_encode_of_lt {s t : List Char} (h : s < t) :
    s.flatMap String.utf8EncodeChar < t.flatMap String.utf8EncodeChar := by
  induction s generalizing t with
  | nil =>
    cases t with
    | nil => exact absurd h (List.lt_irrefl [])
    | cons d t =>
      rw [List.flatMap_nil, List.flatMap_cons]
      cases hd : String.utf8EncodeChar d with
      | nil => exact absurd hd String.utf8EncodeChar_ne_nil
      | cons b bytes => exact List.nil_lt_cons b _
  | cons c s ih =>
    cases t with
    | nil => exact absurd h (List.not_lt_nil _)
    | cons d t =>
      rw [List.flatMap_cons, List.flatMap_cons]
      rcases List.cons_lt_cons_iff.1 h with hlt | ⟨rfl, hlt⟩
      · exact precedes_utf8EncodeChar hlt _ _
      · exact List.append_left_lt (ih hlt)

/-- Texts are in the order of their bytes. -/
theorem encode_lt_encode_iff {s t : String} : encode s < encode t ↔ s < t := by
  constructor
  · intro h
    rcases Std.lt_trichotomy s t with hlt | rfl | hgt
    · exact hlt
    · exact absurd h (List.lt_irrefl _)
    · exact absurd (encode_lt_encode_of_lt hgt) (List.lt_asymm h)
  · exact encode_lt_encode_of_lt

end LoxScan.Text.Utf8
