import LoxScan.Text.Basic

/-!
# Encoded text reads back

The bytes of a character are read as that character, whatever comes after them: its first byte
leaves exactly the bits and the range pending that its later bytes complete.  So decoding undoes
encoding, and strict and lossy decoding agree on encoded text.
-/

namespace LoxScan.Text.Utf8

/-- A later byte within its range adds six bits. -/
theorem take_trail {bits least greatest later n : Nat} (hn : n < 64) (hg : greatest < 256)
    (hl : least ≤ n + 128) (hgr : n + 128 ≤ greatest) :
    (Pending.mk bits (UInt8.ofNat least) (UInt8.ofNat greatest) later).take
      (UInt8.ofNat (n + 128)) =
      match later with
      | 0 => .complete (Char.ofNat (bits * 64 + n))
      | later + 1 => .awaiting ⟨bits * 64 + n, 0x80, 0xBF, later⟩ := by
  have h1 : (UInt8.ofNat (n + 128)).toNat = n + 128 := by
    rw [UInt8.toNat_ofNat']; omega
  have h2 : (UInt8.ofNat least).toNat = least := by rw [UInt8.toNat_ofNat']; omega
  have h3 : (UInt8.ofNat greatest).toNat = greatest := by rw [UInt8.toNat_ofNat']; omega
  have hin : UInt8.ofNat least ≤ UInt8.ofNat (n + 128) ∧
      UInt8.ofNat (n + 128) ≤ UInt8.ofNat greatest := by
    rw [UInt8.le_iff_toNat_le, UInt8.le_iff_toNat_le, h1, h2, h3]
    exact ⟨hl, hgr⟩
  cases later with
  | zero => rw [Pending.take, if_pos hin, h1, Nat.add_sub_cancel]
  | succ later => rw [Pending.take, if_pos hin, h1, Nat.add_sub_cancel]

theorem start_of_toNat {b : UInt8} {n : Nat} (hb : b.toNat = n) :
    start b =
      if n < 0x80 then .complete (Char.ofNat n)
      else if n < 0xC2 then .malformed
      else if n < 0xE0 then .awaiting ⟨n - 0xC0, 0x80, 0xBF, 0⟩
      else if n = 0xE0 then .awaiting ⟨0, 0xA0, 0xBF, 1⟩
      else if n = 0xED then .awaiting ⟨0xD, 0x80, 0x9F, 1⟩
      else if n < 0xF0 then .awaiting ⟨n - 0xE0, 0x80, 0xBF, 1⟩
      else if n = 0xF0 then .awaiting ⟨0, 0x90, 0xBF, 2⟩
      else if n < 0xF4 then .awaiting ⟨n - 0xF0, 0x80, 0xBF, 2⟩
      else if n = 0xF4 then .awaiting ⟨4, 0x80, 0x8F, 2⟩
      else .malformed := by
  subst hb
  simp only [start, UInt8.lt_iff_toNat_lt, ← UInt8.toNat_inj, UInt8.toNat_ofNat]

theorem piecesFrom_start {b : UInt8} {p : Pending} (h : start b = .awaiting p)
    (bytes : List UInt8) : piecesFrom none (b :: bytes) = piecesFrom (some p) bytes := by
  simp [piecesFrom, advance, h]

theorem piecesFrom_awaiting {b : UInt8} {p q : Pending} (h : p.take b = .awaiting q)
    (bytes : List UInt8) : piecesFrom (some p) (b :: bytes) = piecesFrom (some q) bytes := by
  simp [piecesFrom, advance, h]

theorem piecesFrom_complete {b : UInt8} {p : Pending} {c : Char} (h : p.take b = .complete c)
    (bytes : List UInt8) :
    piecesFrom (some p) (b :: bytes) = some c :: piecesFrom none bytes := by
  simp [piecesFrom, advance, h]

theorem ofNat_eq_of_toNat_eq {c : Char} {n : Nat} (h : c.toNat = n) : Char.ofNat n = c := by
  rw [← h, Char.ofNat_toNat]

theorem piecesFrom_last {c : Char} {bits least greatest a : Nat} (ha : a < 64)
    (hg : greatest < 256) (hl : least ≤ a + 128) (hag : a + 128 ≤ greatest)
    (hc : c.toNat = bits * 64 + a) (bytes : List UInt8) :
    piecesFrom (some ⟨bits, UInt8.ofNat least, UInt8.ofNat greatest, 0⟩)
      (UInt8.ofNat (a + 128) :: bytes) = some c :: piecesFrom none bytes := by
  refine piecesFrom_complete ?_ bytes
  rw [take_trail ha hg hl hag]
  simp only [ofNat_eq_of_toNat_eq hc]

theorem piecesFrom_next {bits least greatest later a : Nat} (ha : a < 64) (hg : greatest < 256)
    (hl : least ≤ a + 128) (hag : a + 128 ≤ greatest) (bytes : List UInt8) :
    piecesFrom (some ⟨bits, UInt8.ofNat least, UInt8.ofNat greatest, later + 1⟩)
      (UInt8.ofNat (a + 128) :: bytes) =
    piecesFrom (some ⟨bits * 64 + a, 0x80, 0xBF, later⟩) bytes := by
  refine piecesFrom_awaiting ?_ bytes
  rw [take_trail ha hg hl hag]

/-- The bytes of one character are read as that character, whatever follows. -/
theorem piecesFrom_encodeChar (c : Char) (bytes : List UInt8) :
    piecesFrom none (String.utf8EncodeChar c ++ bytes) = some c :: piecesFrom none bytes := by
  have hvalid : c.toNat < 55296 ∨ 57343 < c.toNat ∧ c.toNat < 1114112 := c.valid
  have hlead {n : Nat} (h : n < 256) : (UInt8.ofNat n).toNat = n := by
    rw [UInt8.toNat_ofNat']; omega
  unfold String.utf8EncodeChar
  change piecesFrom none ((if c.toNat ≤ 127 then _ else if c.toNat ≤ 2047 then _
    else if c.toNat ≤ 65535 then _ else _) ++ bytes) = _
  generalize hn : c.toNat = n at *
  split
  · next h =>
    have hstart : start (UInt8.ofNat n) = .complete c := by
      rw [start_of_toNat (hlead (by omega)), if_pos (by omega), ofNat_eq_of_toNat_eq hn]
    change piecesFrom none (UInt8.ofNat c.toNat :: bytes) = _
    rw [hn]
    simp [piecesFrom, advance, hstart]
  split
  · next h1 h2 =>
    have hstart : start (UInt8.ofNat (n / 64 % 32 + 192)) = .awaiting ⟨n / 64, 0x80, 0xBF, 0⟩ := by
      rw [start_of_toNat (hlead (by omega)), if_neg (by omega), if_neg (by omega),
        if_pos (by omega), show n / 64 % 32 + 192 - 0xC0 = n / 64 by omega]
    change piecesFrom none (UInt8.ofNat (c.toNat / 64 % 32 + 192) ::
      UInt8.ofNat (c.toNat % 64 + 128) :: bytes) = _
    rw [hn, piecesFrom_start hstart]
    exact @piecesFrom_last c (n / 64) 0x80 0xBF (n % 64) (by omega) (by omega) (by omega)
      (by omega) (by omega) bytes
  split
  · next h1 h2 h3 =>
    change piecesFrom none (UInt8.ofNat (c.toNat / 4096 % 16 + 224) ::
      UInt8.ofNat (c.toNat / 64 % 64 + 128) :: UInt8.ofNat (c.toNat % 64 + 128) :: bytes) = _
    rw [hn]
    have hrest {least greatest : Nat} (hg : greatest < 256) (hl : least ≤ n / 64 % 64 + 128)
        (hu : n / 64 % 64 + 128 ≤ greatest) :
        piecesFrom (some ⟨n / 4096, UInt8.ofNat least, UInt8.ofNat greatest, 1⟩)
          (UInt8.ofNat (n / 64 % 64 + 128) :: UInt8.ofNat (n % 64 + 128) :: bytes) =
        some c :: piecesFrom none bytes := by
      rw [piecesFrom_next (by omega) hg hl hu]
      exact @piecesFrom_last c (n / 4096 * 64 + n / 64 % 64) 0x80 0xBF (n % 64) (by omega)
        (by omega) (by omega) (by omega) (by omega) bytes
    have hstart := start_of_toNat (hlead (n := n / 4096 % 16 + 224) (by omega))
    rw [if_neg (by omega), if_neg (by omega), if_neg (by omega)] at hstart
    by_cases hlow : n / 4096 = 0
    · rw [if_pos (by omega), ← hlow] at hstart
      rw [piecesFrom_start hstart]
      exact @hrest 0xA0 0xBF (by omega) (by omega) (by omega)
    by_cases hsurrogate : n / 4096 = 13
    · rw [if_neg (by omega), if_pos (by omega), ← hsurrogate] at hstart
      rw [piecesFrom_start hstart]
      exact @hrest 0x80 0x9F (by omega) (by omega) (by omega)
    · rw [if_neg (by omega), if_neg (by omega), if_pos (by omega),
        show n / 4096 % 16 + 224 - 0xE0 = n / 4096 by omega] at hstart
      rw [piecesFrom_start hstart]
      exact @hrest 0x80 0xBF (by omega) (by omega) (by omega)
  · next h1 h2 h3 =>
    change piecesFrom none (UInt8.ofNat (c.toNat / 262144 % 8 + 240) ::
      UInt8.ofNat (c.toNat / 4096 % 64 + 128) :: UInt8.ofNat (c.toNat / 64 % 64 + 128) ::
      UInt8.ofNat (c.toNat % 64 + 128) :: bytes) = _
    rw [hn]
    have hrest {least greatest : Nat} (hg : greatest < 256) (hl : least ≤ n / 4096 % 64 + 128)
        (hu : n / 4096 % 64 + 128 ≤ greatest) :
        piecesFrom (some ⟨n / 262144, UInt8.ofNat least, UInt8.ofNat greatest, 2⟩)
          (UInt8.ofNat (n / 4096 % 64 + 128) :: UInt8.ofNat (n / 64 % 64 + 128) ::
            UInt8.ofNat (n % 64 + 128) :: bytes) =
        some c :: piecesFrom none bytes := by
      rw [piecesFrom_next (by omega) hg hl hu]
      refine (@piecesFrom_next _ 0x80 0xBF 0 (n / 64 % 64) (by omega) (by omega) (by omega)
        (by omega) _).trans ?_
      exact @piecesFrom_last c ((n / 262144 * 64 + n / 4096 % 64) * 64 + n / 64 % 64) 0x80 0xBF
        (n % 64) (by omega) (by omega) (by omega) (by omega) (by omega) bytes
    have hstart := start_of_toNat (hlead (n := n / 262144 % 8 + 240) (by omega))
    rw [if_neg (by omega), if_neg (by omega), if_neg (by omega), if_neg (by omega),
      if_neg (by omega), if_neg (by omega)] at hstart
    by_cases hlow : n / 262144 = 0
    · rw [if_pos (by omega), ← hlow] at hstart
      rw [piecesFrom_start hstart]
      exact @hrest 0x90 0xBF (by omega) (by omega) (by omega)
    by_cases hhigh : n / 262144 = 4
    · rw [if_neg (by omega), if_neg (by omega), if_pos (by omega), ← hhigh] at hstart
      rw [piecesFrom_start hstart]
      exact @hrest 0x80 0x8F (by omega) (by omega) (by omega)
    · rw [if_neg (by omega), if_pos (by omega),
        show n / 262144 % 8 + 240 - 0xF0 = n / 262144 by omega] at hstart
      rw [piecesFrom_start hstart]
      exact @hrest 0x80 0xBF (by omega) (by omega) (by omega)

theorem mapM_some {α : Type} (items : List α) : items.mapM some = some items := by
  induction items with
  | nil => rfl
  | cons item items ih => simp_all [List.mapM_cons]

/-- Encoded text has no malformed pieces. -/
theorem pieces_encode (text : String) : pieces (encode text) = text.toList.map some := by
  unfold pieces encode
  induction text.toList with
  | nil => rfl
  | cons c cs ih => rw [List.flatMap_cons, piecesFrom_encodeChar, ih, List.map_cons]

@[simp] theorem decode?_encode (text : String) : decode? (encode text) = some text := by
  simp [decode?, pieces_encode, mapM_some]

@[simp] theorem decodeLossy_encode (text : String) : decodeLossy (encode text) = text := by
  simp [decodeLossy, pieces_encode, Function.comp_def]

end LoxScan.Text.Utf8
