import Mathlib.Algebra.Group.Nat.Defs
import LoxScan.Text.RoundTrip

/-!
# Well-formed bytes

Decoding accepts nothing but encoded text.  The bytes of a character that have been read fix its
leading bits, and the range of the next byte leaves only numbers that are characters and that are
encoded by just these bytes, so what a complete character was read from is its encoding.
-/

namespace LoxScan.Text.Utf8

theorem toNat_ofNat {n : Nat} (h : n.isValidChar) : (Char.ofNat n).toNat = n := by
  rw [Char.ofNat, dif_pos h]
  rfl

/-- The number of a character with its bytes. -/
def Encodes (n : Nat) (bytes : List UInt8) : Prop :=
  n.isValidChar ∧ String.utf8EncodeChar (Char.ofNat n) = bytes

/-- The last bytes of a number, with six bits each. -/
def trail (n : Nat) : Nat → List UInt8
  | 0 => []
  | later + 1 => UInt8.ofNat (n / 64 ^ later % 64 + 128) :: trail n later

theorem encodes_one {n : Nat} (h : n < 0x80) : Encodes n [UInt8.ofNat n] := by
  have hvalid : n.isValidChar := .inl (by omega)
  refine ⟨hvalid, ?_⟩
  have hnat : (Char.ofNat n).val.toNat = n := toNat_ofNat hvalid
  simp only [String.utf8EncodeChar, hnat]
  rw [if_pos (by omega)]

theorem encodes_two {m n : Nat} (hm : n / 64 + 0xC0 = m) (hleast : 0x80 ≤ n)
    (hgreatest : n < 0x800) : Encodes n (UInt8.ofNat m :: trail n 1) := by
  have hvalid : n.isValidChar := .inl (by omega)
  refine ⟨hvalid, ?_⟩
  have hnat : (Char.ofNat n).val.toNat = n := toNat_ofNat hvalid
  simp only [String.utf8EncodeChar, hnat, trail]
  rw [if_neg (by omega), if_pos (by omega), Nat.mod_eq_of_lt (show n / 64 < 32 by omega), hm]
  simp

theorem encodes_three {m n : Nat} (hm : n / 4096 + 0xE0 = m) (hleast : 0x800 ≤ n)
    (hgreatest : n < 0x10000) (hvalid : n.isValidChar) :
    Encodes n (UInt8.ofNat m :: trail n 2) := by
  refine ⟨hvalid, ?_⟩
  have hnat : (Char.ofNat n).val.toNat = n := toNat_ofNat hvalid
  simp only [String.utf8EncodeChar, hnat, trail]
  rw [if_neg (by omega), if_neg (by omega), if_pos (by omega),
    Nat.mod_eq_of_lt (show n / 4096 < 16 by omega), hm]
  simp

theorem encodes_four {m n : Nat} (hm : n / 262144 + 0xF0 = m) (hleast : 0x10000 ≤ n)
    (hgreatest : n < 0x110000) : Encodes n (UInt8.ofNat m :: trail n 3) := by
  have hvalid : n.isValidChar := .inr ⟨by omega, hgreatest⟩
  refine ⟨hvalid, ?_⟩
  have hnat : (Char.ofNat n).val.toNat = n := toNat_ofNat hvalid
  simp only [String.utf8EncodeChar, hnat, trail]
  rw [if_neg (by omega), if_neg (by omega), if_neg (by omega),
    Nat.mod_eq_of_lt (show n / 262144 < 8 by omega), hm]
  simp

/-- Whatever number has the bits read so far, and a next byte in the range, is that of a character
that begins with the bytes read so far. -/
structure Begins (seen : List UInt8) (p : Pending) : Prop where
  least : 0x80 ≤ p.least.toNat
  greatest : p.greatest.toNat < 0xC0
  encodes : ∀ n, n / 64 ^ (p.later + 1) = p.bits → p.least.toNat ≤ n / 64 ^ p.later % 64 + 128 →
    n / 64 ^ p.later % 64 + 128 ≤ p.greatest.toNat → Encodes n (seen ++ trail n (p.later + 1))

theorem range_of_start {b : UInt8} {p : Pending} (h : start b = .awaiting p) :
    0x80 ≤ p.least.toNat ∧ p.greatest.toNat < 0xC0 := by
  simp only [start] at h
  repeat' split at h
  all_goals simp only [Step.awaiting.injEq, reduceCtorEq] at h
  all_goals
    subst h
    dsimp only
    decide

theorem encodes_of_start {b : UInt8} {p : Pending} (h : start b = .awaiting p) {n : Nat}
    (hbits : n / 64 ^ (p.later + 1) = p.bits)
    (hleast : p.least.toNat ≤ n / 64 ^ p.later % 64 + 128)
    (hgreatest : n / 64 ^ p.later % 64 + 128 ≤ p.greatest.toNat) :
    Encodes n ([b] ++ trail n (p.later + 1)) := by
  rw [start_of_toNat rfl] at h
  have hb : b = UInt8.ofNat b.toNat := UInt8.ofNat_toNat.symm
  rw [hb]
  generalize b.toNat = m at *
  -- one case for each range of first bytes, which alone narrow the range of the second byte
  split at h
  · cases h
  split at h
  · cases h
  split at h
  · obtain rfl := Step.awaiting.inj h
    have hn : n / 64 = m - 0xC0 := hbits
    exact encodes_two (by omega) (by omega) (by omega)
  split at h
  · obtain rfl := Step.awaiting.inj h
    have hn : n / 4096 = 0 := hbits
    have hnext : 0xA0 ≤ n / 64 % 64 + 128 := hleast
    exact encodes_three (by omega) (by omega) (by omega) (.inl (by omega))
  split at h
  · obtain rfl := Step.awaiting.inj h
    have hn : n / 4096 = 0xD := hbits
    have hnext : n / 64 % 64 + 128 ≤ 0x9F := hgreatest
    exact encodes_three (by omega) (by omega) (by omega) (.inl (by omega))
  split at h
  · obtain rfl := Step.awaiting.inj h
    have hn : n / 4096 = m - 0xE0 := hbits
    exact encodes_three (by omega) (by omega) (by omega) (by unfold Nat.isValidChar; omega)
  split at h
  · obtain rfl := Step.awaiting.inj h
    have hn : n / 262144 = 0 := hbits
    have hnext : 0x90 ≤ n / 4096 % 64 + 128 := hleast
    exact encodes_four (by omega) (by omega) (by omega)
  split at h
  · obtain rfl := Step.awaiting.inj h
    have hn : n / 262144 = m - 0xF0 := hbits
    exact encodes_four (by omega) (by omega) (by omega)
  split at h
  · obtain rfl := Step.awaiting.inj h
    have hn : n / 262144 = 4 := hbits
    have hnext : n / 4096 % 64 + 128 ≤ 0x8F := hgreatest
    exact encodes_four (by omega) (by omega) (by omega)
  · cases h

theorem begins_of_start {b : UInt8} {p : Pending} (h : start b = .awaiting p) : Begins [b] p where
  least := (range_of_start h).1
  greatest := (range_of_start h).2
  encodes _ := encodes_of_start h

theorem encode_of_start {b : UInt8} {c : Char} (h : start b = .complete c) :
    String.utf8EncodeChar c = [b] := by
  rw [start_of_toNat rfl] at h
  by_cases hb : b.toNat < 0x80
  · rw [if_pos hb] at h
    obtain rfl := Step.complete.inj h
    rw [(encodes_one hb).2, UInt8.ofNat_toNat]
  · rw [if_neg hb] at h
    repeat' split at h
    all_goals cases h

/-- What a byte that is in the range makes of a character. -/
theorem take_of_ne_malformed {p : Pending} {b : UInt8} (h : p.take b ≠ .malformed) :
    (p.least.toNat ≤ b.toNat ∧ b.toNat ≤ p.greatest.toNat) ∧
      p.take b = match p.later with
        | 0 => .complete (Char.ofNat (p.bits * 64 + (b.toNat - 0x80)))
        | later + 1 => .awaiting ⟨p.bits * 64 + (b.toNat - 0x80), 0x80, 0xBF, later⟩ := by
  unfold Pending.take at *
  split at h
  · next hrange =>
    rw [if_pos hrange]
    exact ⟨⟨UInt8.le_iff_toNat_le.1 hrange.1, UInt8.le_iff_toNat_le.1 hrange.2⟩, rfl⟩
  · exact absurd rfl h

theorem Begins.encode_of_take {seen : List UInt8} {p : Pending} (hp : Begins seen p) {b : UInt8}
    {c : Char} (h : p.take b = .complete c) : String.utf8EncodeChar c = seen ++ [b] := by
  obtain ⟨⟨hleast, hgreatest⟩, htake⟩ := take_of_ne_malformed (by rw [h]; exact Step.noConfusion)
  have hlow := hp.least
  have hhigh := hp.greatest
  have hencodes := hp.encodes (p.bits * 64 + (b.toNat - 0x80))
  rw [h] at htake
  cases hlater : p.later with
  | succ later =>
    rw [hlater] at htake
    cases htake
  | zero =>
    rw [hlater] at htake hencodes
    have hbyte : (p.bits * 64 + (b.toNat - 0x80)) / 64 ^ 0 % 64 + 128 = b.toNat := by omega
    rw [hbyte] at hencodes
    rw [Step.complete.inj htake, (hencodes (by omega) hleast hgreatest).2, trail, hbyte, trail,
      UInt8.ofNat_toNat]

theorem Begins.begins_of_take {seen : List UInt8} {p : Pending} (hp : Begins seen p) {b : UInt8}
    {q : Pending} (h : p.take b = .awaiting q) : Begins (seen ++ [b]) q := by
  obtain ⟨⟨hleast, hgreatest⟩, htake⟩ := take_of_ne_malformed (by rw [h]; exact Step.noConfusion)
  have hlow := hp.least
  have hhigh := hp.greatest
  rw [h] at htake
  cases hlater : p.later with
  | zero =>
    rw [hlater] at htake
    cases htake
  | succ later =>
    rw [hlater] at htake
    obtain rfl := Step.awaiting.inj htake
    have hrange : 0x80 ≤ (0x80 : UInt8).toNat ∧ (0xBF : UInt8).toNat < 0xC0 := by decide
    refine ⟨hrange.1, hrange.2, fun n hbits _ _ ↦ ?_⟩
    replace hbits : n / 64 ^ (later + 1) = p.bits * 64 + (b.toNat - 0x80) := hbits
    have hencodes := hp.encodes n
    have hbyte : n / 64 ^ (later + 1) % 64 + 128 = b.toNat := by
      rw [hbits]
      omega
    have hfirst : n / 64 ^ (later + 1 + 1) = p.bits := by
      rw [Nat.pow_succ, ← Nat.div_div_eq_div_mul, hbits]
      omega
    rw [hlater, hbyte] at hencodes
    have hbytes := hencodes hfirst hleast hgreatest
    rwa [trail, hbyte, UInt8.ofNat_toNat, ← List.singleton_append, ← List.append_assoc] at hbytes

theorem piecesFrom_of_start {b : UInt8} {c : Char} (h : start b = .complete c)
    (bytes : List UInt8) : piecesFrom none (b :: bytes) = some c :: piecesFrom none bytes := by
  simp [piecesFrom, advance, h]

theorem none_mem_of_start {b : UInt8} (h : start b = .malformed) (bytes : List UInt8) :
    none ∈ piecesFrom none (b :: bytes) := by
  simp [piecesFrom, advance, h]

theorem none_mem_of_take {p : Pending} {b : UInt8} (h : p.take b = .malformed)
    (bytes : List UInt8) : none ∈ piecesFrom (some p) (b :: bytes) := by
  simp [piecesFrom, advance, h]

theorem none_not_mem_map (cs : List Char) : none ∉ cs.map some := by
  simp

/-- Bytes that are read as characters only are the encoding of these, behind the bytes of a
character that has begun. -/
theorem flatMap_of_piecesFrom (bytes : List UInt8) :
    (∀ cs : List Char, piecesFrom none bytes = cs.map some →
      cs.flatMap String.utf8EncodeChar = bytes) ∧
    ∀ (seen : List UInt8) (p : Pending) (cs : List Char), Begins seen p →
      piecesFrom (some p) bytes = cs.map some →
        cs.flatMap String.utf8EncodeChar = seen ++ bytes := by
  induction bytes with
  | nil =>
    refine ⟨fun cs h ↦ ?_, fun seen p cs _ h ↦ ?_⟩
    · rw [List.map_eq_nil_iff.1 h.symm]
      rfl
    · exact absurd (h ▸ List.mem_singleton_self none) (none_not_mem_map cs)
  | cons b bytes ih =>
    refine ⟨fun cs h ↦ ?_, fun seen p cs hp h ↦ ?_⟩
    · cases hstart : start b with
      | complete c =>
        rw [piecesFrom_of_start hstart] at h
        obtain ⟨d, rest, rfl, hd, hrest⟩ := List.map_eq_cons_iff.1 h.symm
        rw [List.flatMap_cons, Option.some.inj hd, encode_of_start hstart, ih.1 rest hrest.symm]
        rfl
      | awaiting p =>
        rw [piecesFrom_start hstart] at h
        exact ih.2 _ _ _ (begins_of_start hstart) h
      | malformed => exact absurd (h ▸ none_mem_of_start hstart bytes) (none_not_mem_map cs)
    · cases htake : p.take b with
      | complete c =>
        rw [piecesFrom_complete htake] at h
        obtain ⟨d, rest, rfl, hd, hrest⟩ := List.map_eq_cons_iff.1 h.symm
        rw [List.flatMap_cons, Option.some.inj hd, hp.encode_of_take htake, ih.1 rest hrest.symm,
          List.append_assoc]
        rfl
      | awaiting q =>
        rw [piecesFrom_awaiting htake] at h
        rw [ih.2 _ _ _ (hp.begins_of_take htake) h, List.append_assoc]
        rfl
      | malformed => exact absurd (h ▸ none_mem_of_take htake bytes) (none_not_mem_map cs)

theorem eq_map_some_of_mapM {α : Type} {items : List (Option α)} {values : List α}
    (h : items.mapM id = some values) : items = values.map some := by
  induction items generalizing values with
  | nil =>
    obtain rfl : [] = values := by simpa using h
    rfl
  | cons item items ih =>
    obtain ⟨first, rfl, rest, hrest, rfl⟩ : ∃ first, item = some first ∧
        ∃ rest, items.mapM id = some rest ∧ first :: rest = values := by
      simpa [List.mapM_cons, Option.bind_eq_some_iff] using h
    rw [ih hrest, List.map_cons]

/-- Decoding accepts the encoding of a text and nothing else. -/
theorem decode?_eq_some_iff {bytes : List UInt8} {text : String} :
    decode? bytes = some text ↔ encode text = bytes := by
  constructor
  · intro h
    obtain ⟨cs, hcs, rfl⟩ := Option.map_eq_some_iff.1 h
    rw [encode, String.toList_ofList]
    exact (flatMap_of_piecesFrom bytes).1 cs (eq_map_some_of_mapM hcs)
  · rintro rfl
    exact decode?_encode text

end LoxScan.Text.Utf8
