import LoxScan.Source.Buffer
import LoxScan.Text.RoundTrip

/-!
# Source buffers and characters

A position in a text is given by the characters in front of it.  Their number is the index of the
position in the table of a buffer, and the size of their bytes is the entry there.  So the table
counts the characters of the text, and what a buffer is asked for is what the plain characters have
to say.
-/

namespace LoxScan.Buffer

open Text

/-- The bytes of some characters. -/
def bytesOf (characters : List Char) : List UInt8 := characters.flatMap String.utf8EncodeChar

@[simp]
theorem bytesOf_append (first second : List Char) :
    bytesOf (first ++ second) = bytesOf first ++ bytesOf second :=
  List.flatMap_append

theorem bytesOf_toList (text : String) : bytesOf text.toList = Utf8.encode text := rfl

theorem bytes_ofText (source : String) : (ofText source).bytes = bytesOf source.toList := rfl

theorem bytesOf_ne_nil {characters : List Char} (h : characters ≠ []) :
    bytesOf characters ≠ [] := by
  obtain ⟨c, rest, rfl⟩ := List.exists_cons_of_ne_nil h
  exact fun hnil ↦ String.utf8EncodeChar_ne_nil (List.append_eq_nil_iff.1 hnil).1

theorem pieces_bytesOf (characters : List Char) :
    Utf8.pieces (bytesOf characters) = characters.map some := by
  have h := Utf8.pieces_encode (String.ofList characters)
  rwa [← bytesOf_toList, String.toList_ofList] at h

theorem length_offsets (offset : Nat) (characters : List Char) :
    (offsets offset characters).length = characters.length := by
  induction characters generalizing offset with
  | nil => rfl
  | cons c rest ih => rw [offsets, List.length_cons, List.length_cons, ih]

theorem getElem?_offsets (offset : Nat) (before : List Char) (c : Char) (rest : List Char) :
    (offsets offset (before ++ c :: rest))[before.length]? =
      some (offset + (bytesOf before).length) := by
  induction before generalizing offset with
  | nil => rfl
  | cons d before ih =>
    have hlength : (bytesOf (d :: before)).length = d.utf8Size + (bytesOf before).length := by
      simp [bytesOf]
    rw [List.cons_append, offsets, List.length_cons, List.getElem?_cons_succ, ih, hlength,
      Nat.add_assoc]

variable {source : String} {before rest : List Char}

/-- Wherever a text is split, the table has the number of bytes in front. -/
theorem getElem?_boundaries (h : source.toList = before ++ rest) :
    (ofText source).boundaries[before.length]? = some (bytesOf before).length := by
  rw [ofText, h]
  cases rest with
  | nil =>
    rw [List.append_nil] at h ⊢
    rw [List.getElem?_append_right (Nat.le_of_eq (length_offsets 0 before)), length_offsets,
      Nat.sub_self, ← bytesOf_toList, h]
    rfl
  | cons c rest =>
    have hfound := getElem?_offsets 0 before c rest
    rw [List.getElem?_append_left (by simp [length_offsets]), hfound, Nat.zero_add]

theorem length_boundaries (source : String) :
    (ofText source).boundaries.length = source.toList.length + 1 := by
  rw [ofText, List.length_append, length_offsets, List.length_singleton]

theorem exists_split_of_le {i : Nat} (h : i ≤ source.toList.length) :
    ∃ before rest, source.toList = before ++ rest ∧ before.length = i :=
  ⟨_, _, (List.take_append_drop i _).symm, List.length_take_of_le h⟩

theorem exists_split_of_mem {offset : Nat} (h : offset ∈ (ofText source).boundaries) :
    ∃ before rest, source.toList = before ++ rest ∧ offset = (bytesOf before).length := by
  obtain ⟨i, hi, rfl⟩ := List.mem_iff_getElem.1 h
  rw [length_boundaries] at hi
  obtain ⟨before, rest, hsplit, rfl⟩ := exists_split_of_le (Nat.le_of_lt_succ hi)
  exact ⟨before, rest, hsplit, (List.getElem_eq_iff _).2 (getElem?_boundaries hsplit)⟩

theorem pairwise_boundaries (source : String) : (ofText source).boundaries.Pairwise (· < ·) := by
  rw [List.pairwise_iff_getElem]
  intro i j hi hj hlt
  rw [length_boundaries] at hj
  obtain ⟨before, rest, hsplit, rfl⟩ := exists_split_of_le (Nat.le_of_lt_succ hj)
  obtain ⟨front, later, rfl, rfl⟩ : ∃ front later, before = front ++ later ∧ front.length = i :=
    ⟨_, _, (List.take_append_drop i before).symm, List.length_take_of_le (Nat.le_of_lt hlt)⟩
  have hlater : later ≠ [] := by
    rintro rfl
    simp at hlt
  have hbytes := List.length_pos_iff.2 (bytesOf_ne_nil hlater)
  have hsplit' := hsplit
  rw [List.append_assoc] at hsplit'
  rw [(List.getElem_eq_iff _).2 (getElem?_boundaries hsplit),
    (List.getElem_eq_iff _).2 (getElem?_boundaries hsplit'), bytesOf_append, List.length_append]
  exact Nat.lt_add_of_pos_right hbytes

example : (ofText "é𝄞a").boundaries = [0, 2, 6, 7] := by decide +kernel

theorem getElem?_boundaries_eq_none {i : Nat} (h : source.toList.length < i) :
    (ofText source).boundaries[i]? = none := by
  rw [List.getElem?_eq_none_iff, length_boundaries]
  exact h

theorem start_of_isContinuation {byte : UInt8} (h : isContinuation byte) :
    Utf8.start byte = .malformed := by
  obtain ⟨hleast, hgreatest⟩ := Bool.and_eq_true_iff.1 h
  have hleast := UInt8.le_iff_toNat_le.1 (of_decide_eq_true hleast)
  have hgreatest := UInt8.lt_iff_toNat_lt.1 (of_decide_eq_true hgreatest)
  have hascii : ¬ byte < 0x80 := fun hlt ↦ absurd (UInt8.lt_iff_toNat_lt.1 hlt) (by omega)
  have hlead : byte < 0xC2 := UInt8.lt_iff_toNat_lt.2 (Nat.lt_trans hgreatest (by decide))
  rw [Utf8.start, if_neg hascii, if_pos hlead]

/-- A byte that continues a character does not begin one. -/
theorem not_isContinuation_of_bytesOf {characters : List Char} {byte : UInt8} {bytes : List UInt8}
    (h : bytesOf characters = byte :: bytes) : isContinuation byte = false := by
  refine Bool.eq_false_iff.2 fun hcontinues ↦ ?_
  have hstart := start_of_isContinuation hcontinues
  have hpieces := pieces_bytesOf characters
  rw [h, Utf8.pieces, Utf8.piecesFrom, Utf8.advance] at hpieces
  simp only [hstart] at hpieces
  have hnone : none ∈ characters.map some := by
    rw [← hpieces]
    exact List.mem_cons_self
  simp at hnone

theorem isBoundary_of_split (h : source.toList = before ++ rest) :
    (ofText source).isBoundary (bytesOf before).length := by
  rw [isBoundary, Bool.or_eq_true]
  right
  rw [bytes_ofText, h, bytesOf_append, List.getElem?_append_right (Nat.le_refl _), Nat.sub_self]
  cases hrest : bytesOf rest with
  | nil => simp
  | cons byte bytes => simpa using not_isContinuation_of_bytesOf hrest

theorem character?_of_split (h : source.toList = before ++ rest) :
    (ofText source).character? before.length = rest.head? := by
  have hdrop : (ofText source).bytes.drop (bytesOf before).length = bytesOf rest := by
    rw [bytes_ofText, h, bytesOf_append, List.drop_left]
  rw [character?, getElem?_boundaries h]
  simp only [isBoundary_of_split h, if_true, hdrop, pieces_bytesOf]
  cases rest <;> rfl

theorem slice_of_split {part : List Char} (h : source.toList = before ++ part ++ rest) :
    (ofText source).slice before.length (before ++ part).length = .ok (String.ofList part) := by
  have hfirst : source.toList = before ++ (part ++ rest) := by rw [h, List.append_assoc]
  have hbytes : ((ofText source).bytes.drop (bytesOf before).length).take
      ((bytesOf (before ++ part)).length - (bytesOf before).length) = bytesOf part := by
    rw [bytes_ofText, hfirst, bytesOf_append, bytesOf_append, bytesOf_append, List.drop_left,
      List.length_append, Nat.add_sub_cancel_left, List.take_left]
  have hle : (bytesOf before).length ≤ (bytesOf (before ++ part)).length := by
    rw [bytesOf_append, List.length_append]
    exact Nat.le_add_right _ _
  have hdecode : Utf8.decode? (bytesOf part) = some (String.ofList part) := by
    have hround := Utf8.decode?_encode (String.ofList part)
    rwa [← bytesOf_toList, String.toList_ofList] at hround
  rw [slice, getElem?_boundaries hfirst, getElem?_boundaries h]
  simp only [hle, isBoundary_of_split hfirst, isBoundary_of_split h, and_self, if_true, hbytes,
    hdecode]

theorem character?_eq (source : String) (i : Nat) :
    (ofText source).character? i = source.toList[i]? := by
  by_cases hi : i ≤ source.toList.length
  · obtain ⟨before, rest, hsplit, rfl⟩ := exists_split_of_le hi
    rw [character?_of_split hsplit, hsplit, List.getElem?_append_right (Nat.le_refl _),
      Nat.sub_self, List.head?_eq_getElem?]
  · rw [character?, getElem?_boundaries_eq_none (Nat.lt_of_not_le hi),
      List.getElem?_eq_none (Nat.le_of_not_le hi)]

/-- Parts of the text are only found in order and inside it. -/
theorem slice_eq (source : String) (first last : Nat) :
    (ofText source).slice first last =
      if first ≤ last ∧ last ≤ source.toList.length then
        .ok (String.ofList ((source.toList.drop first).take (last - first)))
      else .error (.part first last) := by
  split
  · next hin =>
    obtain ⟨before, rest, hsplit, rfl⟩ := exists_split_of_le (Nat.le_trans hin.1 hin.2)
    have hlast : last = (before ++ rest.take (last - before.length)).length := by
      have hlength := congrArg List.length hsplit
      rw [List.length_append] at hlength
      rw [List.length_append, List.length_take]
      omega
    have hparts : source.toList =
        before ++ rest.take (last - before.length) ++ rest.drop (last - before.length) := by
      rw [List.append_assoc, List.take_append_drop, hsplit]
    have hrest : source.toList.drop before.length = rest := by rw [hsplit, List.drop_left]
    have hslice := slice_of_split hparts
    rwa [← hlast, ← hrest] at hslice
  · next hout =>
    rw [slice]
    split
    · next low high hlow hhigh =>
      obtain ⟨hfirst, rfl⟩ := List.getElem?_eq_some_iff.1 hlow
      obtain ⟨hlast, rfl⟩ := List.getElem?_eq_some_iff.1 hhigh
      have hreversed : last < first := by
        rw [length_boundaries] at hlast
        omega
      have hlt :=
        List.pairwise_iff_getElem.1 (pairwise_boundaries source) _ _ hlast hfirst hreversed
      rw [if_neg fun hle ↦ absurd hle.1 (Nat.not_le_of_lt hlt)]
    · rfl

/-- The bytes of a text are seen like its characters. -/
theorem view_ofText (source : String) : (ofText source).view = .ofCharacters source.toList := by
  have hlength : (ofText source).view.length = .ok source.toList.length := by
    rw [view, length_boundaries]
    rfl
  have hcharacter : (ofText source).character? = fun i ↦ source.toList[i]? :=
    funext (character?_eq source)
  have hslice := funext fun first ↦ funext (slice_eq source first)
  rw [View.ofCharacters, ← hcharacter, ← hslice, ← hlength]
  rfl

end LoxScan.Buffer
