import LoxScan.Stream.Feed
import LoxScan.Text.Basic
import LoxScan.Text.RoundTrip

/-!
# Lines of text and of its bytes

Text without carriage returns falls into lines at its newlines only, so the lines of texts put
together are the lines of the one and those of the other when a newline stands between them.  The
bytes of a character are those of a newline or a carriage return only if it is one, so a feed of
encoded text has exactly the lines of the text.
-/

namespace LoxScan

namespace Text.Split

theorem linesOf_cons {c : Char} {rest : List Char} (hnewline : c ≠ '\n')
    (hreturn : ¬ (c = '\r' ∧ rest.head? = some '\n')) :
    linesOf (c :: rest) = extendFirst c (linesOf rest) := by
  rw [linesOf]
  · exact hnewline
  · rintro later hc rfl
    exact hreturn ⟨hc, rfl⟩

/-- A text without separators is a last line, and any other text begins with a line that a
separator ends. -/
@[elab_as_elim]
theorem induction_on_separator {α : Type} [DecidableEq α] (separator : α) {motive : List α → Prop}
    (last : ∀ line, separator ∉ line → motive line)
    (ended : ∀ line rest, separator ∉ line → motive rest → motive (line ++ separator :: rest))
    (text : List α) : motive text := by
  suffices h : ∀ line, separator ∉ line → motive (line ++ text) from h [] List.not_mem_nil
  induction text with
  | nil =>
    intro line hline
    rw [List.append_nil]
    exact last line hline
  | cons c rest ih =>
    intro line hline
    by_cases hc : c = separator
    · rw [hc]
      exact ended line rest hline (ih [] List.not_mem_nil)
    · rw [← List.singleton_append, ← List.append_assoc]
      apply ih
      simp [hline, Ne.symm hc]

/-- Up to its ending, every character goes into a line. -/
theorem linesOf_append {line rest : List Char} (hline : '\n' ∉ line)
    (hend : line.getLast? ≠ some '\r' ∨ rest.head? ≠ some '\n') :
    linesOf (line ++ rest) = line.foldr extendFirst (linesOf rest) := by
  induction line with
  | nil => rfl
  | cons c line ih =>
    obtain ⟨hc, hline⟩ := not_or.1 (mt List.mem_cons.2 hline)
    cases line with
    | nil =>
      apply linesOf_cons (Ne.symm hc)
      rintro ⟨rfl, hhead⟩
      exact hend.elim (fun hreturn ↦ hreturn rfl) (fun hrest ↦ hrest hhead)
    | cons d line =>
      have hd : d ≠ '\n' := fun h ↦ hline (h ▸ List.mem_cons_self)
      rw [List.foldr_cons, ← ih hline hend]
      apply linesOf_cons (Ne.symm hc)
      rintro ⟨-, hhead⟩
      exact hd (Option.some.inj hhead)

theorem foldr_extendFirst_cons (text line : List Char) (lines : List (List Char)) :
    text.foldr extendFirst (line :: lines) = (text ++ line) :: lines := by
  induction text with
  | nil => rfl
  | cons c text ih => rw [List.foldr_cons, ih]; rfl

/-- What follows the last newline is a line of its own. -/
theorem linesOf_of_not_mem {line : List Char} (hline : '\n' ∉ line) (hne : line ≠ []) :
    linesOf line = [line] := by
  have hlines : linesOf (line ++ []) = line.foldr extendFirst (linesOf []) :=
    linesOf_append hline (.inr (by simp))
  rw [List.append_nil] at hlines
  rw [hlines, ← List.dropLast_concat_getLast hne, List.foldr_append]
  exact foldr_extendFirst_cons _ _ []

/-- A line ends at the newline behind it. -/
theorem linesOf_append_newline {line : List Char} (hnewline : '\n' ∉ line)
    (hreturn : line.getLast? ≠ some '\r') (rest : List Char) :
    linesOf (line ++ '\n' :: rest) = line :: linesOf rest := by
  rw [linesOf_append hnewline (.inl hreturn), linesOf, foldr_extendFirst_cons, List.append_nil]

/-- A carriage return in front of the newline belongs to the ending. -/
theorem linesOf_append_pair {line : List Char} (hnewline : '\n' ∉ line) (rest : List Char) :
    linesOf (line ++ '\r' :: '\n' :: rest) = line :: linesOf rest := by
  rw [linesOf_append hnewline (.inr (by simp)), linesOf, foldr_extendFirst_cons, List.append_nil]

/-- What a newline ends is a line, but for carriage returns. -/
theorem exists_linesOf_append_newline {ended : List Char} (hnewline : '\n' ∉ ended)
    (rest : List Char) :
    ∃ line returns, ended = line ++ returns ∧ (∀ c ∈ returns, c = '\r') ∧
      linesOf (ended ++ '\n' :: rest) = line :: linesOf rest := by
  by_cases hreturn : ended.getLast? = some '\r'
  · obtain ⟨line, rfl⟩ := List.getLast?_eq_some_iff.1 hreturn
    have hline : '\n' ∉ line := fun h ↦ hnewline (List.mem_append_left _ h)
    refine ⟨line, ['\r'], rfl, by simp, ?_⟩
    rw [List.append_assoc]
    exact linesOf_append_pair hline rest
  · refine ⟨ended, [], (List.append_nil ended).symm, by simp, ?_⟩
    exact linesOf_append_newline hnewline hreturn rest

theorem newline_not_mem_linesOf {text : List Char} : ∀ line ∈ linesOf text, '\n' ∉ line := by
  induction text using induction_on_separator '\n' with
  | last line hline =>
    by_cases hne : line = []
    · rw [hne]
      exact List.forall_mem_nil _
    · rw [linesOf_of_not_mem hline hne]
      exact List.forall_mem_singleton.2 hline
  | ended ended rest hended ih =>
    obtain ⟨line, returns, rfl, -, hlines⟩ := exists_linesOf_append_newline hended rest
    have hline : '\n' ∉ line := fun h ↦ hended (List.mem_append_left returns h)
    rw [hlines]
    exact List.forall_mem_cons.2 ⟨hline, ih⟩

theorem newline_not_mem_lines {text : String} : ∀ line ∈ lines text, '\n' ∉ line.toList := by
  intro line hline
  obtain ⟨characters, hmem, rfl⟩ := List.mem_map.1 hline
  rw [String.toList_ofList]
  exact newline_not_mem_linesOf characters hmem

theorem length_linesOf_le (text : List Char) : (linesOf text).length ≤ text.count '\n' + 1 := by
  induction text using induction_on_separator '\n' with
  | last line hline =>
    by_cases hne : line = []
    · rw [hne]
      exact Nat.zero_le _
    · rw [linesOf_of_not_mem hline hne]
      exact Nat.le_add_left 1 _
  | ended line rest hline ih =>
    obtain ⟨_, _, -, -, hlines⟩ := exists_linesOf_append_newline hline rest
    rw [hlines, List.length_cons, List.count_append, List.count_cons_self]
    omega

theorem fieldsOf_ne_nil (separator : Char) (text : List Char) : fieldsOf separator text ≠ [] := by
  cases text with
  | nil => simp [fieldsOf]
  | cons c rest =>
    rw [fieldsOf]
    split
    · simp
    · cases fieldsOf separator rest <;> simp [extendFirst]

/-- Behind text without carriage returns and a newline, the lines go on with what follows. -/
theorem linesOf_append_newline_eq_fieldsOf {text : List Char} (hreturn : '\r' ∉ text)
    (rest : List Char) :
    linesOf (text ++ '\n' :: rest) = fieldsOf '\n' text ++ linesOf rest := by
  induction text with
  | nil => rw [List.nil_append, linesOf, fieldsOf]; rfl
  | cons c text ih =>
    obtain ⟨hc, hreturn⟩ := not_or.1 (mt List.mem_cons.2 hreturn)
    rw [List.cons_append, fieldsOf]
    split
    · next heq => rw [heq, linesOf, ih hreturn]; rfl
    · next hne =>
      rw [linesOf_cons hne (fun h ↦ hc h.1.symm), ih hreturn]
      cases hfields : fieldsOf '\n' text with
      | nil => exact absurd hfields (fieldsOf_ne_nil _ _)
      | cons field fields => rfl

/-- The fields between newlines are the lines, but for an empty one at the end. -/
theorem fieldsOf_eq_linesOf {text : List Char} (hreturn : '\r' ∉ text) :
    fieldsOf '\n' text = linesOf text ∨ fieldsOf '\n' text = linesOf text ++ [[]] := by
  induction text with
  | nil => exact .inr rfl
  | cons c text ih =>
    obtain ⟨hc, hreturn⟩ := not_or.1 (mt List.mem_cons.2 hreturn)
    rw [fieldsOf]
    split
    · next heq =>
      rw [heq, linesOf]
      exact (ih hreturn).imp (congrArg _) (congrArg _)
    · next hne =>
      rw [linesOf_cons hne (fun h ↦ hc h.1.symm)]
      rcases ih hreturn with hsame | hmore
      · exact .inl (congrArg _ hsame)
      · rw [hmore]
        cases linesOf text with
        | nil => exact .inl rfl
        | cons line lines => exact .inr rfl

theorem linesOf_flatMap {lines : List (List Char)}
    (hlines : ∀ line ∈ lines, '\n' ∉ line ∧ '\r' ∉ line) :
    linesOf (lines.flatMap (· ++ ['\n'])) = lines := by
  induction lines with
  | nil => rfl
  | cons line lines ih =>
    obtain ⟨hline, hlines⟩ := List.forall_mem_cons.1 hlines
    rw [List.flatMap_cons, List.append_assoc, List.singleton_append,
      linesOf_append_newline hline.1 (fun h ↦ hline.2 (List.mem_of_getLast? h)), ih hlines]

theorem linesOf_flatMap_pair {lines : List (List Char)} (hlines : ∀ line ∈ lines, '\n' ∉ line) :
    linesOf (lines.flatMap (· ++ ['\r', '\n'])) = lines := by
  induction lines with
  | nil => rfl
  | cons line lines ih =>
    obtain ⟨hline, hlines⟩ := List.forall_mem_cons.1 hlines
    rw [List.flatMap_cons, List.append_assoc, List.cons_append, List.singleton_append,
      linesOf_append_pair hline, ih hlines]

theorem toList_join_endings (ending : String) (lines : List String) :
    (String.join (lines.map (· ++ ending))).toList =
      (lines.map String.toList).flatMap (· ++ ending.toList) := by
  rw [String.toList_join, List.flatMap_map, List.flatMap_map]
  simp

theorem lines_join_endings {ending : String} {lines : List String}
    (hlines : linesOf ((lines.map String.toList).flatMap (· ++ ending.toList)) =
      lines.map String.toList) :
    Split.lines (String.join (lines.map (· ++ ending))) = lines := by
  rw [Split.lines, toList_join_endings, hlines, List.map_map]
  simp [Function.comp_def]

/-- Lines that are each ended by a newline are read back. -/
theorem lines_join {lines : List String}
    (hlines : ∀ line ∈ lines, '\n' ∉ line.toList ∧ '\r' ∉ line.toList) :
    Split.lines (String.join (lines.map (· ++ "\n"))) = lines :=
  lines_join_endings (linesOf_flatMap (by simpa using hlines))

/-- Lines that are each ended by a carriage return and a newline are read back, also if they end
with carriage returns themselves. -/
theorem lines_join_pair {lines : List String} (hlines : ∀ line ∈ lines, '\n' ∉ line.toList) :
    Split.lines (String.join (lines.map (· ++ "\r\n"))) = lines :=
  lines_join_endings (linesOf_flatMap_pair (by simpa using hlines))

end Text.Split

namespace Feed

open Text (Split.linesOf)

theorem lines_cons {b : UInt8} {rest : Feed} (hnewline : b ≠ 0x0A)
    (hreturn : ¬ (b = 0x0D ∧ rest.head? = some (.ok 0x0A))) :
    lines (.ok b :: rest) = extendFirst b (lines rest) := by
  rw [lines.eq_def]
  dsimp only
  rw [if_neg hnewline]
  split
  · next later => rw [if_neg fun hb ↦ hreturn ⟨hb, rfl⟩]
  · rfl

theorem lines_append {bytes : List UInt8} (hbytes : ∀ b ∈ bytes, b ≠ 0x0A ∧ b ≠ 0x0D)
    (rest : Feed) : lines (ofBytes bytes ++ rest) = bytes.foldr extendFirst (lines rest) := by
  induction bytes with
  | nil => rfl
  | cons b bytes ih =>
    obtain ⟨hb, hbytes⟩ := List.forall_mem_cons.1 hbytes
    rw [List.foldr_cons, ← ih hbytes]
    exact lines_cons hb.1 fun h ↦ hb.2 h.1

theorem foldr_extendFirst_ok (bytes line : List UInt8)
    (later : List (Except IoError (List UInt8))) :
    bytes.foldr extendFirst (.ok line :: later) = .ok (bytes ++ line) :: later := by
  induction bytes with
  | nil => rfl
  | cons b bytes ih => rw [List.foldr_cons, ih]; rfl

theorem foldr_extendFirst_nil {bytes : List UInt8} (hbytes : bytes ≠ []) :
    bytes.foldr extendFirst [] = [.ok bytes] := by
  rw [← List.dropLast_concat_getLast hbytes, List.foldr_append]
  exact foldr_extendFirst_ok _ _ []

theorem ofNat_ne_of_ne {m n : Nat} (hm : m < 256) (hn : n < 256) (h : m ≠ n) :
    UInt8.ofNat m ≠ UInt8.ofNat n := by
  intro heq
  have htoNat := congrArg UInt8.toNat heq
  rw [UInt8.toNat_ofNat', UInt8.toNat_ofNat'] at htoNat
  omega

/-- The bytes of a character are those of a newline or a carriage return only if it is one. -/
theorem ne_of_mem_utf8EncodeChar {c : Char} (hnewline : c ≠ '\n') (hreturn : c ≠ '\r') {b : UInt8}
    (hb : b ∈ String.utf8EncodeChar c) : b ≠ 0x0A ∧ b ≠ 0x0D := by
  have hten : c.val.toNat ≠ 10 := fun h ↦ hnewline (Char.ext (UInt32.toNat_inj.1 h))
  have hthirteen : c.val.toNat ≠ 13 := fun h ↦ hreturn (Char.ext (UInt32.toNat_inj.1 h))
  have hbyte : ∃ n < 256, n ≠ 10 ∧ n ≠ 13 ∧ b = UInt8.ofNat n := by
    simp only [String.utf8EncodeChar] at hb
    generalize c.val.toNat = n at *
    split at hb
    · exact ⟨n, by omega, hten, hthirteen, List.mem_singleton.1 hb⟩
    split at hb
    · simp only [List.mem_cons, List.not_mem_nil, or_false] at hb
      rcases hb with hb | hb <;> exact ⟨_, by omega, by omega, by omega, hb⟩
    split at hb <;> simp only [List.mem_cons, List.not_mem_nil, or_false] at hb
    · rcases hb with hb | hb | hb <;> exact ⟨_, by omega, by omega, by omega, hb⟩
    · rcases hb with hb | hb | hb | hb <;> exact ⟨_, by omega, by omega, by omega, hb⟩
  obtain ⟨n, hn, hten, hthirteen, rfl⟩ := hbyte
  exact ⟨ofNat_ne_of_ne hn (by decide) hten, ofNat_ne_of_ne hn (by decide) hthirteen⟩

/-- A line of a text as a feed yields it. -/
def encodedLine (line : List Char) : Except IoError (List UInt8) :=
  .ok (line.flatMap String.utf8EncodeChar)

theorem foldr_extendFirst_encodedLine (c : Char) (lines : List (List Char)) :
    (String.utf8EncodeChar c).foldr extendFirst (lines.map encodedLine) =
      (Text.Split.extendFirst c lines).map encodedLine := by
  cases lines with
  | nil =>
    rw [List.map_nil, foldr_extendFirst_nil String.utf8EncodeChar_ne_nil, Text.Split.extendFirst,
      List.map_singleton, encodedLine, List.flatMap_singleton]
  | cons line lines =>
    rw [List.map_cons, encodedLine, foldr_extendFirst_ok, Text.Split.extendFirst, List.map_cons,
      encodedLine, List.flatMap_cons]

theorem head?_ofBytes_encode {text : List Char} (h : text.head? ≠ some '\n') :
    (ofBytes (text.flatMap String.utf8EncodeChar)).head? ≠ some (.ok 0x0A) := by
  cases text with
  | nil => simp [ofBytes]
  | cons c text =>
    have hc : c ≠ '\n' := fun heq ↦ h (congrArg some heq)
    rw [List.flatMap_cons]
    by_cases hreturn : c = '\r'
    · rw [hreturn, show String.utf8EncodeChar '\r' = [0x0D] from rfl]
      simp [ofBytes]
    · cases hbytes : String.utf8EncodeChar c with
      | nil => exact absurd hbytes String.utf8EncodeChar_ne_nil
      | cons b bytes =>
        have hb : b ∈ String.utf8EncodeChar c := hbytes ▸ List.mem_cons_self
        simpa [ofBytes] using (ne_of_mem_utf8EncodeChar hc hreturn hb).1

theorem lines_ofBytes_encode (text : List Char) :
    lines (ofBytes (text.flatMap String.utf8EncodeChar)) =
      (Split.linesOf text).map encodedLine := by
  induction text with
  | nil => rfl
  | cons c text ih =>
    have hbytes : ofBytes ((c :: text).flatMap String.utf8EncodeChar) =
        ofBytes (String.utf8EncodeChar c) ++ ofBytes (text.flatMap String.utf8EncodeChar) := by
      rw [List.flatMap_cons, ofBytes, List.map_append]
      rfl
    by_cases hnewline : c = '\n'
    · rw [hbytes, hnewline, Split.linesOf, List.map_cons, ← ih]
      rfl
    by_cases hpair : c = '\r' ∧ text.head? = some '\n'
    · obtain ⟨rfl, hhead⟩ := hpair
      obtain ⟨rest, rfl⟩ := List.head?_eq_some_iff.1 hhead
      rw [hbytes, Split.linesOf, ← Split.linesOf, ← ih]
      rfl
    rw [hbytes, Text.Split.linesOf_cons hnewline hpair, ← foldr_extendFirst_encodedLine, ← ih]
    by_cases hreturn : c = '\r'
    · have hhead := head?_ofBytes_encode fun h ↦ hpair ⟨hreturn, h⟩
      rw [hreturn]
      exact lines_cons (by decide) fun h ↦ hhead h.2
    · exact lines_append (fun b hb ↦ ne_of_mem_utf8EncodeChar hnewline hreturn hb) _

/-- A feed of encoded text has the lines of the text. -/
theorem entries_ofBytes_encode (text : String) :
    entries (ofBytes (Text.Utf8.encode text)) = (Text.Split.lines text).map .ok := by
  rw [entries, Text.Utf8.encode, lines_ofBytes_encode, Text.Split.lines, List.map_map,
    List.map_map]
  congr 1
  funext line
  have hdecode := Text.Utf8.decode?_encode (String.ofList line)
  rw [Text.Utf8.encode, String.toList_ofList] at hdecode
  simp [encodedLine, decodeLine, hdecode, Except.bind]

end Feed

end LoxScan
