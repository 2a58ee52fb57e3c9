import LoxScan.Proofs.Session.Dump
import LoxScan.Proofs.Session.Prompt
import LoxScan.Proofs.Source.LineByLine

/-!
# Files and prompts

A text can be scanned as a file or typed at the prompt, and the two divide it in different ways:
the scan of the file counts newlines, while the prompt is given lines without their endings.  If no
line leaves a string or a comment open, both show the same tokens and report the same messages in
the same order.  They differ in what is between the lines, and the prompt numbers every line 1.
-/

namespace LoxScan.Session

open Text (Utf8.encode)
open Text.Split (lines)

/-- The lines of a dump that show tokens of the text. -/
def tokenLines (text : String) : String :=
  String.join ((Scan.ofText text).tokens.dropLast.map fun t ↦ t.display ++ "\n")

/-- The last line of every dump. -/
def endLine : String := "EOF  null\n"

/-- What a scan has to say about a text, wherever the text stands. -/
def messages (text : String) : List String := (Scan.ofText text).errors.map LexicalError.message

/-- The report of a message about a line with a number. -/
def numbered (number : Nat) (message : String) : String :=
  "[line " ++ toString number ++ "] Error: " ++ message ++ "\n"

theorem dump_eq (text : String) : (Scan.ofText text).dump = tokenLines text ++ endLine := by
  rw [Scan.dump, tokenLines, Grammar.tokens_ofText, List.dropLast_concat, List.map_append,
    String.join_append]
  rfl

theorem toList_tokenLines (text : String) :
    (tokenLines text).toList = (Scan.ofText text).tokens.dropLast.flatMap Token.dumpLine := by
  rw [tokenLines, String.toList_join, List.flatMap_map]
  simp only [Token.toList_display]

theorem shownFor_encode (text : String) :
    shownFor (Utf8.encode text) = Utf8.encode (tokenLines text ++ endLine) := by
  rw [shownFor, Text.Utf8.decode?_encode]
  dsimp only
  rw [dump_eq]

theorem reports_eq (errors : List LexicalError) :
    errors.flatMap (fun e ↦ Utf8.encode (e.display ++ "\n")) =
      Utf8.encode (String.join (errors.map fun e ↦ numbered e.line.toNat e.message)) := by
  rw [Text.Utf8.encode_join, List.flatMap_map]
  rfl

theorem toldFor_encode {line : String} (hline : '\n' ∉ line.toList) :
    toldFor (Utf8.encode line) = Utf8.encode (String.join ((messages line).map (numbered 1))) := by
  have hnumbered : (Scan.ofText line).errors.map (fun e ↦ numbered e.line.toNat e.message) =
      (messages line).map (numbered 1) := by
    rw [messages, List.map_map]
    apply List.map_congr_left
    intro e he
    rw [line_of_mem_errors hline he]
    rfl
  rw [toldFor, Text.Utf8.decode?_encode]
  dsimp only
  rw [reports_eq, hnumbered]

section Lines

variable {source : String}

theorem tokenLines_eq_join
    (hclosed : ∀ line ∈ Text.Split.linesOf source.toList,
      Grammar.IsClosed (Grammar.segments line)) :
    tokenLines source = String.join ((lines source).map tokenLines) := by
  have hcontent : (Scan.ofText source).tokens.dropLast.map Token.content =
      ((lines source).flatMap fun line ↦ (Scan.ofText line).tokens.dropLast).map
        Token.content := by
    rw [List.map_flatMap]
    exact Grammar.map_lexeme_dropLast_tokens hclosed
  apply String.toList_injective
  rw [toList_tokenLines, Token.flatMap_dumpLine_eq_of_map hcontent, List.flatMap_assoc,
    String.toList_join, List.flatMap_map]
  simp only [toList_tokenLines]

theorem numbered_errors_eq
    (hclosed : ∀ line ∈ Text.Split.linesOf source.toList, Grammar.IsClosed (Grammar.segments line))
    (hnewlines : source.toList.count '\n' < UInt32.size - 1) :
    (Scan.ofText source).errors.map (fun e ↦ numbered e.line.toNat e.message) =
      ((lines source).zipIdx 1).flatMap fun place ↦
        (messages place.1).map (numbered place.2) := by
  have hfrom : (lines source).zipIdx 1 =
      ((lines source).zipIdx 0).map fun place ↦ (place.1, place.2 + 1) := List.zipIdx_succ
  have hlength : (lines source).length ≤ source.toList.count '\n' + 1 := by
    rw [lines, List.length_map]
    exact Text.Split.length_linesOf_le source.toList
  rw [Grammar.errors_eq_flatMap_lines hclosed, hfrom, List.map_flatMap, List.flatMap_map]
  apply List.flatMap_congr
  intro place hplace
  have hplace : place.2 < (lines source).length := List.snd_lt_of_mem_zipIdx hplace
  have hnumber : (Scan.lineAfter place.2).toNat = place.2 + 1 := by
    rw [Grammar.toNat_lineAfter (by omega), Nat.add_comm]
  rw [messages, List.map_map, List.map_map]
  simp only [Function.comp_def, hnumber, LexicalError.message]

end Lines

namespace Unhindered

variable {s : Session}

theorem fst_runFile_encode (h : s.Unhindered) (source : String) :
    (s.runFile (.ok (Utf8.encode source))).1 =
      s.deliver (Utf8.encode (tokenLines source ++ endLine))
        (Utf8.encode (String.join ((Scan.ofText source).errors.map fun e ↦
          numbered e.line.toNat e.message)))
        (s.reported + (Scan.ofText source).errors.length) := by
  rw [runFile_encode, h.run source, dump_eq, reports_eq]

theorem fst_runPrompt_encode (h : s.Unhindered) {source : String} {chunks : List Chunk}
    (hchunks : chunks.flatMap Chunk.bytes = Utf8.encode source) :
    ∃ count, (s.runPrompt (Feed.ofDeliveries (chunks.map .chunk))).1 =
      s.deliver
        (Utf8.encode ("> " ++
          String.join ((lines source).map fun line ↦ tokenLines line ++ endLine ++ "> ")))
        (Utf8.encode (String.join ((lines source).flatMap fun line ↦
          (messages line).map (numbered 1))))
        count := by
  have hentries : (Feed.ofDeliveries (chunks.map .chunk)).entries =
      ((lines source).map Utf8.encode).map Feed.decodeLine := by
    rw [Feed.ofDeliveries_chunks, hchunks, Feed.entries_ofBytes_encode, List.map_map]
    simp only [Function.comp_def, Feed.decodeLine, Text.Utf8.decode?_encode]
  have hshown : ((lines source).map Utf8.encode).flatMap
        (fun line ↦ shownFor line ++ Utf8.encode "> ") =
      Utf8.encode
        (String.join ((lines source).map fun line ↦ tokenLines line ++ endLine ++ "> ")) := by
    rw [Text.Utf8.encode_join, List.flatMap_map, List.flatMap_map]
    simp only [shownFor_encode, Text.Utf8.encode_append]
  have htold : ((lines source).map Utf8.encode).flatMap toldFor =
      Utf8.encode (String.join ((lines source).flatMap fun line ↦
        (messages line).map (numbered 1))) := by
    rw [Text.Utf8.encode_join, List.flatMap_map, List.flatMap_assoc]
    apply List.flatMap_congr
    intro line hline
    rw [toldFor_encode (Text.Split.newline_not_mem_lines line hline), Text.Utf8.encode_join]
  have hprompt := h.runPrompt hentries
  rw [hshown, htold, ← Text.Utf8.encode_append] at hprompt
  exact ⟨_, congrArg Prod.fst hprompt⟩

end Unhindered

/-- A text none of whose lines leaves a string or a comment open shows the same tokens and reports
the same messages whether it is run as a file or fed to the prompt, however its bytes arrive.  Of a
dump, the file keeps the last line only once, and it numbers each message by its line. -/
theorem runFile_and_runPrompt_of_lines (shown told shown' told' : List UInt8)
    (history history' : List Request) (source : String) (chunks : List Chunk)
    (hchunks : chunks.flatMap Chunk.bytes = Utf8.encode source)
    (hnewlines : source.toList.count '\n' < UInt32.size - 1)
    (hclosed : ∀ line ∈ lines source, ∀ e ∈ (Scan.ofText line).errors,
      e.cause ≠ .unterminatedString ∧ e.cause ≠ .unterminatedComment) :
    let s := (start ⟨none, shown⟩ ⟨none, told⟩).serveAll history
    let t := (start ⟨none, shown'⟩ ⟨none, told'⟩).serveAll history'
    let file := (s.runFile (.ok (Utf8.encode source))).1
    let prompt := (t.runPrompt (Feed.ofDeliveries (chunks.map .chunk))).1
    prompt.out.written = t.out.written ++ Utf8.encode ("> " ++
        String.join ((lines source).map fun line ↦ tokenLines line ++ endLine ++ "> ")) ∧
      file.out.written = s.out.written ++ Utf8.encode
        (String.join ((lines source).map tokenLines) ++ endLine) ∧
      prompt.log.writer.written = t.log.writer.written ++ Utf8.encode
        (String.join ((lines source).flatMap fun line ↦ (messages line).map (numbered 1))) ∧
      file.log.writer.written = s.log.writer.written ++ Utf8.encode
        (String.join (((lines source).zipIdx 1).flatMap fun place ↦
          (messages place.1).map (numbered place.2))) := by
  intro s t file prompt
  have hs : s.Unhindered := preserved_unhindered.serveAll (unhindered_start shown told) history
  have ht : t.Unhindered :=
    preserved_unhindered.serveAll (unhindered_start shown' told') history'
  have hlines := Grammar.isClosed_of_mem_linesOf hclosed
  have hfile : file = _ := hs.fst_runFile_encode source
  obtain ⟨count, hprompt⟩ := ht.fst_runPrompt_encode hchunks
  rw [tokenLines_eq_join hlines, numbered_errors_eq hlines hnewlines] at hfile
  rw [hfile, show prompt = _ from hprompt]
  exact ⟨rfl, rfl, rfl, rfl⟩

/-- Both carriage returns of the second line are part of its ending for the scan of the file, but
the prompt is given one of them.  The comment and the point end with their lines. -/
theorem runFile_and_runPrompt_of_mixed_endings :
    let source := "a // b\r\n@ \"c\"\r\r\n\n$ d."
    let chunks : List Chunk :=
      [⟨Utf8.encode "a // b\r", by decide⟩,
        ⟨Utf8.encode "\n@ \"c\"\r\r\n\n$ d.", by decide⟩]
    let s := start ⟨none, []⟩ ⟨none, []⟩
    let file := (s.runFile (.ok (Utf8.encode source))).1
    let prompt := (s.runPrompt (Feed.ofDeliveries (chunks.map .chunk))).1
    (chunks.flatMap Chunk.bytes = Utf8.encode source ∧ source.toList.count '\n' < UInt32.size - 1 ∧
        ∀ line ∈ lines source, ∀ e ∈ (Scan.ofText line).errors,
          e.cause ≠ .unterminatedString ∧ e.cause ≠ .unterminatedComment) ∧
      lines source = ["a // b", "@ \"c\"\r", "", "$ d."] ∧
      prompt.out.written = Utf8.encode ("> IDENTIFIER a null\nEOF  null\n" ++
        "> STRING \"c\" c\nEOF  null\n> EOF  null\n> IDENTIFIER d null\nDOT . null\nEOF  null\n> ") ∧
      file.out.written = Utf8.encode
        "IDENTIFIER a null\nSTRING \"c\" c\nIDENTIFIER d null\nDOT . null\nEOF  null\n" ∧
      prompt.log.writer.written = Utf8.encode
        "[line 1] Error: Unexpected character.\n[line 1] Error: Unexpected character.\n" ∧
      file.log.writer.written = Utf8.encode
        "[line 2] Error: Unexpected character.\n[line 4] Error: Unexpected character.\n" := by
  intro source chunks s file prompt
  have hchunks : chunks.flatMap Chunk.bytes = Utf8.encode source := by
    rw [List.flatMap_cons, List.flatMap_singleton, ← Text.Utf8.encode_append]
    exact congrArg Utf8.encode (by decide +kernel)
  have hnewlines : source.toList.count '\n' < UInt32.size - 1 := by decide +kernel
  have hlines : lines source = ["a // b", "@ \"c\"\r", "", "$ d."] := by decide +kernel
  have hclosed : ∀ line ∈ lines source, ∀ e ∈ (Scan.ofText line).errors,
      e.cause ≠ .unterminatedString ∧ e.cause ≠ .unterminatedComment := by
    rw [hlines]
    decide +kernel
  obtain ⟨hout, hfile, hlog, hreports⟩ :=
    runFile_and_runPrompt_of_lines [] [] [] [] [] [] source chunks hchunks hnewlines hclosed
  rw [hlines] at hout hfile hlog hreports
  have hwritten {text text' : String} (h : text = text') :
      [] ++ Utf8.encode text = Utf8.encode text' := by rw [h, List.nil_append]
  refine ⟨⟨hchunks, hnewlines, hclosed⟩, hlines, hout.trans (hwritten ?_),
    hfile.trans (hwritten ?_), hlog.trans (hwritten ?_), hreports.trans (hwritten ?_)⟩
  all_goals decide +kernel

end LoxScan.Session
