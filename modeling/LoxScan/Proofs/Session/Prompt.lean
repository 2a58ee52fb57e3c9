import LoxScan.Proofs.Session.Unlimited
import LoxScan.Proofs.Source.Lines
import LoxScan.Proofs.Stream.ByteLines

/-!
# The prompt over unlimited writers

At the prompt, what a line shows and what it reports are functions of that line alone: nothing is
left of the lines before it, be it an open string, a line number or a count of errors.
-/

namespace LoxScan.Session

open Text (Utf8.encode Utf8.decode?)

/-- What a line of input shows: the tokens of the text it encodes. -/
def shownFor (line : List UInt8) : List UInt8 :=
  match Utf8.decode? line with
  | some text => Utf8.encode (Scan.ofText text).dump
  | none => []

/-- What a line of input reports: the errors of the text it encodes, or that it encodes none. -/
def toldFor (line : List UInt8) : List UInt8 :=
  match Utf8.decode? line with
  | some text => (Scan.ofText text).errors.flatMap fun e ↦ Utf8.encode (e.display ++ "\n")
  | none => Utf8.encode "[line 1] Error: stream did not contain valid UTF-8\n"

namespace Unhindered

variable {s : Session}

/-- Whatever becomes of an entry, the session goes on. -/
theorem enter (h : s.Unhindered) (line : List UInt8) :
    ∃ count, s.enter (Feed.decodeLine line) =
      (s.deliver (shownFor line) (toldFor line) count, .ok ()) := by
  rw [Feed.decodeLine, shownFor, toldFor]
  cases Utf8.decode? line with
  | some text =>
    refine ⟨s.reported + (Scan.ofText text).errors.length, ?_⟩
    dsimp only [Session.enter]
    rw [h.run text]
    by_cases herrors : (Scan.ofText text).errors = []
    · rw [if_pos herrors]
    · rw [if_neg herrors]
  | none =>
    refine ⟨s.reported + 1, ?_⟩
    dsimp only [Session.enter]
    rw [if_pos (by rfl : IoError.invalidUtf8.kind = .invalidData)]
    exact h.flushLog_reportAll [⟨1, IoError.invalidUtf8.message⟩]

/-- Each entry is followed by a prompt and leaves nothing in the count. -/
theorem answer (h : s.Unhindered) (line : List UInt8) :
    s.answer (Feed.decodeLine line) =
      (s.deliver (shownFor line ++ Utf8.encode "> ") (toldFor line) 0, .ok ()) := by
  obtain ⟨count, henter⟩ := h.enter line
  have hprompt := (h.deliver (shownFor line) (toldFor line) 0).print "> "
  rw [deliver_deliver, List.append_nil] at hprompt
  simp only [Session.answer, henter]
  exact hprompt

theorem runEntries (h : s.Unhindered) (lines : List (List UInt8)) :
    s.runEntries (lines.map Feed.decodeLine) =
      (s.deliver (lines.flatMap fun line ↦ shownFor line ++ Utf8.encode "> ")
          (lines.flatMap toldFor) (if lines = [] then s.reported else 0),
        .ok ()) := by
  induction lines generalizing s with
  | nil =>
    rw [List.flatMap_nil, List.flatMap_nil, if_pos rfl, h.deliver_nil]
    rfl
  | cons line lines ih =>
    have hrest := ih (h.deliver (shownFor line ++ Utf8.encode "> ") (toldFor line) 0)
    rw [deliver_deliver, show (Session.deliver s _ _ 0).reported = 0 from rfl, ite_self] at hrest
    rw [List.map_cons, Session.runEntries, h.answer line, if_neg (List.cons_ne_nil _ _),
      List.flatMap_cons, List.flatMap_cons]
    exact hrest

theorem runPrompt (h : s.Unhindered) {feed : Feed} {lines : List (List UInt8)}
    (hfeed : feed.entries = lines.map Feed.decodeLine) :
    s.runPrompt feed =
      (s.deliver (Utf8.encode "> " ++ lines.flatMap fun line ↦ shownFor line ++ Utf8.encode "> ")
          (lines.flatMap toldFor) (if lines = [] then s.reported else 0),
        .ok ()) := by
  have hentries := (h.deliver (Utf8.encode "> ") [] s.reported).runEntries lines
  rw [deliver_deliver, List.nil_append] at hentries
  simp only [Session.runPrompt, prompt, h.print, hfeed]
  exact hentries

end Unhindered

/-- All errors of a text without newlines are on its first line. -/
theorem line_of_mem_errors {text : String} (h : '\n' ∉ text.toList) {e : LexicalError}
    (he : e ∈ (Scan.ofText text).errors) : e.line = 1 := by
  obtain ⟨n, hn, hline⟩ := Grammar.exists_line_of_mem_errors he
  rw [List.count_eq_zero_of_not_mem h, Nat.le_zero] at hn
  rw [hline, hn]
  rfl

/-- After any history, a prompt session over bytes that can all be read succeeds.  It shows the
tokens of each line between two prompts and reports the errors of each line, all of them on line 1,
or once that the line is not text.  Its writers receive nothing else, and no reports are counted at
its end if there was a line at all. -/
theorem runPrompt_of_history (shown told : List UInt8) (history : List Request)
    (chunks : List Chunk) :
    ∃ lines, Feed.FallsInto (chunks.flatMap Chunk.bytes) lines ∧
      (∀ other, Feed.FallsInto (chunks.flatMap Chunk.bytes) other → other = lines) ∧
      (∀ line ∈ lines, ∀ text, Utf8.decode? line = some text →
        ∀ e ∈ (Scan.ofText text).errors, e.line = 1) ∧
      let s := (start ⟨none, shown⟩ ⟨none, told⟩).serveAll history
      let (after, result) := s.runPrompt (Feed.ofDeliveries (chunks.map .chunk))
      result = .ok () ∧
        after.out.written = s.out.written ++
          (Utf8.encode "> " ++ lines.flatMap fun line ↦ shownFor line ++ Utf8.encode "> ") ∧
        after.log.writer.written = s.log.writer.written ++ lines.flatMap toldFor ∧
        after.log.pending = [] ∧
        after.reported = if lines = [] then s.reported else 0 := by
  obtain ⟨lines, hlines⟩ := Feed.exists_fallsInto (chunks.flatMap Chunk.bytes)
  refine ⟨lines, hlines, fun other hother ↦ hlines.eq hother, ?_, ?_⟩
  · intro line hline text htext e he
    exact line_of_mem_errors
      (Feed.newline_not_mem_of_decode? (hlines.newline_not_mem line hline) htext) he
  · intro s
    have hs : s.Unhindered :=
      preserved_unhindered.serveAll (unhindered_start shown told) history
    rw [hs.runPrompt hlines.entries_ofDeliveries]
    exact ⟨rfl, rfl, rfl, rfl, rfl⟩

/-- Behind an error from an earlier run: a line over two chunks, one that is not text, and an
unfinished one with an error of its own. -/
theorem runPrompt_of_broken_line :
    let s := (start ⟨none, []⟩ ⟨none, []⟩).serveAll [.run "@"]
    let chunks : List Chunk := [⟨[0x31], by decide⟩, ⟨[0x0A, 0xFF, 0x0A, 0x40], by decide⟩]
    let (after, result) := s.runPrompt (Feed.ofDeliveries (chunks.map .chunk))
    result = .ok () ∧
      after.out.written =
        Utf8.encode "EOF  null\n> NUMBER 1 1.0\nEOF  null\n> > EOF  null\n> " ∧
      after.log.writer.written = Utf8.encode ("[line 1] Error: Unexpected character.\n" ++
        "[line 1] Error: stream did not contain valid UTF-8\n" ++
        "[line 1] Error: Unexpected character.\n") ∧
      after.log.pending = [] ∧ after.reported = 0 := by
  intro s chunks
  obtain ⟨lines, -, hunique, -, hresult, hout, hlog, hpending, hreported⟩ :=
    runPrompt_of_history [] [] [.run "@"] chunks
  have hlast : Feed.FallsInto [0x40] [[0x40]] := .last (by decide) (by decide)
  have hrest : Feed.FallsInto ([0xFF] ++ 0x0A :: [0x40]) [[0xFF], [0x40]] :=
    .newline (by decide) (by decide) hlast
  have hfalls : Feed.FallsInto ([0x31] ++ 0x0A :: [0xFF, 0x0A, 0x40]) [[0x31], [0xFF], [0x40]] :=
    .newline (by decide) (by decide) hrest
  obtain rfl := hunique _ hfalls
  exact ⟨hresult, hout.trans (by decide +kernel), hlog.trans (by decide +kernel), hpending,
    hreported⟩

end LoxScan.Session
