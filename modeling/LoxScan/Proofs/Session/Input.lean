import LoxScan.Proofs.Session.Prompt
import LoxScan.Proofs.Stream.Reading
import LoxScan.Session

/-!
# Prompt sessions and the reads behind them

A prompt session reads its lines one at a time and may end before its input does, but it comes out
as a session over all lines of the input would.  So it makes no difference how bytes are delivered.
A read that fails ends the session behind the lines that are finished by then, unless the failure
claims that the data is invalid: that is taken for a line that is not text, and the session goes on.
-/

namespace LoxScan.Session

open Text (Utf8.encode)

theorem answerLines_eq (s : Session) (input : List Delivery) :
    s.answerLines input = s.runEntries (Feed.ofDeliveries input).entries := by
  induction h : Reader.remaining input using Nat.strongRecOn generalizing s input with
  | _ n ih =>
    rw [answerLines]
    split
    · next hread =>
      rw [Reader.entries_of_readLine?_eq_none hread]
      rfl
    · next line left hread =>
      have hlt : Reader.remaining left < n := h ▸ Reader.remaining_lt hread
      rw [Reader.entries_of_readLine?_eq_some hread, runEntries]
      rcases s.answer (line.bind Feed.decodeLine) with ⟨after, error | _⟩
      · rfl
      · exact ih _ hlt after left rfl

theorem runInput_eq (s : Session) (input : List Delivery) :
    s.runInput input = s.runPrompt (Feed.ofDeliveries input) := by
  rw [runInput, runPrompt]
  rcases s.prompt with ⟨after, error | _⟩
  · rfl
  · exact answerLines_eq after input

/-- However bytes are delivered, a prompt session leaves the same behind and has the same result,
whatever state it starts from and wherever its writers run out of room. -/
theorem runInput_eq_of_delivers (s : Session) {bytes : List UInt8} {input other : List Delivery}
    (hinput : Delivers bytes input) (hother : Delivers bytes other) :
    s.runInput input = s.runInput other := by
  rw [runInput_eq, runInput_eq, hinput.ofDeliveries_eq, hother.ofDeliveries_eq]

/-- Chunks that end inside a character and inside the ending of a line, over writers that run out
of room. -/
theorem runInput_split_character :
    let bytes : List UInt8 := [0xC3, 0xA9, 0x0D, 0x0A, 0x31]
    let whole : List Delivery := [.chunk ⟨bytes, by decide⟩]
    let split : List Delivery :=
      [.chunk ⟨[0xC3], by decide⟩, .failure (.delivered .interrupted "again"),
        .chunk ⟨[0xA9, 0x0D], by decide⟩, .chunk ⟨[0x0A, 0x31], by decide⟩]
    let s := start (Writer.withLimit (some 9)) (Writer.withLimit (some 40))
    Delivers bytes whole ∧ Delivers bytes split ∧ s.runInput whole = s.runInput split := by
  intro bytes whole split s
  have hwhole := Delivers.chunk ⟨bytes, by decide⟩ .nil
  have hlast := Delivers.chunk ⟨[0x0A, 0x31], by decide⟩ .nil
  have hrest := Delivers.chunk ⟨[0xA9, 0x0D], by decide⟩ hlast
  have hagain : (IoError.delivered .interrupted "again").kind = .interrupted := rfl
  have hsplit := Delivers.chunk ⟨[0xC3], by decide⟩ (hrest.interruption hagain)
  exact ⟨hwhole, hsplit, runInput_eq_of_delivers s hwhole hsplit⟩

theorem runEntries_append {s t : Session} {entries : List Entry}
    (h : s.runEntries entries = (t, .ok ())) (later : List Entry) :
    s.runEntries (entries ++ later) = t.runEntries later := by
  induction entries generalizing s with
  | nil =>
    obtain ⟨rfl, -⟩ := Prod.mk.inj h
    rfl
  | cons entry entries ih =>
    rw [runEntries] at h
    rw [List.cons_append, runEntries]
    split at h
    · cases h
    · exact ih h

/-- Nothing that was shown is taken back. -/
theorem preserved_shown (shown : List UInt8) : Preserved fun s ↦ shown <+: s.out.written where
  print s text h := by
    refine h.trans ?_
    simp only [print, Writer.write, Writer.accept]
    split <;> exact List.prefix_append _ _
  report _ _ h := h
  reset _ h := h

/-- A failure that does not claim invalid data ends the session where it is. -/
theorem runEntries_error (s : Session) {error : IoError} (h : error.kind ≠ .invalidData)
    (later : List Entry) : s.runEntries (.error error :: later) = (s, .error error) := by
  simp only [runEntries, answer, enter, if_neg h]

namespace Unhindered

variable {s : Session}

/-- A failure that claims invalid data is reported, and the session goes on. -/
theorem runEntries_invalidData (h : s.Unhindered) {error : IoError}
    (hkind : error.kind = .invalidData) (later : List Entry) :
    s.runEntries (.error error :: later) =
      (s.deliver (Utf8.encode "> ") (Log.lineOf ⟨1, error.message⟩) 0).runEntries later := by
  have hreject : s.reject error =
      (s.deliver [] (Log.lineOf ⟨1, error.message⟩) (s.reported + 1), .ok ()) := by
    have hflush := h.flushLog_reportAll [⟨1, error.message⟩]
    rwa [List.flatMap_singleton, List.length_singleton] at hflush
  have hprompt := (h.deliver [] (Log.lineOf ⟨1, error.message⟩) 0).print "> "
  rw [deliver_deliver, List.append_nil, List.nil_append] at hprompt
  have hanswer : s.answer (.error error) =
      (s.deliver (Utf8.encode "> ") (Log.lineOf ⟨1, error.message⟩) 0, .ok ()) := by
    simp only [Session.answer, Session.enter, if_pos hkind, hreject]
    exact hprompt
  rw [Session.runEntries, hanswer]

/-- The session after some lines have been answered, each between two prompts. -/
theorem runPrompt_append (h : s.Unhindered) {lines : List (List UInt8)} {feed : Feed}
    {later : List Entry} (hfeed : feed.entries = lines.map Feed.decodeLine ++ later) :
    s.runPrompt feed =
      (s.deliver (Utf8.encode "> " ++ lines.flatMap fun line ↦ shownFor line ++ Utf8.encode "> ")
          (lines.flatMap toldFor) (if lines = [] then s.reported else 0)).runEntries later := by
  have hlines := (h.deliver (Utf8.encode "> ") [] s.reported).runEntries lines
  rw [deliver_deliver, List.nil_append] at hlines
  simp only [Session.runPrompt, prompt, h.print, hfeed]
  exact runEntries_append hlines later

end Unhindered

/-- What is read before a failing read are the lines that are finished by then. -/
theorem entries_append_failure {before after : List Delivery} {error : IoError}
    (hbefore : ∀ d ∈ before, ¬ d.Fails) (herror : error.kind ≠ .interrupted)
    {finished unfinished : List UInt8} {lines : List (List UInt8)}
    (hbytes : before.flatMap Delivery.bytes = finished ++ unfinished)
    (hfinished : Feed.Finished finished) (hunfinished : 0x0A ∉ unfinished)
    (hlines : Feed.FallsInto finished lines) :
    (Feed.ofDeliveries (before ++ .failure error :: after)).entries =
      lines.map Feed.decodeLine ++ .error error :: (Feed.ofDeliveries after).entries := by
  rw [Feed.entries, Feed.ofDeliveries_append_of_not_fails hbefore, hbytes, Feed.ofBytes_append,
    List.append_assoc, hlines.lines_append hfinished, Feed.ofDeliveries_cons_failure herror,
    Feed.lines_ofBytes_append_error hunfinished, List.map_append, List.map_map]
  rfl

/-- After any history, a prompt session over unlimited writers answers exactly the lines that are
finished when the first read fails that is not tried again, and ends with that failure without
another prompt, iff the failure does not claim that the data is invalid.  If it does, it is reported
like a line that is not text, and the session goes on with what comes after it. -/
theorem runInput_of_failing_read (shown told : List UInt8) (history : List Request)
    {before after : List Delivery} {error : IoError} (hbefore : ∀ d ∈ before, ¬ d.Fails)
    (herror : error.kind ≠ .interrupted) :
    ∃ finished unfinished lines, before.flatMap Delivery.bytes = finished ++ unfinished ∧
      Feed.Finished finished ∧ 0x0A ∉ unfinished ∧ Feed.FallsInto finished lines ∧
      let s := (start ⟨none, shown⟩ ⟨none, told⟩).serveAll history
      let answered :=
        s.deliver (Utf8.encode "> " ++ lines.flatMap fun line ↦ shownFor line ++ Utf8.encode "> ")
          (lines.flatMap toldFor) (if lines = [] then s.reported else 0)
      (s.runInput (before ++ .failure error :: after) = (answered, .error error) ↔
          error.kind ≠ .invalidData) ∧
        (error.kind = .invalidData →
          s.runInput (before ++ .failure error :: after) =
            (answered.deliver (Utf8.encode "> ") (Log.lineOf ⟨1, error.message⟩) 0).answerLines
              after) := by
  obtain ⟨finished, unfinished, hbytes, hfinished, hunfinished⟩ :=
    Feed.exists_finished_append (before.flatMap Delivery.bytes)
  obtain ⟨lines, hlines⟩ := Feed.exists_fallsInto finished
  refine ⟨finished, unfinished, lines, hbytes, hfinished, hunfinished, hlines, ?_⟩
  intro s answered
  have hs : s.Unhindered := preserved_unhindered.serveAll (unhindered_start shown told) history
  have hanswered : answered.Unhindered := hs.deliver _ _ _
  have hrun : s.runInput (before ++ .failure error :: after) =
      answered.runEntries (.error error :: (Feed.ofDeliveries after).entries) := by
    rw [runInput_eq]
    exact hs.runPrompt_append
      (entries_append_failure hbefore herror hbytes hfinished hunfinished hlines)
  have hgoesOn (hkind : error.kind = .invalidData) :
      s.runInput (before ++ .failure error :: after) =
        (answered.deliver (Utf8.encode "> ") (Log.lineOf ⟨1, error.message⟩) 0).answerLines
          after := by
    rw [hrun, hanswered.runEntries_invalidData hkind, answerLines_eq]
  refine ⟨⟨fun hends hkind ↦ ?_, fun hkind ↦ ?_⟩, hgoesOn⟩
  · let reported := answered.deliver (Utf8.encode "> ") (Log.lineOf ⟨1, error.message⟩) 0
    have hshown : reported.out.written <+: (reported.answerLines after).1.out.written := by
      rw [answerLines_eq]
      exact (preserved_shown _).runEntries (List.prefix_refl _) _
    rw [← hgoesOn hkind, hends] at hshown
    have hlength : (answered.out.written ++ Utf8.encode "> ").length ≤
        answered.out.written.length := hshown.length_le
    rw [List.length_append, show (Utf8.encode "> ").length = 2 from rfl] at hlength
    omega
  · rw [hrun]
    exact runEntries_error answered hkind _

/-- A character over two chunks and an interruption, a line that is not text, and an unfinished line
in front of the failure. -/
theorem runInput_of_lost_connection :
    let before : List Delivery :=
      [.chunk ⟨[0x22, 0xC3], by decide⟩, .failure (.delivered .interrupted "again"),
        .chunk ⟨[0xA9, 0x22, 0x0D, 0x0A, 0xFF, 0x0A, 0x31], by decide⟩]
    let error : IoError := .delivered .other "lost"
    (∀ d ∈ before, ¬ d.Fails) ∧ error.kind ≠ .interrupted ∧
      ((start ⟨none, []⟩ ⟨none, []⟩).runInput
        (before ++ .failure error :: [.chunk ⟨[0x32, 0x0A], by decide⟩])).2 = .error error := by
  intro before error
  have hbefore : ∀ d ∈ before, ¬ d.Fails := by simp [before, Delivery.Fails, IoError.kind]
  have herror : error.kind ≠ .interrupted := by decide
  obtain ⟨_, _, _, -, -, -, -, hends, -⟩ :=
    @runInput_of_failing_read [] [] [] before [.chunk ⟨[0x32, 0x0A], by decide⟩] error hbefore
      herror
  exact ⟨hbefore, herror, congrArg Prod.snd (hends.2 (by decide))⟩

/-- The failure is reported like a line that is not text, a second prompt follows it at once, and
the session succeeds. -/
theorem runInput_passes_over_invalidData :
    let error : IoError := .delivered .invalidData "bad data"
    let ended := (start ⟨none, []⟩ ⟨none, []⟩).runInput
      [.chunk ⟨Utf8.encode "1\n", by decide⟩, .failure error,
        .chunk ⟨Utf8.encode "2\n", by decide⟩]
    ended.2 ≠ .error error ∧ ended.2 = .ok () ∧
      ended.1.out.written =
        Utf8.encode "> NUMBER 1 1.0\nEOF  null\n> > NUMBER 2 2.0\nEOF  null\n> " ∧
      ended.1.log.writer.written = Utf8.encode "[line 1] Error: bad data\n" := by
  dsimp only
  rw [runInput_eq]
  decide +kernel

end LoxScan.Session
