import LoxScan.Proofs.Suite.MarkForms
import LoxScan.Source.Piece
import LoxScan.Suite.Expectation
import LoxScan.Suite.Verdict

/-!
# Marks read back

A mark that stands at the front of a line is found there with what it carries, and a line in which
no mark can begin has none.  So a comment that states an output or an error is read as exactly
that, and a displayed error is recognised as itself.
-/

namespace LoxScan.Suite.Mark

/-- A mark that begins with a fixed word is found in a comment without further slashes only where
the comment itself begins. -/
theorem leftmost?_comment_eq_none {α : Type} {read : Reader α} (word : String)
    (hread : ∀ text, skip word text = none → read text = none)
    (hword : word.toList.head? = some '/') {text : List Char} (htext : '/' ∉ text)
    (hboth : ¬ word.toList <+: '/' :: '/' :: text) (hone : ¬ word.toList <+: '/' :: text) :
    leftmost? read ('/' :: '/' :: text) = none := by
  have hnone : ∀ later, later.head? ≠ some '/' → read later = none := fun later hlater ↦
    hread later (skip_eq_none_iff.2 (not_prefix_of_head? hword hlater))
  rw [leftmost?_cons_of_none (hread _ (skip_eq_none_iff.2 hboth)),
    leftmost?_cons_of_none (hread _ (skip_eq_none_iff.2 hone))]
  exact leftmost?_eq_none_of_not_mem hnone htext

theorem exclusion?_eq_none_iff {line : String} :
    exclusion? line = none ↔ ¬ "// nontest".toList <:+: line.toList := by
  rw [exclusion?, leftmost?_eq_none_iff, List.infix_iff_prefix_suffix, not_exists]
  refine forall_congr' fun later ↦ ?_
  rw [readExclusion, Option.map_eq_none_iff, skip_eq_none_iff, not_and']

/-- Messages that are displayed alike are the same. -/
theorem IsReadable.eq_of_display_eq {m other : LineMessage} (hm : IsReadable m)
    (hother : IsReadable other) (h : m.display = other.display) : m = other := by
  have hread := readLineMessage_display hm
  rw [h, readLineMessage_display hother] at hread
  exact (congrArg Prod.fst (Option.some_inj.1 hread)).symm

/-- No line reports a message in which nothing follows the word for an error. -/
theorem IsReadable.message_ne_of_reported? {m : LineMessage} (hm : IsReadable m) {line : String}
    (h : Verdict.reported? line = some m.display) : m.message ≠ "Error" := by
  obtain ⟨found, hfound, hdisplay⟩ := Option.map_eq_some_iff.1 h
  obtain ⟨front, later, -, ⟨rest, hvalue, hmessage, -, -⟩, -⟩ :=
    readsForm_diagnostic.occursFirst hfound
  rwa [← hvalue.eq_of_display_eq hm hdisplay]

/-- Any other message is recognised as itself when it is displayed. -/
theorem IsReadable.reported?_display {m : LineMessage} (hm : IsReadable m)
    (hmessage : m.message ≠ "Error") : Verdict.reported? m.display = some m.display := by
  obtain ⟨rest, hread⟩ := (readsForm_diagnostic m.display.toList m).1
    ⟨[], hm, hmessage, endsLine_nil, (List.append_nil _).symm⟩
  obtain ⟨whole, hfound⟩ := exists_leftmost?_eq hread
  rw [Verdict.reported?, diagnostic?, hfound, Option.map_some]

/-- What a displayed error reads as. -/
def lineMessage (e : LexicalError) : LineMessage := ⟨toString e.line, "Error: " ++ e.message⟩

theorem display_lineMessage (e : LexicalError) : (lineMessage e).display = e.display := by
  rw [LexicalError.display, LineMessage.display, lineMessage,
    show "] Error: " = "] " ++ "Error: " from rfl]
  simp only [String.append_assoc]

theorem toList_number (e : LexicalError) :
    (lineMessage e).number.toList = Nat.toDigits 10 e.line.toNat := Nat.toList_repr

theorem isDigit_of_mem_number {e : LexicalError} {c : Char}
    (hc : c ∈ (lineMessage e).number.toList) : c.isDigit := by
  rw [toList_number] at hc
  exact Nat.isDigit_of_mem_toDigits (by decide) (by decide) hc

theorem message_ne (cause : LexicalError.Cause) : "Error: " ++ cause.message ≠ "Error" := by
  cases cause <;> decide

theorem not_mem_message {c : Char} (hc : c = '\n' ∨ c = '\r' ∨ c = '/')
    (cause : LexicalError.Cause) : c ∉ ("Error: " ++ cause.message).toList := by
  rcases hc with rfl | rfl | rfl <;> cases cause <;> decide

theorem isReadable_lineMessage (e : LexicalError) : IsReadable (lineMessage e) := by
  refine isReadable_of_isMessage e.line.toNat ⟨?_, not_mem_message (.inl rfl) e.cause⟩
  rw [String.toList_append]
  exact (List.prefix_append "Error".toList ": ".toList).trans (List.prefix_append _ _)

/-- An error is displayed on a single line and without a slash. -/
theorem not_mem_display {c : Char} (hc : c = '\n' ∨ c = '\r' ∨ c = '/') (e : LexicalError) :
    c ∉ e.display.toList := by
  have hmessage : c ∉ (lineMessage e).message.toList := not_mem_message hc e.cause
  have hplain : ¬ c.isDigit ∧ c ∉ "[line ".toList ∧ c ∉ "] ".toList := by
    rcases hc with rfl | rfl | rfl <;> decide
  have hnumber : c ∉ (lineMessage e).number.toList := fun hmem ↦
    hplain.1 (isDigit_of_mem_number hmem)
  rw [← display_lineMessage]
  exact not_mem_toList_display hplain.2 hnumber hmessage

theorem exists_toList_display (e : LexicalError) : ∃ rest, e.display.toList = '[' :: rest := by
  rw [← display_lineMessage, toList_display]
  exact ⟨_, rfl⟩

/-- A displayed error is recognised as itself. -/
theorem reported?_display (e : LexicalError) :
    Verdict.reported? e.display = some e.display := by
  rw [← display_lineMessage]
  exact (isReadable_lineMessage e).reported?_display (message_ne e.cause)

theorem lineMessage_injective {e f : LexicalError} (h : lineMessage e = lineMessage f) : e = f := by
  have hline : e.line.toNat = f.line.toNat := by
    have hvalue := congrArg (fun m : LineMessage ↦ Nat.ofDigitChars 10 m.number.toList 0) h
    rwa [toList_number, toList_number, Nat.ofDigitChars_toDigits (by decide) (by decide),
      Nat.ofDigitChars_toDigits (by decide) (by decide)] at hvalue
  have hcause (c d : LexicalError.Cause) : "Error: " ++ c.message = "Error: " ++ d.message →
      c = d := by
    cases c <;> cases d <;> decide
  calc
    e = ⟨e.line, e.cause⟩ := rfl
    _ = ⟨f.line, f.cause⟩ := by
      rw [UInt32.toNat_inj.1 hline, hcause _ _ (congrArg LineMessage.message h)]
    _ = f := rfl

/-- Errors that are displayed alike are the same. -/
theorem display_injective {e f : LexicalError} (h : e.display = f.display) : e = f := by
  rw [← display_lineMessage, ← display_lineMessage] at h
  exact lineMessage_injective
    ((isReadable_lineMessage e).eq_of_display_eq (isReadable_lineMessage f) h)

end LoxScan.Suite.Mark
