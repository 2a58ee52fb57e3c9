import LoxScan.Proofs.Session.Unlimited
import LoxScan.Proofs.Source.Extension

/-!
# Reading a dump back

The lines of a dump are neither escaped nor counted, and the body of a string may imitate whole
lines of a dump.  A dump is read back all the same: the kind of a token, which holds no space,
tells how its lexeme ends, a string at its second quote and anything else at the next space, and
the lexeme tells the value.  So every line of a dump ends where its token says, whatever follows.
-/

namespace LoxScan

open Text (Utf8.encode)

/-- Fields that do not hold the separator behind them are told apart. -/
theorem field_eq_of_append {α : Type} {separator : α} {a b x y : List α} (ha : separator ∉ a)
    (hb : separator ∉ b) (h : a ++ separator :: x = b ++ separator :: y) : a = b := by
  induction a generalizing b with
  | nil =>
    cases b with
    | nil => rfl
    | cons d b => exact absurd (List.cons.inj h).1 (List.ne_of_not_mem_cons hb)
  | cons c a ih =>
    cases b with
    | nil => exact absurd (List.cons.inj h).1.symm (List.ne_of_not_mem_cons ha)
    | cons d b =>
      obtain ⟨rfl, htail⟩ := List.cons.inj h
      have hfield := ih (List.not_mem_of_not_mem_cons ha) (List.not_mem_of_not_mem_cons hb) htail
      rw [hfield]

namespace Token

/-- What a dump is to tell of a token, which is everything but its line. -/
def content (t : Token) : Kind × String × Option Literal := (t.kind, t.lexeme, t.literal)

theorem Kind.space_not_mem_name (k : Kind) : ' ' ∉ k.name.toList := by
  cases k with
  | punctuator p => cases p <;> decide
  | keyword k => cases k <;> decide
  | _ => decide

theorem Kind.find?_name (k : Kind) : all.find? (fun other ↦ other.name == k.name) = some k := by
  cases k with
  | punctuator p => cases p <;> decide
  | keyword k => cases k <;> decide
  | _ => decide

/-- No two kinds have the same name. -/
theorem Kind.eq_of_name_eq {k l : Kind} (h : k.name = l.name) : k = l := by
  have hk := k.find?_name
  rw [h, l.find?_name] at hk
  exact (Option.some.inj hk).symm

/-- The last field of a line. -/
def shownValue (literal : Option Literal) : List Char :=
  ((literal.map Literal.display).getD "null").toList

/-- The line of a dump that shows a token. -/
def dumpLine (t : Token) : List Char :=
  t.kind.name.toList ++ ' ' :: (t.lexeme.toList ++ ' ' :: (shownValue t.literal ++ ['\n']))

theorem toList_display (t : Token) : (t.display ++ "\n").toList = t.dumpLine := by
  simp [display, dumpLine, shownValue]

/-- A token that is spelled as its kind asks, or marks the end. -/
def IsWritten (t : Token) : Prop :=
  Grammar.Spells t.kind t.literal t.lexeme.toList ∨ ∃ line, t = endOfText line

variable {t u : Token} {x y : List Char}

theorem IsWritten.space_not_mem (h : t.IsWritten) (hkind : t.kind ≠ .string) :
    ' ' ∉ t.lexeme.toList := by
  rcases h with hspells | ⟨line, rfl⟩
  · intro hspace
    exact hspells.not_isBlank_of_mem hkind ' ' hspace (by decide)
  · exact List.not_mem_nil

theorem IsWritten.exists_body (h : t.IsWritten) (hkind : t.kind = .string) :
    ∃ body, '"' ∉ body ∧ t.lexeme.toList = '"' :: (body ++ ['"']) := by
  rcases h with hspells | ⟨line, rfl⟩
  · rw [hkind] at hspells
    generalize t.lexeme.toList = text, t.literal = literal at *
    cases hspells with
    | @string body hbody => exact ⟨body, hbody, rfl⟩
  · cases hkind

/-- The kind tells where a lexeme ends. -/
theorem IsWritten.lexeme_eq (ht : t.IsWritten) (hu : u.IsWritten) (hkind : t.kind = u.kind)
    (h : t.lexeme.toList ++ ' ' :: x = u.lexeme.toList ++ ' ' :: y) : t.lexeme = u.lexeme := by
  apply String.toList_injective
  by_cases hstring : t.kind = .string
  · obtain ⟨body, hbody, htext⟩ := ht.exists_body hstring
    obtain ⟨other, hother, hutext⟩ := hu.exists_body (hkind ▸ hstring)
    have hquoted : body ++ '"' :: ' ' :: x = other ++ '"' :: ' ' :: y := by
      simpa [htext, hutext] using h
    rw [htext, hutext, field_eq_of_append hbody hother hquoted]
  · exact field_eq_of_append (ht.space_not_mem hstring) (hu.space_not_mem (hkind ▸ hstring)) h

/-- The lexeme tells the value. -/
theorem IsWritten.literal_eq (ht : t.IsWritten) (hu : u.IsWritten) (hkind : t.kind = u.kind)
    (hlexeme : t.lexeme = u.lexeme) : t.literal = u.literal := by
  rcases ht with ht | ⟨line, rfl⟩
  · rcases hu with hu | ⟨line, rfl⟩
    · rw [hlexeme] at ht
      exact (ht.unique hu).2
    · exact absurd hkind ht.kind_ne_endOfText
  · rcases hu with hu | ⟨line', rfl⟩
    · exact absurd hkind.symm hu.kind_ne_endOfText
    · rfl

/-- A line tells its token whatever follows it, and so tells what follows it. -/
theorem IsWritten.content_eq_of_append (ht : t.IsWritten) (hu : u.IsWritten)
    (h : t.dumpLine ++ x = u.dumpLine ++ y) : t.content = u.content ∧ x = y := by
  unfold dumpLine at h
  simp only [List.append_assoc, List.cons_append] at h
  have hkind : t.kind = u.kind := by
    apply Kind.eq_of_name_eq
    apply String.toList_injective
    exact field_eq_of_append t.kind.space_not_mem_name u.kind.space_not_mem_name h
  rw [hkind, List.append_cancel_left_eq, List.cons_inj_right] at h
  have hlexeme := ht.lexeme_eq hu hkind h
  have hliteral := ht.literal_eq hu hkind hlexeme
  rw [hlexeme, hliteral] at h
  refine ⟨?_, ?_⟩
  · unfold content
    rw [hkind, hlexeme, hliteral]
  · simpa using h

/-- Lines one after another tell their tokens. -/
theorem map_content_eq_of_flatMap {ts us : List Token} (hts : ∀ t ∈ ts, t.IsWritten)
    (hus : ∀ u ∈ us, u.IsWritten) (h : ts.flatMap dumpLine = us.flatMap dumpLine) :
    ts.map content = us.map content := by
  have hne (t : Token) (rest : List Char) : t.dumpLine ++ rest ≠ [] := by simp [dumpLine]
  induction ts generalizing us with
  | nil =>
    cases us with
    | nil => rfl
    | cons u us => exact absurd h.symm (hne u _)
  | cons t ts ih =>
    cases us with
    | nil => exact absurd h (hne t _)
    | cons u us =>
      obtain ⟨ht, hts⟩ := List.forall_mem_cons.1 hts
      obtain ⟨hu, hus⟩ := List.forall_mem_cons.1 hus
      rw [List.flatMap_cons, List.flatMap_cons] at h
      obtain ⟨hcontent, hrest⟩ := ht.content_eq_of_append hu h
      rw [List.map_cons, List.map_cons, hcontent, ih hts hus hrest]

/-- What is shown of a token is a function of its content. -/
theorem flatMap_dumpLine_eq_of_map {ts us : List Token} (h : ts.map content = us.map content) :
    ts.flatMap dumpLine = us.flatMap dumpLine := by
  let shown : Kind × String × Option Literal → List Char := fun c ↦
    (Token.mk c.1 c.2.1 c.2.2 0).dumpLine
  have hshown (tokens : List Token) :
      tokens.flatMap dumpLine = (tokens.map content).flatMap shown := by
    rw [List.flatMap_map]
    rfl
  rw [hshown, hshown, h]

end Token

namespace Scan

theorem toList_dump (s : Scan) : s.dump.toList = s.tokens.flatMap Token.dumpLine := by
  rw [dump, String.toList_join, List.flatMap_map]
  congr 1
  funext t
  exact t.toList_display

theorem isWritten_of_mem_tokens {source : String} {t : Token}
    (ht : t ∈ (ofText source).tokens) : t.IsWritten := by
  rw [Grammar.tokens_ofText, List.mem_append, List.mem_singleton] at ht
  rcases ht with ht | rfl
  · exact .inl (Grammar.spells_of_mem_tokensAfter ht)
  · exact .inr ⟨_, rfl⟩

theorem dump_eq_iff {a b : String} :
    (ofText a).dump = (ofText b).dump ↔
      (ofText a).tokens.map Token.content = (ofText b).tokens.map Token.content := by
  rw [← String.toList_inj, toList_dump, toList_dump]
  constructor
  · intro h
    exact Token.map_content_eq_of_flatMap (fun _ ↦ isWritten_of_mem_tokens)
      (fun _ ↦ isWritten_of_mem_tokens) h
  · exact Token.flatMap_dumpLine_eq_of_map

/-- The body of a string may look like a line of a dump, in its lexeme and in its value. -/
example : (ofText "\"\nPLUS + null\n\"").dump =
    "STRING \"\nPLUS + null\n\" \nPLUS + null\n\nEOF  null\n" := by decide +kernel

end Scan

namespace Session

/-- What a run adds to the output. -/
def printedBy (s : Session) (source : String) : List UInt8 :=
  (s.run source).1.out.written.drop s.out.written.length

theorem Unhindered.printedBy {s : Session} (h : s.Unhindered) (source : String) :
    s.printedBy source = Utf8.encode (Scan.ofText source).dump := by
  rw [Session.printedBy, h.run source]
  exact List.drop_left

/-- Two runs over unlimited writers, after any histories, print the same bytes iff the two texts
have the same tokens, one by one, in kind, lexeme and value. -/
theorem printedBy_eq_iff (shown told shown' told' : List UInt8) (history history' : List Request)
    (a b : String) :
    let s := (start ⟨none, shown⟩ ⟨none, told⟩).serveAll history
    let t := (start ⟨none, shown'⟩ ⟨none, told'⟩).serveAll history'
    s.printedBy a = t.printedBy b ↔
      (Scan.ofText a).tokens.map (fun t ↦ (t.kind, t.lexeme, t.literal)) =
        (Scan.ofText b).tokens.map (fun t ↦ (t.kind, t.lexeme, t.literal)) := by
  intro s t
  have hs : s.Unhindered := preserved_unhindered.serveAll (unhindered_start shown told) history
  have ht : t.Unhindered :=
    preserved_unhindered.serveAll (unhindered_start shown' told') history'
  have hencode : Utf8.encode (Scan.ofText a).dump = Utf8.encode (Scan.ofText b).dump ↔
      (Scan.ofText a).dump = (Scan.ofText b).dump := by
    constructor
    · intro h
      have hdecode := Text.Utf8.decode?_encode (Scan.ofText a).dump
      rw [h, Text.Utf8.decode?_encode] at hdecode
      exact (Option.some.inj hdecode).symm
    · exact congrArg Utf8.encode
  rw [hs.printedBy, ht.printedBy, hencode]
  exact Scan.dump_eq_iff

end Session

end LoxScan
