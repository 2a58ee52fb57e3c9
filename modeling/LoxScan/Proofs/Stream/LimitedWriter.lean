import LoxScan.Stream.Writer

/-!
# What a limited writer takes

A writer never holds more than its limit allows, and of everything it is offered it takes the
longest beginning that there is room for.  What arrives in many writes is therefore what would
arrive in one.
-/

namespace LoxScan.Writer

/-- Bytes that may stand behind those a writer has taken already. -/
def Fits (limit : Option Nat) (written bytes : List UInt8) : Prop :=
  ∀ most ∈ limit, (written ++ bytes).length ≤ most

/-- The longest beginning of the offered bytes that fits. -/
structure Takes (limit : Option Nat) (written offered taken : List UInt8) : Prop where
  beginning : taken <+: offered
  fits : Fits limit written taken
  longest : ∀ other, other <+: offered → Fits limit written other → other <+: taken

/-- A writer that has kept to its limit. -/
def Keeps (limit : Option Nat) (w : Writer) : Prop := w.limit = limit ∧ Fits limit w.written []

theorem keeps_withLimit (limit : Option Nat) : (withLimit limit).Keeps limit :=
  ⟨rfl, fun most _ ↦ Nat.zero_le most⟩

theorem takes_all (written offered : List UInt8) : Takes none written offered offered where
  beginning := List.prefix_rfl
  fits := by rintro _ ⟨⟩
  longest _ hother _ := hother

theorem takes_take {most : Nat} {written : List UInt8} (h : written.length ≤ most)
    (offered : List UInt8) :
    Takes (some most) written offered (offered.take (most - written.length)) where
  beginning := List.take_prefix _ _
  fits := by
    rintro _ ⟨⟩
    rw [List.length_append, List.length_take]
    omega
  longest other hother hfits := by
    have hlength : (written ++ other).length ≤ most := hfits most rfl
    rw [List.length_append] at hlength
    exact List.prefix_take_iff.2 ⟨hother, by omega⟩

variable {limit : Option Nat} {w : Writer}

theorem accept_of_unlimited (hw : w.limit = none) (bytes : List UInt8) :
    w.accept bytes = ({ w with written := w.written ++ bytes }, []) := by
  simp [accept, room, hw]

theorem accept_of_limited {most : Nat} (hw : w.limit = some most) (bytes : List UInt8) :
    w.accept bytes =
      ({ w with written := w.written ++ bytes.take (most - w.written.length) },
        bytes.drop (most - w.written.length)) := by
  simp [accept, room, hw]

theorem Keeps.length_written_le {most : Nat} (hw : w.Keeps (some most)) :
    w.written.length ≤ most := by
  have hfits := hw.2 most rfl
  rwa [List.append_nil] at hfits

/-- What a writer takes of a write, and what it leaves over. -/
theorem Keeps.exists_accept (hw : w.Keeps limit) (bytes : List UInt8) :
    ∃ taken, Takes limit w.written bytes taken ∧
      (w.accept bytes).1 = { w with written := w.written ++ taken } ∧
      taken ++ (w.accept bytes).2 = bytes := by
  cases limit with
  | none =>
    rw [accept_of_unlimited hw.1]
    exact ⟨bytes, takes_all _ _, rfl, List.append_nil bytes⟩
  | some most =>
    rw [accept_of_limited hw.1]
    exact ⟨_, takes_take hw.length_written_le bytes, rfl, List.take_append_drop _ bytes⟩

theorem Keeps.accept (hw : w.Keeps limit) (bytes : List UInt8) :
    (w.accept bytes).1.Keeps limit := by
  obtain ⟨taken, htakes, haccept, -⟩ := hw.exists_accept bytes
  rw [haccept]
  refine ⟨hw.1, ?_⟩
  intro most hmost
  rw [List.append_nil]
  exact htakes.fits most hmost

theorem Keeps.exists_write (hw : w.Keeps limit) (bytes : List UInt8) :
    ∃ taken, Takes limit w.written bytes taken ∧
      w.write bytes = ({ w with written := w.written ++ taken },
        if taken = bytes then .ok () else .error .limitReached) := by
  obtain ⟨taken, htakes, haccept, hsplit⟩ := hw.exists_accept bytes
  have hrest : (w.accept bytes).2 = [] ↔ taken = bytes := by
    have hself : taken ++ (w.accept bytes).2 = taken ↔ (w.accept bytes).2 = [] :=
      List.append_right_eq_self
    rw [← hself, hsplit, eq_comm]
  refine ⟨taken, htakes, ?_⟩
  simp only [Writer.write, haccept, List.isEmpty_iff, hrest]

/-- Whatever was offered so far has arrived up to the limit. -/
theorem Keeps.written_accept {most : Nat} (hw : w.Keeps (some most)) (bytes : List UInt8) :
    (w.accept bytes).1.written = (w.written ++ bytes).take most := by
  rw [accept_of_limited hw.1, List.take_append, List.take_of_length_le hw.length_written_le]

theorem Keeps.accept_snd_eq_nil_iff {most : Nat} (hw : w.Keeps (some most)) (bytes : List UInt8) :
    (w.accept bytes).2 = [] ↔ (w.written ++ bytes).length ≤ most := by
  have hroom := hw.length_written_le
  rw [accept_of_limited hw.1, List.drop_eq_nil_iff, List.length_append]
  omega

theorem limit_accept (w : Writer) (bytes : List UInt8) : (w.accept bytes).1.limit = w.limit := by
  rw [accept]
  split <;> rfl

/-- What a writer takes and leaves over of a second write that begins with what is left of the
first is what it takes and leaves over of both at once. -/
theorem accept_append (w : Writer) (bytes later : List UInt8) :
    w.accept (bytes ++ later) = (w.accept bytes).1.accept ((w.accept bytes).2 ++ later) := by
  cases hlimit : w.limit with
  | none =>
    have hsecond := accept_of_unlimited ((w.limit_accept bytes).trans hlimit)
      ((w.accept bytes).2 ++ later)
    rw [hsecond, accept_of_unlimited hlimit, accept_of_unlimited hlimit, List.nil_append,
      List.append_assoc]
  | some most =>
    have hsecond := accept_of_limited ((w.limit_accept bytes).trans hlimit)
      ((w.accept bytes).2 ++ later)
    rw [hsecond, accept_of_limited hlimit, accept_of_limited hlimit]
    dsimp only
    rw [List.length_append, List.length_take, List.take_append, List.drop_append]
    rcases Nat.le_total (most - w.written.length) bytes.length with hfull | hroom
    · have hnone : most - (w.written.length + min (most - w.written.length) bytes.length) = 0 := by
        omega
      rw [hnone, Nat.sub_eq_zero_of_le hfull, List.take_zero, List.take_zero, List.drop_zero,
        List.drop_zero, List.append_nil, List.append_nil]
    · have hleft : most - (w.written.length + min (most - w.written.length) bytes.length) =
          most - w.written.length - bytes.length := by omega
      rw [hleft, List.take_of_length_le hroom, List.drop_of_length_le hroom, List.nil_append,
        List.nil_append, List.append_assoc]

/-- A writer that has left something over takes nothing more. -/
theorem accept_of_left_over {w : Writer} {bytes : List UInt8} (h : (w.accept bytes).2 ≠ [])
    (later : List UInt8) : (w.accept bytes).1.accept later = ((w.accept bytes).1, later) := by
  cases hlimit : w.limit with
  | none =>
    rw [accept_of_unlimited hlimit] at h
    exact absurd rfl h
  | some most =>
    have hsecond := accept_of_limited ((w.limit_accept bytes).trans hlimit) later
    rw [hsecond]
    rw [accept_of_limited hlimit] at h ⊢
    have hfull : most - w.written.length < bytes.length :=
      Nat.lt_of_not_le (mt List.drop_of_length_le h)
    have hnone : most - (w.written ++ bytes.take (most - w.written.length)).length = 0 := by
      rw [List.length_append, List.length_take]
      omega
    dsimp only
    rw [hnone, List.take_zero, List.drop_zero, List.append_nil]

end LoxScan.Writer
