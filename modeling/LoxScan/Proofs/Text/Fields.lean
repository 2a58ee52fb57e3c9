import Mathlib.Data.List.Basic
import LoxScan.Text.Basic

/-!
# Fields of text

The fields between separators are what the library's splitting of lists gives.  Joining them with
the separator restores the text, and texts without separators are the fields of what joining them
gives.  The separator of paths takes one byte.
-/

namespace LoxScan.Text.Split

theorem fieldsOf_eq_splitOn (separator : Char) (text : List Char) :
    fieldsOf separator text = text.splitOn separator := by
  induction text with
  | nil => rfl
  | cons c rest ih =>
    have hextend (fields : List (List Char)) (hfields : fields ≠ []) :
        extendFirst c fields = fields.modifyHead (c :: ·) := by
      cases fields with
      | nil => exact absurd rfl hfields
      | cons field fields => rfl
    rw [fieldsOf, List.splitOn_cons_eq_if_modifyHead, ih,
      hextend _ (List.splitOn_ne_nil separator rest)]
    simp only [beq_iff_eq]

theorem fields_eq_splitOn (separator : Char) (text : String) :
    fields separator text = (text.toList.splitOn separator).map String.ofList := by
  rw [fields, fieldsOf_eq_splitOn]

theorem fields_ne_nil (separator : Char) (text : String) : fields separator text ≠ [] := by
  simp [fields_eq_splitOn]

/-- The fields in front of a separator and those behind it. -/
theorem fields_append (separator : Char) (text later : String) :
    fields separator (text ++ String.singleton separator ++ later) =
      fields separator text ++ fields separator later := by
  rw [fields_eq_splitOn, String.toList_append, String.toList_append, String.toList_singleton,
    List.append_assoc, List.singleton_append, List.splitOn_append_cons_self, List.map_append,
    ← fields_eq_splitOn, ← fields_eq_splitOn]

theorem map_toList_fields (separator : Char) (text : String) :
    (fields separator text).map String.toList = text.toList.splitOn separator := by
  rw [fields_eq_splitOn, List.map_map]
  simp [Function.comp_def]

theorem intercalate_fields (text : String) : String.intercalate "/" (fields '/' text) = text := by
  apply String.toList_injective
  rw [String.toList_intercalate, map_toList_fields]
  exact List.intercalate_splitOn '/'

/-- Names without separators are read back from the path they make. -/
theorem fields_intercalate {names : List String} (hne : names ≠ [])
    (hnames : ∀ name ∈ names, '/' ∉ name.toList) :
    fields '/' (String.intercalate "/" names) = names := by
  have hsplit : List.splitOn '/' (['/'].intercalate (names.map String.toList)) =
      names.map String.toList :=
    List.splitOn_intercalate '/' (by simpa using hnames) (by simpa using hne)
  rw [fields_eq_splitOn, String.toList_intercalate]
  change (List.splitOn '/' (['/'].intercalate _)).map _ = _
  rw [hsplit, List.map_map]
  simp [Function.comp_def]

theorem separator_not_mem_fieldsOf (separator : Char) (text : List Char) :
    ∀ field ∈ fieldsOf separator text, separator ∉ field := by
  induction text with
  | nil => simp [fieldsOf]
  | cons c rest ih =>
    rw [fieldsOf]
    split
    · exact List.forall_mem_cons.2 ⟨List.not_mem_nil, ih⟩
    · next hc =>
      cases hfields : fieldsOf separator rest with
      | nil => simpa [extendFirst] using Ne.symm hc
      | cons field fields =>
        rw [hfields] at ih
        obtain ⟨hfield, hlater⟩ := List.forall_mem_cons.1 ih
        have hfirst := List.not_mem_cons_of_ne_of_not_mem (Ne.symm hc) hfield
        exact List.forall_mem_cons.2 ⟨hfirst, hlater⟩

theorem separator_not_mem_fields {separator : Char} {text name : String}
    (h : name ∈ fields separator text) : separator ∉ name.toList := by
  obtain ⟨field, hfield, rfl⟩ := List.mem_map.1 h
  rw [String.toList_ofList]
  exact separator_not_mem_fieldsOf separator text.toList field hfield

theorem mem_of_mem_fieldsOf {separator : Char} {text : List Char} :
    ∀ field ∈ fieldsOf separator text, ∀ c ∈ field, c ∈ text := by
  induction text with
  | nil => simp [fieldsOf]
  | cons d rest ih =>
    have hlater : ∀ field ∈ fieldsOf separator rest, ∀ c ∈ field, c ∈ d :: rest :=
      fun field hfield c hc ↦ List.mem_cons_of_mem d (ih field hfield c hc)
    rw [fieldsOf]
    split
    · exact List.forall_mem_cons.2 ⟨List.forall_mem_nil _, hlater⟩
    · cases hfields : fieldsOf separator rest with
      | nil => simp [extendFirst]
      | cons field fields =>
        rw [hfields] at hlater
        obtain ⟨hfield, hfields⟩ := List.forall_mem_cons.1 hlater
        exact List.forall_mem_cons.2
          ⟨List.forall_mem_cons.2 ⟨List.mem_cons_self, hfield⟩, hfields⟩

/-- Fields hold characters of the text only. -/
theorem mem_of_mem_fields {separator : Char} {text name : String} (h : name ∈ fields separator text)
    {c : Char} (hc : c ∈ name.toList) : c ∈ text.toList := by
  obtain ⟨field, hfield, rfl⟩ := List.mem_map.1 h
  rw [String.toList_ofList] at hc
  exact mem_of_mem_fieldsOf field hfield c hc

/-- The first field is empty iff there is nothing in front of the first separator. -/
theorem head?_fields_eq_empty (separator : Char) (text : String) :
    (fields separator text).head? = some "" ↔
      text = "" ∨ text.toList.head? = some separator := by
  rw [fields, ← String.toList_eq_nil_iff]
  cases text.toList with
  | nil => simp [fieldsOf]
  | cons c rest =>
    rw [fieldsOf]
    split
    · next hc => simp [hc]
    · next hc => cases fieldsOf separator rest <;> simp [extendFirst, hc]

/-- The bytes of names with a separator behind each. -/
def sizeOfNames : List String → Nat
  | [] => 0
  | name :: names => name.utf8ByteSize + 1 + sizeOfNames names

theorem sizeOfNames_append (names later : List String) :
    sizeOfNames (names ++ later) = sizeOfNames names + sizeOfNames later := by
  induction names with
  | nil => exact (Nat.zero_add _).symm
  | cons name names ih => simp only [List.cons_append, sizeOfNames, ih, Nat.add_assoc]

theorem utf8ByteSize_intercalate {names : List String} (hne : names ≠ []) :
    (String.intercalate "/" names).utf8ByteSize + 1 = sizeOfNames names := by
  induction names with
  | nil => exact absurd rfl hne
  | cons name names ih =>
    by_cases hnil : names = []
    · simp [hnil, sizeOfNames]
    · have hrest := ih hnil
      rw [String.intercalate_cons_of_ne_nil hnil, String.utf8ByteSize_append,
        String.utf8ByteSize_append]
      rw [sizeOfNames]
      have hseparator : "/".utf8ByteSize = 1 := rfl
      omega

theorem sizeOfNames_fields (text : String) :
    sizeOfNames (fields '/' text) = text.utf8ByteSize + 1 := by
  rw [← utf8ByteSize_intercalate (fields_ne_nil '/' text), intercalate_fields]

end LoxScan.Text.Split
