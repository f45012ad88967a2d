import PluginPack.Proofs.Manifest.ReadBack
import PluginPack.Proofs.Toml.Grammar

/-!
# A written manifest as a TOML document

What a reader of TOML finds in a manifest that was written from a template. Five characters are
written as escapes, and every other one as it stands, which a string of TOML lets all characters do
but the control characters. So the manifest is a TOML document, and gives back the template, exactly
when no value holds a control character other than the tab, the newline and the carriage return.
-/

namespace PluginPack.Manifest

open Text Toml

/-! ## Values -/

/-- A character that can be written between the quotes of a value: any but the control characters
that have no escape. -/
def isWritable (c : Char) : Bool := isPlain c || c == '\n' || c == '\r'

variable {c : Char} {k t w : Text}

/-- A character is written with a letter of the grammar behind a backslash, or as it stands. -/
theorem escapeChar_cases (hc : isWritable c = true) :
    (∃ e, escapeChar c = ['\\', e] ∧ (e, c) ∈ letters) ∨
      escapeChar c = [c] ∧ isUnescaped c = true := by
  cases hn : needsEscape c with
  | true =>
    simp only [needsEscape, Bool.or_eq_true, beq_iff_eq] at hn
    rcases hn with (((rfl | rfl) | rfl) | rfl) | rfl <;> exact .inl ⟨_, rfl, by decide⟩
  | false =>
    refine .inr ⟨escapeChar_of_not_needsEscape hn, ?_⟩
    simp only [needsEscape, Bool.or_eq_false_iff, beq_eq_false_iff_ne] at hn
    simp only [isWritable, Bool.or_eq_true, beq_iff_eq, hn.1.1.2, hn.1.2, or_false] at hc
    simp [isUnescaped, hc, hn]

/-- A value that can be written is the string of its escapes. -/
theorem basicString_escape (h : ∀ c ∈ t, isWritable c = true) : BasicString (escape t) t := by
  induction t with
  | nil => exact .nil
  | cons c t ih =>
    have htail := ih fun d hd ↦ h d (List.mem_cons_of_mem c hd)
    rw [escape, List.flatMap_cons, ← escape]
    rcases escapeChar_cases (h c List.mem_cons_self) with ⟨e, heq, he⟩ | ⟨heq, hc⟩
    · rw [heq]
      exact .letter he htail
    · rw [heq]
      exact .unescaped hc htail

/-- Reading the first character of a value. -/
theorem basic?_escapeChar (c : Char) (r : Text) :
    basic? 0 (escapeChar c ++ r) =
      if isWritable c = true then (basic? 0 r).map fun p ↦ (c :: p.1, p.2) else none := by
  split
  · rename_i hc
    rcases escapeChar_cases hc with ⟨e, heq, he⟩ | ⟨heq, hc⟩
    · rw [heq]
      exact basic?_letter he r
    · rw [heq]
      exact basic?_unescaped hc r
  · rename_i hc
    have hn : needsEscape c = false := by
      refine Bool.eq_false_iff.mpr fun hn ↦ hc ?_
      simp only [needsEscape, Bool.or_eq_true, beq_iff_eq] at hn
      rcases hn with (((rfl | rfl) | rfl) | rfl) | rfl <;> decide
    rw [escapeChar_of_not_needsEscape hn, List.singleton_append, basic?]
    simp only [needsEscape, Bool.or_eq_false_iff, beq_eq_false_iff_ne] at hn
    simp only [isWritable, Bool.or_eq_true, beq_iff_eq, not_or, Bool.not_eq_true] at hc
    rw [if_neg hn.1.1.1.2, if_neg hn.1.1.1.1, hc.1.1, if_neg Bool.false_ne_true]

/-- A value is read up to its closing quote, unless a character of it cannot be written. -/
theorem basic?_escape (t r : Text) :
    basic? 0 (escape t ++ '"' :: r) =
      if ∀ c ∈ t, isWritable c = true then some (t, r) else none := by
  induction t with
  | nil => rfl
  | cons c t ih =>
    rw [escape, List.flatMap_cons, ← escape, List.append_assoc, basic?_escapeChar, ih]
    simp only [List.forall_mem_cons]
    split_ifs <;> simp_all

theorem stops_escape (t : Text) : Stops (· == '"') (escape t) := by
  cases t with
  | nil => exact stops_nil
  | cons c t =>
    rw [escape, List.flatMap_cons]
    cases hn : needsEscape c with
    | true =>
      simp only [needsEscape, Bool.or_eq_true, beq_iff_eq] at hn
      rcases hn with (((rfl | rfl) | rfl) | rfl) | rfl <;> exact stops_cons.mpr rfl
    | false =>
      rw [escapeChar_of_not_needsEscape hn]
      simp only [needsEscape, Bool.or_eq_false_iff] at hn
      exact stops_cons.mpr hn.1.1.1.2

namespace Template

variable (m : Template)

/-! ## The manifest -/

/-- A template all of whose values can be written. -/
def IsWritable : Prop :=
  ∀ t ∈ [m.name, m.version, m.description, m.entry, m.authorId.getD [], m.packageId],
    ∀ c ∈ t, isWritable c = true

instance : Decidable m.IsWritable := List.decidableBAll _ _

theorem isWritable_iff : m.IsWritable ↔ ∀ f ∈ m.fields, ∀ c ∈ f.2, isWritable c = true := by
  have hauthor : (∀ c ∈ m.authorId.getD [], isWritable c = true) ↔
      ∀ f ∈ (m.authorId.filter (· ≠ [])).toList.map ("author_id".toList, ·),
        ∀ c ∈ f.2, isWritable c = true := by
    rcases m.authorId with _ | _ | ⟨c, a⟩ <;> simp
  simp only [IsWritable, fields, List.forall_mem_append, ← hauthor, List.forall_mem_cons,
    List.not_mem_nil, false_imp_iff, implies_true, and_true, and_assoc]

theorem isBareKey_of_mem_fields {f : Text × Text} (hf : f ∈ m.fields) : IsBareKey f.1 := by
  have hkeys : ∀ k ∈ keys, k ≠ [] ∧ ∀ c ∈ k, isBareKeyChar c = true := by decide
  exact hkeys f.1 ((map_fst_fields_sublist m).subset (List.mem_map_of_mem hf))

theorem render_eq_flatMap :
    m.render = (('[' :: packageSection ++ [']']) :: m.fields.map line).flatMap (· ++ ['\n']) := by
  rw [render, intercalate_append_newline (List.cons_ne_nil _ _)]

/-- The line of a field stands in the grammar when its value can be written. -/
theorem stringLine_line (hk : IsBareKey k) (h : ∀ c ∈ t, isWritable c = true) :
    StringLine (line (k, t)) (k, t) := by
  have hblank : ∀ c ∈ [' '], isBlank c = true := by decide
  rw [line_eq, List.append_assoc]
  exact .mk hk hblank hblank (basicString_escape h)

/-- What a reader takes from the line of a field: its value, if that can be written. -/
def readable (f : Text × Text) : Text × Option Text :=
  (f.1, if ∀ c ∈ f.2, isWritable c = true then some f.2 else none)

theorem assigns_line (hk : IsBareKey k) (t : Text) : Assigns (line (k, t)) (readable (k, t)) := by
  have hblank : ∀ c ∈ [' '], isBlank c = true := by decide
  rw [line_eq, List.append_assoc]
  refine assigns_quoted [' '] [' '] hk hblank hblank fun r ↦ ?_
  rw [List.append_assoc, List.singleton_append,
    string?_basic (stops_escape t) (stops_cons.mpr rfl), basic?_escape]
  split <;> rfl

/-- The manifest of a template that can be written is a document of the grammar. -/
theorem isStringTable_render (h : m.IsWritable) :
    IsStringTable packageSection m.fields m.render where
  isBareKey := ⟨by decide, by decide⟩
  nodup := nodup_keys m
  exists_lines := by
    refine ⟨m.fields.map line, ?_, m.render_eq_flatMap⟩
    rw [List.forall₂_map_left_iff, List.forall₂_same]
    intro f hf
    exact stringLine_line (m.isBareKey_of_mem_fields hf) (m.isWritable_iff.mp h f hf)

/-- One value that cannot be written keeps a reader from the whole manifest. -/
theorem parse?_render_eq_none (h : ¬m.IsWritable) : Toml.parse? m.render = none := by
  have hassigns : List.Forall₂ Assigns (m.fields.map line) (m.fields.map readable) := by
    rw [List.forall₂_map_left_iff, List.forall₂_map_right_iff, List.forall₂_same]
    exact fun f hf ↦ assigns_line (m.isBareKey_of_mem_fields hf) f.2
  have hnodup : ((m.fields.map readable).map Prod.fst).Nodup := by
    rw [List.map_map]
    exact nodup_keys m
  obtain ⟨f, hf, hvalue⟩ : ∃ f ∈ m.fields, ¬∀ c ∈ f.2, isWritable c = true := by
    simpa [isWritable_iff] using h
  have hnone : (readable f).2 = none := if_neg hvalue
  rw [render_eq_flatMap, parse?_lines ⟨by decide, by decide⟩ hassigns hnodup,
    mapM_stringField?_eq_none (List.mem_map_of_mem hf) hnone]
  rfl

/-- The strings that a manifest holds, with their keys. An author is among them when the template
has one that is not empty. -/
theorem fields_eq :
    m.fields =
      [("name".toList, m.name), ("version".toList, m.version),
        ("description".toList, m.description), ("entry".toList, m.entry)] ++
      (m.authorId.elim [] fun a ↦ if a = [] then [] else [("author_id".toList, a)]) ++
      [("package_id".toList, m.packageId)] := by
  rw [fields]
  rcases m.authorId with _ | _ | ⟨c, a⟩ <;> rfl

/-- **A manifest is a TOML document exactly when its values can be written.** The manifest of a
template without control characters, other than tabs, newlines and carriage returns, is a document
of TOML 1.0. A reader finds a single table in it, whose keys hold the strings of the template; there
is an author among them exactly when the template has one that is not empty. With any other control
character in one of its values a manifest is no TOML document, and a reader refuses it. -/
theorem toml_document_iff_writable :
    (m.IsWritable →
      IsStringTable "package".toList m.fields m.render ∧
        Toml.parse? m.render =
          some [("package".toList, .table .header
            ([("name".toList, .string m.name), ("version".toList, .string m.version),
                ("description".toList, .string m.description),
                ("entry".toList, .string m.entry)] ++
              (m.authorId.elim [] fun a ↦
                if a = [] then [] else [("author_id".toList, .string a)]) ++
              [("package_id".toList, .string m.packageId)]))]) ∧
      (¬m.IsWritable →
        (∀ name entries, ¬IsStringTable name entries m.render) ∧ Toml.parse? m.render = none) := by
  constructor
  · intro h
    have htable := m.isStringTable_render h
    refine ⟨htable, ?_⟩
    rw [htable.parse?_eq, fields_eq]
    rcases m.authorId with _ | _ | ⟨c, a⟩ <;> rfl
  · intro h
    have hnone := m.parse?_render_eq_none h
    refine ⟨fun name entries htable ↦ ?_, hnone⟩
    rw [htable.parse?_eq] at hnone
    cases hnone

/-- A template whose name holds a control character. -/
def controlled : Template := { greeting with name := ['\x01'] }

theorem toml_document_greeting :
    greeting.IsWritable ∧ (Toml.parse? greeting.render).isSome ∧
      ¬controlled.IsWritable ∧ Toml.parse? controlled.render = none := by
  have hgreeting : greeting.IsWritable := by decide
  have hcontrolled : ¬controlled.IsWritable := by decide
  refine ⟨hgreeting, ?_, hcontrolled, ((toml_document_iff_writable controlled).2 hcontrolled).2⟩
  rw [((toml_document_iff_writable greeting).1 hgreeting).2]
  rfl

/-- Control characters are written as they stand, so not every manifest is a TOML document. -/
theorem not_forall_toml_document :
    ¬∀ m : Template,
      Toml.parse? m.render =
        some [("package".toList, .table .header (m.fields.map fun f ↦ (f.1, .string f.2)))] := by
  intro h
  have hnone := parse?_render_eq_none controlled (by decide)
  rw [h controlled] at hnone
  cases hnone

end Template

end PluginPack.Manifest
