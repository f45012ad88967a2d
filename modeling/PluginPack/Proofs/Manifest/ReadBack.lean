import Mathlib.Data.List.TakeDrop
import PluginPack.Manifest.Template
import PluginPack.Proofs.Text.Escape
import PluginPack.Proofs.Text.Reading

/-!
# Reading a written manifest

What a manifest says that was written from a template. Its lines are the header of one section and
an assignment for each field, whatever the values hold, since a value is escaped and so never breaks
its line or ends its quotes. The reader takes the quotes away and leaves the escapes standing: a
field comes back as it was exactly when nothing in it needs an escape.
-/

namespace PluginPack.Manifest

open Text

/-! ## Lines -/

/-- A text that can be written as the key of an assignment: it has no white space and no equals
sign, and it is not read as a comment or as a header. -/
def isKey (k : Text) : Bool :=
  k.head?.any (fun c ↦ c != '#' && c != '[') && k.all fun c ↦ !isWhite c && c != '='

variable {c : Char} {k r : Text}

theorem isKey_cons_iff : isKey (c :: r) = true ↔
    (c ≠ '#' ∧ c ≠ '[') ∧ ∀ d ∈ c :: r, isWhite d = false ∧ d ≠ '=' := by
  simp only [isKey, List.head?_cons, Option.any_some, Bool.and_eq_true, bne_iff_ne,
    List.all_eq_true, Bool.not_eq_true']

theorem line_eq (k v : Text) :
    Template.line (k, v) = k ++ [' '] ++ '=' :: ' ' :: '"' :: (escape v ++ ['"']) := by
  simp [Template.line, escapeBySteps_eq_escape]

theorem unquote_quoted (t : Text) : unquote ('"' :: (t ++ ['"'])) = t := by
  rw [unquote, if_pos ⟨.inl rfl, List.getLast?_concat⟩, List.dropLast_concat]

theorem trim_quoted (t : Text) : trim (' ' :: '"' :: (t ++ ['"'])) = '"' :: (t ++ ['"']) := by
  have hwhite : ∀ c ∈ [' '], isWhite c = true := by decide
  exact (trim_append_left hwhite _).trans <| (trim_cons rfl _).trans <|
    congrArg _ (trimEnd_append_cons rfl t [])

/-- The line of a field is read as an assignment of the escaped value. -/
theorem read_line (hk : isKey k = true) (v : Text) :
    Line.read (Template.line (k, v)) = .assignment k (escape v) := by
  obtain _ | ⟨c, r⟩ := k
  · cases hk
  obtain ⟨⟨hhash, hbracket⟩, hall⟩ := isKey_cons_iff.mp hk
  -- The line begins with the key and ends with a quote, so nothing is trimmed.
  have htrim : trim (Template.line (c :: r, v)) = Template.line (c :: r, v) := by
    have hend := trimEnd_append_cons (c := '"') rfl (r ++ [' '] ++ '=' :: ' ' :: '"' :: escape v) []
    rw [line_eq, List.cons_append, List.cons_append, trim_cons (hall c List.mem_cons_self).1]
    simpa using hend
  have hcomment : (Template.line (c :: r, v)).head?.all (· == '#') = false := by
    simpa [line_eq] using hhash
  have hheader : header? (Template.line (c :: r, v)) = none := by
    rw [line_eq, List.cons_append, List.cons_append, header?]
    intro s hs
    exact hbracket (List.cons.inj hs).1
  have hequals : ∀ d ∈ c :: r ++ [' '], (d != '=') = true := by
    intro d hd
    rcases List.mem_append.mp hd with hd | hd
    · simpa using (hall d hd).2
    · rw [List.mem_singleton.mp hd]
      rfl
  have hspan : (Template.line (c :: r, v)).span (· != '=') =
      (c :: r ++ [' '], '=' :: ' ' :: '"' :: (escape v ++ ['"'])) := by
    rw [List.span_eq_takeWhile_dropWhile, line_eq, takeWhile_append_eq hequals (by simp),
      dropWhile_append_eq hequals (by simp)]
  have hkey : trim (c :: r ++ [' ']) = c :: r :=
    trim_append_right (by decide) fun d hd ↦ (hall d hd).1
  rw [Line.read, htrim, hcomment, hheader, hspan]
  simp only [Bool.false_eq_true, if_false, hkey, List.cons_ne_nil, trim_quoted, unquote_quoted]

/-! ## Tables -/

/-- The table of a manifest with a single section. -/
def Table.single (name : Text) (entries : List (Text × Text)) : Table :=
  ⟨.empty [], [⟨name, entries⟩]⟩

theorem assign_of_not_mem {es : List (Text × Text)} (h : k ∉ es.map Prod.fst) (v : Text) :
    Section.assign k v es = es ++ [(k, v)] := by
  induction es with
  | nil => rfl
  | cons e es ih =>
    rw [List.map_cons, List.mem_cons, not_or] at h
    rw [Section.assign, if_neg (Ne.symm h.1), ih h.2, List.cons_append]

/-- Assignments to keys that are new and different from each other are added in their order. -/
theorem foldl_apply_assignments {name : Text} {es fields : List (Text × Text)}
    (h : ((es ++ fields).map Prod.fst).Nodup) :
    (fields.map fun f ↦ Line.assignment f.1 f.2).foldl Line.apply (.single name es, some name) =
      (.single name (es ++ fields), some name) := by
  induction fields generalizing es with
  | nil => rw [List.append_nil]; rfl
  | cons f fields ih =>
    have hnew : f.1 ∉ es.map Prod.fst := by
      rw [List.map_append, List.map_cons] at h
      exact fun hmem ↦ (List.nodup_append.mp h).2.2 _ hmem _ List.mem_cons_self rfl
    have happly : Line.apply (.single name es, some name) (.assignment f.1 f.2) =
        (.single name (es ++ [f]), some name) := by
      simp [Line.apply, Table.insert, Table.single, Section.insert, assign_of_not_mem hnew]
    rw [List.map_cons, List.foldl_cons, happly, ih (by simpa using h), List.append_assoc,
      List.singleton_append]

namespace Template

variable (m : Template)

/-- The keys that a manifest may have. -/
def keys : List Text :=
  ["name".toList, "version".toList, "description".toList, "entry".toList, "author_id".toList,
    "package_id".toList]

theorem map_fst_fields_sublist : (m.fields.map Prod.fst).Sublist keys := by
  rw [fields]
  cases m.authorId.filter (· ≠ []) with
  | none =>
    simp only [Option.toList_none, List.map_nil, List.append_nil, List.map_append, List.map_cons]
    decide
  | some a =>
    simp only [Option.toList_some, List.map_nil, List.map_append, List.map_cons]
    decide

theorem isKey_of_mem_fields {f : Text × Text} (hf : f ∈ m.fields) : isKey f.1 = true := by
  have hkeys : ∀ k ∈ keys, isKey k = true := by decide
  exact hkeys f.1 ((map_fst_fields_sublist m).subset (List.mem_map_of_mem hf))

theorem nodup_keys : (m.fields.map Prod.fst).Nodup :=
  (map_fst_fields_sublist m).nodup (by decide)

theorem newline_not_mem_line (hk : isKey k = true) (v : Text) : '\n' ∉ line (k, v) := by
  obtain _ | ⟨c, r⟩ := k
  · cases hk
  have hkey : '\n' ∉ c :: r := fun hmem ↦
    absurd ((isKey_cons_iff.mp hk).2 '\n' hmem).1 (by decide)
  have hvalue : '\n' ∉ escape v := not_mem_escape (.inl rfl) v
  rw [line_eq]
  simp_all

theorem lines_render :
    lines m.render = ('[' :: packageSection ++ [']']) :: m.fields.map line := by
  have hlines : ∀ l ∈ ('[' :: packageSection ++ [']']) :: m.fields.map line,
      '\n' ∉ l ∧ dropReturn l = l := by
    intro l hl
    rcases List.mem_cons.mp hl with rfl | hl
    · decide
    · obtain ⟨f, hf, rfl⟩ := List.mem_map.mp hl
      refine ⟨newline_not_mem_line (isKey_of_mem_fields m hf) f.2, dropReturn_eq_self ?_⟩
      rw [line, List.getLast?_concat]
      decide
  rw [render, intercalate_append_newline (List.cons_ne_nil _ _),
    ← List.append_nil (List.flatMap _ _), lines_flatMap fun l hl ↦ (hlines l hl).1,
    List.map_congr_left fun l hl ↦ (hlines l hl).2, List.map_id']
  exact List.append_nil _

/-- No value can add to a manifest or take from it: there is one section, and its entries are the
fields with their values escaped. -/
theorem parse_render :
    Table.parse m.render =
      .single packageSection (m.fields.map fun f ↦ (f.1, escape f.2)) := by
  have hheader : Line.read ('[' :: packageSection ++ [']']) = .header packageSection := by decide
  have hfields : (m.fields.map line).map Line.read =
      (m.fields.map fun f ↦ (f.1, escape f.2)).map fun f ↦ Line.assignment f.1 f.2 := by
    rw [List.map_map, List.map_map]
    exact List.map_congr_left fun f hf ↦ read_line (isKey_of_mem_fields m hf) f.2
  have hopen : Line.apply (.empty, none) (.header packageSection) =
      (.single packageSection [], some packageSection) := rfl
  have hnodup : (([] ++ m.fields.map fun f : Text × Text ↦ (f.1, escape f.2)).map
      Prod.fst).Nodup := by
    rw [List.nil_append, List.map_map]
    exact nodup_keys m
  rw [Table.parse, lines_render, List.map_cons, hheader, hfields, List.foldl_cons, hopen,
    foldl_apply_assignments hnodup, List.nil_append]

/-- **No value can inject structure.** Whatever the values of a template hold, its manifest is read
as one section with nothing before it. The entries of the section are the fields in the order in
which they are written, each with its value escaped; there is an author among them exactly when the
template has one that is not empty. -/
theorem parse_render_entries :
    Table.parse m.render =
      { root := ⟨[], []⟩
        sections :=
          [{ name := "package".toList
             entries :=
              [("name".toList, escapeBySteps m.name), ("version".toList, escapeBySteps m.version),
                ("description".toList, escapeBySteps m.description),
                ("entry".toList, escapeBySteps m.entry)] ++
              (m.authorId.elim [] fun a ↦
                if a = [] then [] else [("author_id".toList, escapeBySteps a)]) ++
              [("package_id".toList, escapeBySteps m.packageId)] }] } := by
  have hauthor : ((m.authorId.filter (· ≠ [])).toList.map ("author_id".toList, ·)).map
        (fun f : Text × Text ↦ (f.1, escape f.2)) =
      m.authorId.elim [] fun a ↦ if a = [] then [] else [("author_id".toList, escape a)] := by
    rcases m.authorId with _ | _ | ⟨c, a⟩
    · rfl
    · rfl
    · rfl
  simp only [parse_render, Table.single, fields, List.map_append, hauthor, escapeBySteps_eq_escape]
  rfl

end Template

/-! ## The descriptor -/

namespace Template

variable (m : Template)

/-- What a manifest gives back of its template: the fields with their escapes. -/
def escaped : Descriptor where
  name := escape m.name
  version := escape m.version
  description := escape m.description
  entry := escape m.entry
  authorId := escape (m.authorId.getD [])
  packageId := escape m.packageId

/-- The value of a key in the section of a manifest. -/
def value (key : String) : Text :=
  ((m.fields.map fun f ↦ (f.1, escape f.2)).lookup key.toList).getD []

theorem value_packageId : m.value "package_id" = escape m.packageId := by
  rw [value, fields]
  cases m.authorId.filter (· ≠ []) with
  | none => rfl
  | some a => rfl

/-- An author that is absent or empty has no entry and is read as empty. -/
theorem value_authorId : m.value "author_id" = escape (m.authorId.getD []) := by
  rw [value, fields]
  rcases m.authorId with _ | _ | ⟨c, a⟩
  · rfl
  · rfl
  · rfl

theorem ofSection_fields (hentry : m.entry ≠ []) (hid : m.packageId ≠ []) :
    Descriptor.ofSection ⟨packageSection, m.fields.map fun f ↦ (f.1, escape f.2)⟩ =
      m.escaped := by
  have hsection : Descriptor.ofSection
      ⟨packageSection, m.fields.map fun f ↦ (f.1, escape f.2)⟩ =
        { name := escape m.name
          version := escape m.version
          description := escape m.description
          entry := if escape m.entry = [] then defaultEntry else escape m.entry
          authorId := m.value "author_id"
          packageId :=
            if m.value "package_id" = [] then
              PackageId.derive (m.value "author_id") (escape m.name)
            else m.value "package_id" } := rfl
  rw [hsection, value_packageId, value_authorId, if_neg (escape_eq_nil_iff.not.mpr hentry),
    if_neg (escape_eq_nil_iff.not.mpr hid), escaped]

theorem descriptor_parse_render (hentry : m.entry ≠ []) (hid : m.packageId ≠ []) :
    Descriptor.parse m.render = .ok m.escaped := by
  have hsection : (Table.parse m.render).section? packageSection =
      some ⟨packageSection, m.fields.map fun f ↦ (f.1, escape f.2)⟩ := by
    rw [parse_render]
    rfl
  rw [Descriptor.parse, hsection, ← ofSection_fields m hentry hid]

/-- **Reading a written manifest.** The manifest of a template with an entry module and a package
identifier is always read, and gives every field with its escapes. So a field comes back as it was
exactly when it has no backslash, double quote, line break or tab. -/
theorem manifest_read_back (hentry : m.entry ≠ []) (hid : m.packageId ≠ []) :
    ∃ d, Descriptor.parse m.render = .ok d ∧
      d = { name := escape m.name
            version := escape m.version
            description := escape m.description
            entry := escape m.entry
            authorId := escape (m.authorId.getD [])
            packageId := escape m.packageId } ∧
      (d.name = m.name ↔ IsPlain m.name) ∧ (d.version = m.version ↔ IsPlain m.version) ∧
      (d.description = m.description ↔ IsPlain m.description) ∧
      (d.entry = m.entry ↔ IsPlain m.entry) ∧
      (d.authorId = m.authorId.getD [] ↔ IsPlain (m.authorId.getD [])) ∧
      (d.packageId = m.packageId ↔ IsPlain m.packageId) := by
  refine ⟨m.escaped, descriptor_parse_render m hentry hid, rfl, ?_⟩
  exact ⟨escape_eq_self_iff, escape_eq_self_iff, escape_eq_self_iff, escape_eq_self_iff,
    escape_eq_self_iff, escape_eq_self_iff⟩

/-- A template whose name holds quotes. -/
def greeting : Template where
  name := "say \"hi\"".toList
  version := "1.0.0".toList
  description := "Says hi".toList
  entry := "src/index.js".toList
  authorId := some "com.acme".toList
  packageId := "com.acme.say".toList

theorem manifest_read_back_greeting :
    greeting.entry ≠ [] ∧ greeting.packageId ≠ [] ∧
      ∃ d, Descriptor.parse greeting.render = .ok d ∧ d.name = "say \\\"hi\\\"".toList ∧
        d.authorId = "com.acme".toList ∧ d.packageId = "com.acme.say".toList := by
  refine ⟨by decide, by decide, ?_⟩
  obtain ⟨d, hd, rfl, -⟩ := manifest_read_back greeting (by decide) (by decide)
  exact ⟨_, hd, by decide, by decide, by decide⟩

/-- Quotes come back with backslashes before them, so what a manifest gives back need not be what it
was written from. -/
theorem not_forall_manifest_field_kept :
    ¬∀ m : Template, m.entry ≠ [] → m.packageId ≠ [] →
      ∃ d, Descriptor.parse m.render = .ok d ∧ d.name = m.name ∧ d.version = m.version ∧
        d.description = m.description ∧ d.entry = m.entry ∧ d.packageId = m.packageId ∧
        d.authorId = m.authorId.getD [] := by
  intro h
  obtain ⟨d, hd, hname, -⟩ := h greeting (by decide) (by decide)
  have hread : Descriptor.parse greeting.render = .ok greeting.escaped := by decide +kernel
  obtain rfl := Except.ok.inj (hread.symm.trans hd)
  exact absurd hname (by decide)

end Template

end PluginPack.Manifest
