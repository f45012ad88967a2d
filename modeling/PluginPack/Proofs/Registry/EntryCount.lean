import PluginPack.Proofs.Registry.ReadBack
import PluginPack.Proofs.Text.Escape
import PluginPack.Proofs.Text.Reading

/-!
# Which functions a registration holds

The names of the registered functions, and so their number, are read off the lines of a
registration. Every entry has one line that opens it; all other lines of an entry are indented
deeper or close it, whatever the texts in the entry are, since no quoted text holds a line break.
-/

namespace PluginPack.Registry

open Text

variable {s t name : Text} {fs : List Documentation.Function}

/-! ## Lines that open entries -/

/-- Whether a line opens an entry: it is indented by four blanks and no more, and ends in an opening
brace. -/
def opensEntry (t : Text) : Bool :=
  "    ".toList.isPrefixOf t && t[4]? != some ' ' && t.getLast? == some '\x7b'

/-- The number of entries of the functions in the text of a registration. -/
def entryCount (t : Text) : Nat := (splitNewlines t).countP opensEntry

/-- The lines of a text that open entries. -/
def openings (t : Text) : List Text := (splitNewlines t).filter opensEntry

theorem entryCount_eq_length (t : Text) : entryCount t = (openings t).length :=
  List.countP_eq_length_filter

theorem openings_append_newline (s t : Text) :
    openings (s ++ '\n' :: t) = openings s ++ openings t := by
  rw [openings, splitNewlines_append_cons, List.filter_append, openings, openings]

theorem openings_line (h : '\n' ∉ t) : openings t = if opensEntry t then [t] else [] := by
  rw [openings, splitNewlines_eq_singleton h, List.filter_singleton, Bool.cond_eq_ite]

/-- A line that does not end in an opening brace opens nothing. -/
theorem openings_eq_nil_of_getLast? (h : '\n' ∉ t) (hlast : t.getLast? ≠ some '\x7b') :
    openings t = [] := by
  rw [openings_line h, opensEntry, beq_false_of_ne hlast, Bool.and_false,
    if_neg Bool.false_ne_true]

/-! ## Deeper lines -/

/-- Whether every line break is followed by at least five blanks. -/
def isDeep : Text → Bool
  | [] => true
  | c :: r => (c != '\n' || "     ".toList.isPrefixOf r) && isDeep r

theorem isDeep_append (hs : isDeep s = true) (ht : isDeep t = true) : isDeep (s ++ t) = true := by
  induction s with
  | nil => exact ht
  | cons c s ih =>
    simp only [isDeep, List.cons_append, Bool.and_eq_true, Bool.or_eq_true,
      List.isPrefixOf_iff_prefix] at hs ⊢
    exact ⟨hs.1.imp_right fun hblank ↦ hblank.trans (List.prefix_append s t), ih hs.2⟩

theorem isDeep_of_not_mem (h : '\n' ∉ t) : isDeep t = true := by
  induction t with
  | nil => rfl
  | cons c t ih =>
    rw [List.mem_cons, not_or] at h
    rw [isDeep, ih h.2, bne_iff_ne.mpr (Ne.symm h.1), Bool.true_or, Bool.true_and]

theorem isDeep_intercalate {sep : Text} {items : List Text} (hsep : isDeep sep = true)
    (h : ∀ item ∈ items, isDeep item = true) : isDeep (sep.intercalate items) = true := by
  induction items with
  | nil => rfl
  | cons item items ih =>
    have hitem := h item List.mem_cons_self
    cases items with
    | nil => rwa [List.intercalate_singleton]
    | cons next items =>
      rw [List.intercalate_cons_cons]
      exact isDeep_append (isDeep_append hitem hsep)
        (ih fun x hx ↦ h x (List.mem_cons_of_mem item hx))

theorem opensEntry_eq_false_of_prefix {line : Text} (h : "     ".toList <+: line) :
    opensEntry line = false := by
  obtain ⟨r, rfl⟩ := h
  rfl

/-- Blanks at the beginning of a text stand in its first line. -/
theorem blanks_of_append_newline {w u : Text} (h : "     ".toList <+: w ++ '\n' :: u) :
    "     ".toList <+: w := by
  rcases List.prefix_or_prefix_of_prefix h (List.prefix_append w _) with hw | ⟨r, hr⟩
  · exact hw
  · cases r with
    | nil => exact ⟨[], by rw [← hr, List.append_nil, List.append_nil]⟩
    | cons d r =>
      rw [← hr, List.prefix_append_right_inj] at h
      obtain ⟨rfl, -⟩ := List.cons_prefix_cons.mp h
      exact absurd (hr ▸ List.mem_append_right w List.mem_cons_self)
        (by decide : '\n' ∉ "     ".toList)

/-- A text that begins with blanks and goes on with deep lines opens no entry. -/
theorem openings_eq_nil_of_isDeep (h : isDeep t = true) (hstart : "     ".toList <+: t) :
    openings t = [] := by
  -- The part of the line that was passed already is a parameter of the induction.
  suffices hline : ∀ w, '\n' ∉ w → "     ".toList <+: w ++ t → openings (w ++ t) = [] from
    hline [] List.not_mem_nil hstart
  clear hstart
  induction t with
  | nil =>
    intro w hw hblank
    rw [List.append_nil] at hblank ⊢
    rw [openings_line hw, opensEntry_eq_false_of_prefix hblank, if_neg Bool.false_ne_true]
  | cons c t ih =>
    intro w hw hblank
    simp only [isDeep, Bool.and_eq_true, Bool.or_eq_true, List.isPrefixOf_iff_prefix,
      bne_iff_ne] at h
    by_cases hc : c = '\n'
    · subst hc
      have hnext := h.1.resolve_left fun hne ↦ hne rfl
      rw [openings_append_newline, openings_line hw,
        opensEntry_eq_false_of_prefix (blanks_of_append_newline hblank), if_neg Bool.false_ne_true,
        List.nil_append]
      exact ih h.2 [] List.not_mem_nil hnext
    · have hstep := ih h.2 (w ++ [c]) (by simpa [hw] using Ne.symm hc)
      rw [List.append_assoc, List.singleton_append] at hstep
      exact hstep hblank

/-! ## Texts without line breaks -/

theorem not_mem_quoted (t : Text) : '\n' ∉ quoted t := by
  have hescape := not_mem_escape (.inl rfl) t
  simp [quoted, hescape]

theorem not_mem_ofNat (n : Nat) : '\n' ∉ Text.ofNat n := fun h ↦
  absurd (Nat.isDigit_of_mem_toDigits (by decide) (by decide) h) (by decide)

theorem not_mem_member {key : String} (hkey : '\n' ∉ key.toList) (ht : '\n' ∉ t) :
    '\n' ∉ member key t := by
  simp [member, hkey, ht]

theorem not_mem_intercalate {sep : Text} {items : List Text} (hsep : '\n' ∉ sep)
    (h : ∀ item ∈ items, '\n' ∉ item) : '\n' ∉ sep.intercalate items := by
  induction items with
  | nil => exact List.not_mem_nil
  | cons item items ih =>
    have hitem := h item List.mem_cons_self
    have hitems := ih fun x hx ↦ h x (List.mem_cons_of_mem item hx)
    cases items with
    | nil => rwa [List.intercalate_singleton]
    | cons next items =>
      rw [List.intercalate_cons_cons]
      simp [hitem, hsep, hitems]

theorem not_mem_inlineObject {members : List Text} (h : ∀ m ∈ members, '\n' ∉ m) :
    '\n' ∉ inlineObject members := by
  have hmembers := not_mem_intercalate (by decide : '\n' ∉ ", ".toList) h
  rw [inlineObject, List.mem_append, List.mem_append, not_or, not_or]
  exact ⟨⟨by decide, hmembers⟩, by decide⟩

theorem not_mem_permissionText (p : Documentation.Permission) : '\n' ∉ permissionText p :=
  not_mem_inlineObject (by simp [not_mem_member, not_mem_quoted])

theorem not_mem_parameterText (p : Documentation.Parameter) : '\n' ∉ parameterText p :=
  not_mem_inlineObject (by simp [not_mem_member, not_mem_quoted, not_mem_ofNat])

theorem not_mem_returnText (r : Documentation.Return) : '\n' ∉ returnText r :=
  not_mem_inlineObject (by simp [not_mem_member, not_mem_quoted, not_mem_ofNat])

theorem not_mem_inlineList {items : List Text} (h : ∀ item ∈ items, '\n' ∉ item) :
    '\n' ∉ inlineList items := by
  have hitems := not_mem_intercalate (by decide : '\n' ∉ ", ".toList) h
  rw [inlineList, List.cons_append, List.mem_cons, List.mem_append, not_or, not_or]
  exact ⟨by decide, hitems, by decide⟩

theorem isDeep_blockList {items : List Text} (h : ∀ item ∈ items, '\n' ∉ item) :
    isDeep (blockList items) = true := by
  rw [blockList]
  split_ifs
  · rfl
  · have hitems : isDeep (",\n        ".toList.intercalate items) = true :=
      isDeep_intercalate rfl fun item hitem ↦ isDeep_of_not_mem (h item hitem)
    exact isDeep_append (isDeep_append rfl hitems) rfl

/-! ## Entries -/

/-- The line that opens the entry of a function. -/
def openingLine (name : Text) : Text := "    ".toList ++ (name ++ ": \x7b".toList)

/-- The lines between the ends of an entry. -/
def entryInside (f : Documentation.Function) : Text :=
  "      ".toList ++ ",\n      ".toList.intercalate (entryMembers f)

/-- A name that stands in its line and does not change the indentation. -/
def IsKey (name : Text) : Prop := '\n' ∉ name ∧ name.head? ≠ some ' '

theorem opensEntry_openingLine (h : name.head? ≠ some ' ') :
    opensEntry (openingLine name) = true := by
  cases name with
  | nil => rfl
  | cons c name =>
    have hc : c ≠ ' ' := fun hc ↦ h (hc ▸ rfl)
    have hlast : (openingLine (c :: name)).getLast? = some '\x7b' := by
      rw [openingLine, List.getLast?_append, List.getLast?_append]
      rfl
    have hfifth : (openingLine (c :: name))[4]? = some c := rfl
    have hstart : "    ".toList.isPrefixOf (openingLine (c :: name)) = true := rfl
    rw [opensEntry, hlast, hfifth, hstart]
    simpa using hc

theorem isDeep_entryInside (f : Documentation.Function) (hname : '\n' ∉ f.name) :
    isDeep (entryInside f) = true := by
  refine isDeep_append rfl (isDeep_intercalate rfl fun m hm ↦ ?_)
  simp only [entryMembers, List.mem_cons, List.not_mem_nil, or_false] at hm
  rcases hm with rfl | rfl | rfl | rfl | rfl
  · exact isDeep_of_not_mem (not_mem_member (by decide) hname)
  · refine isDeep_of_not_mem (not_mem_member (by decide) (not_mem_inlineList ?_))
    exact List.forall_mem_map.mpr fun p _ ↦ not_mem_permissionText p
  · exact isDeep_of_not_mem (not_mem_member (by decide) (not_mem_quoted _))
  · refine isDeep_append rfl (isDeep_blockList ?_)
    exact List.forall_mem_map.mpr fun p _ ↦ not_mem_parameterText p
  · refine isDeep_append rfl (isDeep_blockList ?_)
    exact List.forall_mem_map.mpr fun r _ ↦ not_mem_returnText r

theorem functionText_eq_lines (f : Documentation.Function) :
    functionText f =
      openingLine f.name ++ '\n' :: (entryInside f ++ '\n' :: "    \x7d".toList) := by
  have hopening : openingLine f.name = "    ".toList ++ (f.name ++ ": \x7b".toList) := rfl
  have hinside : entryInside f =
      "      ".toList ++ ",\n      ".toList.intercalate (entryMembers f) := rfl
  rw [functionText_eq, hopening, hinside]
  simp only [String.reduceToList, List.cons_append, List.nil_append, List.append_assoc]

/-- An entry is opened once. The text that goes on the line of its end may only be a comma. -/
theorem openings_functionText_append {f : Documentation.Function} (hf : IsKey f.name)
    {comma : Text} (hcomma : comma = [] ∨ comma = [',']) (r : Text) :
    openings (functionText f ++ (comma ++ '\n' :: r)) = openingLine f.name :: openings r := by
  have hopening : openings (openingLine f.name) = [openingLine f.name] := by
    have hline : '\n' ∉ openingLine f.name := by simp [openingLine, hf.1]
    rw [openings_line hline, opensEntry_openingLine hf.2, if_pos rfl]
  have hinside : openings (entryInside f) = [] :=
    have hblank : "     ".toList <+: "      ".toList := by decide
    openings_eq_nil_of_isDeep (isDeep_entryInside f hf.1) (hblank.trans (List.prefix_append _ _))
  have hend : openings ("    \x7d".toList ++ comma) = [] := by
    rcases hcomma with rfl | rfl
    · rfl
    · rfl
  have hlines : functionText f ++ (comma ++ '\n' :: r) = openingLine f.name ++
      '\n' :: (entryInside f ++ '\n' :: (("    \x7d".toList ++ comma) ++ '\n' :: r)) := by
    rw [functionText_eq_lines]
    simp only [List.append_assoc, List.cons_append]
  rw [hlines, openings_append_newline, openings_append_newline, openings_append_newline,
    hopening, hinside, hend, List.nil_append, List.nil_append, List.singleton_append]

theorem openings_entries (hfs : ∀ f ∈ fs, IsKey f.name) (hne : fs ≠ []) (r : Text) :
    openings (",\n".toList.intercalate (fs.map functionText) ++ '\n' :: r) =
      fs.map (openingLine ·.name) ++ openings r := by
  induction fs with
  | nil => exact absurd rfl hne
  | cons f fs ih =>
    have hf := hfs f List.mem_cons_self
    cases fs with
    | nil =>
      have hone := openings_functionText_append hf (.inl rfl) r
      rw [List.nil_append] at hone
      rw [List.map_singleton, List.intercalate_singleton, hone, List.map_singleton,
        List.singleton_append]
    | cons next fs =>
      have hrest := ih (fun g hg ↦ hfs g (List.mem_cons_of_mem f hg)) (List.cons_ne_nil next fs)
      have hone := openings_functionText_append hf (.inr rfl)
        (",\n".toList.intercalate ((next :: fs).map functionText) ++ '\n' :: r)
      rw [hrest] at hone
      rw [List.map_cons, List.map_cons, List.intercalate_cons_cons, List.append_assoc,
        List.append_assoc]
      rw [List.map_cons] at hone
      exact hone

/-! ## Registrations -/

/-- A member that ends in a quoted text does not look like the beginning of an entry. -/
theorem openings_members {ms : List Text} (h : ∀ m ∈ ms, '\n' ∉ m ∧ m.getLast? = some '"')
    (r : Text) :
    openings ("    ".toList ++ (",\n    ".toList.intercalate ms ++ '\n' :: r)) =
      openings r := by
  induction ms with
  | nil =>
    have hblank : openings "    ".toList = [] := by decide
    rw [List.intercalate_nil, List.nil_append, openings_append_newline, hblank, List.nil_append]
  | cons m ms ih =>
    obtain ⟨hline, hlast⟩ := h m List.mem_cons_self
    cases ms with
    | nil =>
      have hm : openings ("    ".toList ++ m) = [] := by
        refine openings_eq_nil_of_getLast? ?_ ?_
        · simpa using hline
        · rw [List.getLast?_append, hlast]
          decide
      rw [List.intercalate_singleton, ← List.append_assoc, openings_append_newline, hm,
        List.nil_append]
    | cons next ms =>
      have hm : openings ("    ".toList ++ m ++ [',']) = [] := by
        refine openings_eq_nil_of_getLast? ?_ ?_
        · simpa using hline
        · rw [List.getLast?_concat]
          decide
      have hlines : "    ".toList ++ (",\n    ".toList.intercalate (m :: next :: ms) ++ '\n' :: r) =
          ("    ".toList ++ m ++ [',']) ++ '\n' ::
            ("    ".toList ++ (",\n    ".toList.intercalate (next :: ms) ++ '\n' :: r)) := by
        rw [List.intercalate_cons_cons]
        simp only [String.reduceToList, List.cons_append, List.nil_append, List.append_assoc]
      rw [hlines, openings_append_newline, hm, List.nil_append]
      exact ih fun x hx ↦ h x (List.mem_cons_of_mem m hx)

theorem openings_metaText_append (d : Descriptor) (r : Text) :
    openings (metaText d ++ r) = openings r := by
  have hmembers : ∀ m ∈ identityMembers d, '\n' ∉ m ∧ m.getLast? = some '"' := by
    have hmember : ∀ (key : String) (t : Text), '\n' ∉ key.toList →
        '\n' ∉ member key (quoted t) ∧ (member key (quoted t)).getLast? = some '"' := by
      intro key t hkey
      refine ⟨not_mem_member hkey (not_mem_quoted t), ?_⟩
      rw [member, quoted, ← List.append_assoc, List.getLast?_concat]
    intro m hm
    simp only [identityMembers, List.mem_cons, List.not_mem_nil, or_false] at hm
    rcases hm with rfl | rfl | rfl | rfl | rfl
    · exact hmember "name" d.name (by decide)
    · exact hmember "version" d.version (by decide)
    · exact hmember "description" d.description (by decide)
    · exact hmember "author_id" d.authorId (by decide)
    · exact hmember "package_id" d.packageId (by decide)
  have hopen : openings "  meta: \x7b".toList = [] := by decide
  have hclose : openings "  \x7d,".toList = [] := by decide
  have hlines : metaText d ++ r = "  meta: \x7b".toList ++ '\n' ::
      ("    ".toList ++ (",\n    ".toList.intercalate (identityMembers d) ++
        '\n' :: ("  \x7d,".toList ++ '\n' :: r))) := by
    have hmeta : metaText d = "  meta: \x7b\n    ".toList ++
        ",\n    ".toList.intercalate (identityMembers d) ++ "\n  \x7d,\n".toList := rfl
    rw [hmeta]
    simp only [String.reduceToList, List.cons_append, List.nil_append, List.append_assoc]
  rw [hlines, openings_append_newline, openings_members hmembers, openings_append_newline,
    hopen, hclose, List.nil_append, List.nil_append]

/-- **A registration opens one entry for each of its functions**, in their order. -/
theorem openings_registration (hfs : ∀ f ∈ fs, IsKey f.name) (d : Descriptor) :
    openings (registration fs d) = fs.map (openingLine ·.name) := by
  have htarget : openings (target ++ " = \x7b".toList) = [] := by decide
  have hfunctions : openings "  functions: \x7b".toList = [] := by decide
  have hend : openings "  \x7d\n\x7d;\n".toList = [] := by decide
  have hlines : registration fs d = (target ++ " = \x7b".toList) ++ '\n' ::
      (metaText d ++ ("  functions: \x7b".toList ++ '\n' ::
        (",\n".toList.intercalate (fs.map functionText) ++
          ((if fs = [] then [] else ['\n']) ++ "  \x7d\n\x7d;\n".toList)))) := by
    simp only [registration, String.reduceToList, List.cons_append, List.nil_append,
      List.append_assoc]
  rw [hlines, openings_append_newline, openings_metaText_append, openings_append_newline,
    htarget, hfunctions, List.nil_append, List.nil_append]
  by_cases h : fs = []
  · rw [if_pos h, h]
    exact hend
  · rw [if_neg h, List.singleton_append, openings_entries hfs h, hend, List.append_nil]

theorem entryCount_registration (hfs : ∀ f ∈ fs, IsKey f.name) (d : Descriptor) :
    entryCount (registration fs d) = fs.length := by
  rw [entryCount_eq_length, openings_registration hfs, List.length_map]

/-! ## Names -/

/-- The name in a line that opens an entry. -/
def nameIn (line : Text) : Text := (line.drop 4).dropLast.dropLast.dropLast

/-- The names that a registration lists, in order. -/
def listedNames (t : Text) : List Text := (openings t).map nameIn

theorem nameIn_openingLine (name : Text) : nameIn (openingLine name) = name := by
  simp [nameIn, openingLine]

/-- **The listed names are the names of the functions.** -/
theorem listedNames_registration (hfs : ∀ f ∈ fs, IsKey f.name) (d : Descriptor) :
    listedNames (registration fs d) = fs.map (·.name) := by
  rw [listedNames, openings_registration hfs, List.map_map]
  exact List.map_congr_left fun f _ ↦ nameIn_openingLine f.name

end PluginPack.Registry
