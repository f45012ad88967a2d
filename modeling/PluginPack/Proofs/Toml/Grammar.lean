import Mathlib.Algebra.Order.BigOperators.Group.List
import Mathlib.Data.List.Forall2
import PluginPack.Toml.Document
import PluginPack.Proofs.Text.Reading

/-!
# Documents with one table of strings

What TOML 1.0 says of the simplest documents, and that the reader follows it. Such a document is the
header of one table, and under it a line for each entry: a key without quotes, an equals sign and a
basic string. The grammar of basic strings is given in full, with the letters and the codes that may
stand behind a backslash.

The reader is followed line by line. A line adds its entry to the table that the header has opened,
or, when its string is no string, ends the reading of the whole document.
-/

namespace PluginPack.Toml

open Text

/-! ## The grammar -/

/-- A character that stands for itself in a basic string: any but the double quote, the backslash
and the control characters other than the tab. -/
def isUnescaped (c : Char) : Bool := isPlain c && c != '"' && c != '\\'

/-- The letters that may stand behind a backslash, with the characters that they stand for. -/
def letters : List (Char × Char) :=
  [('b', '\x08'), ('t', '\t'), ('n', '\n'), ('f', '\x0c'), ('r', '\r'), ('"', '"'), ('\\', '\\')]

/-- What may be written between the quotes of a basic string, and the text that it stands for. -/
inductive BasicString : Text → Text → Prop
  | nil : BasicString [] []
  | unescaped {c w t} (hc : isUnescaped c = true) (h : BasicString w t) :
      BasicString (c :: w) (c :: t)
  | letter {e c w t} (he : (e, c) ∈ letters) (h : BasicString w t) :
      BasicString ('\\' :: e :: w) (c :: t)
  | code {u digits c w t} (hu : (u, digits.length) ∈ [('u', 4), ('U', 8)])
      (hc : (hexNumber? digits).bind charOfCode? = some c) (h : BasicString w t) :
      BasicString ('\\' :: u :: (digits ++ w)) (c :: t)

/-- A key that needs no quotes. -/
def IsBareKey (k : Text) : Prop := k ≠ [] ∧ ∀ c ∈ k, isBareKeyChar c = true

/-- A line that gives a key a string, with blanks on both sides of the equals sign. -/
inductive StringLine : Text → Text × Text → Prop
  | mk {k before after w t} (hkey : IsBareKey k) (hbefore : ∀ c ∈ before, isBlank c = true)
      (hafter : ∀ c ∈ after, isBlank c = true) (h : BasicString w t) :
      StringLine (k ++ (before ++ '=' :: (after ++ '"' :: (w ++ ['"'])))) (k, t)

/-- A document that is the header of one table and a line for each of its entries. No key is given a
value twice. -/
structure IsStringTable (name : Text) (entries : List (Text × Text)) (doc : Text) : Prop where
  isBareKey : IsBareKey name
  nodup : (entries.map Prod.fst).Nodup
  exists_lines : ∃ ls, List.Forall₂ StringLine ls entries ∧
    doc = (('[' :: name ++ [']']) :: ls).flatMap (· ++ ['\n'])

variable {k w t r name : Text} {es : List (Text × Value)}

/-! ## Keys -/

theorem skipBlanks_append (hb : ∀ c ∈ w, isBlank c = true) (hr : Stops isBlank r) :
    skipBlanks (w ++ r) = r := dropWhile_append_eq hb hr

theorem not_isBlank_of_isBareKeyChar {c : Char} (h : isBareKeyChar c = true) :
    isBlank c = false := by
  rw [isBlank, Bool.or_eq_false_iff, beq_eq_false_iff_ne, beq_eq_false_iff_ne]
  constructor <;> rintro rfl <;> exact absurd h (by decide)

/-- A key without quotes begins with a character that nothing else in a document begins with. -/
theorem IsBareKey.exists_cons (h : IsBareKey k) : ∃ c s, k = c :: s ∧ isBareKeyChar c = true :=
  match k, h with
  | [], h => absurd rfl h.1
  | c :: s, h => ⟨c, s, rfl, h.2 c List.mem_cons_self⟩

theorem simpleKey?_bare (hk : IsBareKey k) (hr : Stops isBareKeyChar r) :
    simpleKey? (k ++ r) = some (k, r) := by
  obtain ⟨c, s, rfl, hc⟩ := hk.exists_cons
  rw [List.cons_append, simpleKey?]
  · rw [← List.cons_append, takeWhile_append_eq hk.2 hr, dropWhile_append_eq hk.2 hr,
      if_neg hk.1]
  · rintro s' heq
    rw [(List.cons.inj heq).1] at hc
    exact absurd hc (by decide)
  · rintro s' heq
    rw [(List.cons.inj heq).1] at hc
    exact absurd hc (by decide)

/-- A key without dots, up to the sign behind it. -/
theorem key?_bare {d : Char} (hk : IsBareKey k) (hw : ∀ c ∈ w, isBlank c = true)
    (hd : d = '=' ∨ d = ']') : key? (k ++ (w ++ d :: r)) = some ([k], d :: r) := by
  have hblank : Stops isBlank (d :: r) := by
    rcases hd with rfl | rfl <;> exact stops_cons.mpr rfl
  have hbare : Stops isBareKeyChar (w ++ d :: r) := by
    cases w with
    | nil => rcases hd with rfl | rfl <;> exact stops_cons.mpr rfl
    | cons c w =>
      refine stops_cons.mpr (Bool.eq_false_iff.mpr fun hc ↦ ?_)
      exact Bool.eq_false_iff.mp (not_isBlank_of_isBareKeyChar hc) (hw c List.mem_cons_self)
  have hmax : maxKeys = 79 + 1 := rfl
  rw [key?, hmax, dottedKey?, simpleKey?_bare hk hbare, Option.bind_some]
  simp only [skipBlanks_append hw hblank]
  rcases hd with rfl | rfl <;> rfl

/-! ## Strings -/

theorem basic?_letter {e c : Char} (he : (e, c) ∈ letters) (r : Text) :
    basic? 0 ('\\' :: e :: r) = (basic? 0 r).map fun p ↦ (c :: p.1, p.2) := by
  have hescape : escape? (e :: r) = some (c, 1) := by
    simp only [letters, List.mem_cons, Prod.mk.injEq, List.not_mem_nil, or_false] at he
    rcases he with ⟨rfl, rfl⟩ | ⟨rfl, rfl⟩ | ⟨rfl, rfl⟩ | ⟨rfl, rfl⟩ | ⟨rfl, rfl⟩ | ⟨rfl, rfl⟩ |
      ⟨rfl, rfl⟩ <;> rfl
  rw [basic?, if_neg (by decide), if_pos rfl, hescape]
  rfl

theorem basic?_skip (n : Nat) (hn : w.length = n) (r : Text) : basic? n (w ++ r) = basic? 0 r := by
  induction w generalizing n with
  | nil => rw [← hn]; rfl
  | cons c w ih =>
    rw [← hn, List.length_cons, List.cons_append, basic?]
    exact ih _ rfl

theorem basic?_code {u c : Char} {digits : Text} (hu : (u, digits.length) ∈ [('u', 4), ('U', 8)])
    (hc : (hexNumber? digits).bind charOfCode? = some c) (r : Text) :
    basic? 0 ('\\' :: u :: (digits ++ r)) = (basic? 0 r).map fun p ↦ (c :: p.1, p.2) := by
  have hescape : escape? (u :: (digits ++ r)) = some (c, digits.length + 1) := by
    have hdigits : hexDigits u = digits.length ∧ digits.length ≠ 0 := by
      simp only [List.mem_cons, Prod.mk.injEq, List.not_mem_nil, or_false] at hu
      rcases hu with ⟨rfl, hn⟩ | ⟨rfl, hn⟩ <;> exact ⟨hn.symm, by omega⟩
    rw [escape?, hdigits.1]
    split
    · exact absurd ‹_› hdigits.2
    · rw [if_neg (by simp), List.take_left, hc]
      rfl
  have hskip : basic? (digits.length + 1) (u :: (digits ++ r)) = basic? 0 r :=
    basic?_skip (w := u :: digits) _ rfl r
  rw [basic?, if_neg (by decide), if_pos rfl, hescape, ← hskip]
  rfl

theorem basic?_unescaped {c : Char} (hc : isUnescaped c = true) (r : Text) :
    basic? 0 (c :: r) = (basic? 0 r).map fun p ↦ (c :: p.1, p.2) := by
  simp only [isUnescaped, Bool.and_eq_true, bne_iff_ne] at hc
  rw [basic?, if_neg hc.1.2, if_neg hc.2, if_pos hc.1.1]

/-- The reader takes a string of the grammar up to its closing quote, for what it stands for. -/
theorem BasicString.basic?_eq (h : BasicString w t) (r : Text) :
    basic? 0 (w ++ '"' :: r) = some (t, r) := by
  induction h with
  | nil => rfl
  | unescaped hc _ ih => rw [List.cons_append, basic?_unescaped hc, ih]; rfl
  | letter he _ ih => rw [List.cons_append, List.cons_append, basic?_letter he, ih]; rfl
  | code hu hc _ ih =>
    rw [List.cons_append, List.cons_append, List.append_assoc, basic?_code hu hc, ih]
    rfl

/-- A string on one line is not taken for the beginning of a string on several lines. -/
theorem string?_basic (hw : Stops (· == '"') w) (hr : Stops (· == '"') r) :
    string? ('"' :: (w ++ '"' :: r)) = basic? 0 (w ++ '"' :: r) := by
  rw [string?]
  intro r' heq
  rcases w with _ | ⟨c, w⟩
  · obtain rfl := (List.cons.inj heq).2
    exact absurd hr (by simp)
  · rw [(List.cons.inj heq).1] at hw
    exact absurd hw (by simp)

theorem BasicString.stops (h : BasicString w t) : Stops (· == '"') w := by
  cases h with
  | nil => exact stops_nil
  | unescaped hc _ =>
    simp only [isUnescaped, Bool.and_eq_true, bne_iff_ne] at hc
    simpa using hc.1.2
  | letter _ _ => exact stops_cons.mpr rfl
  | code _ _ _ => exact stops_cons.mpr rfl

theorem BasicString.string?_eq (h : BasicString w t) (hr : Stops (· == '"') r) :
    string? ('"' :: (w ++ '"' :: r)) = some (t, r) :=
  (string?_basic h.stops hr).trans (h.basic?_eq r)

/-! ## Entries -/

theorem Entries.get?_eq_none (h : k ∉ es.map Prod.fst) : Entries.get? es k = none := by
  rw [Entries.get?, List.lookup_eq_none_iff]
  intro e he
  rw [bne_iff_ne]
  rintro rfl
  exact h (List.mem_map_of_mem he)

theorem Entries.set_of_not_mem (h : k ∉ es.map Prod.fst) (v : Value) :
    Entries.set k v es = es ++ [(k, v)] := by
  induction es with
  | nil => rfl
  | cons e es ih =>
    rw [List.map_cons, List.mem_cons, not_or] at h
    rw [Entries.set, if_neg (Ne.symm h.1), ih h.2, List.cons_append]

/-- A new key is added at the end of the only table. -/
theorem updateOpen?_assignPath? (h : k ∉ es.map Prod.fst) (v : Value) :
    updateOpen? (assignPath? [k] v) [name] [(name, .table .header es)] =
      some [(name, .table .header (es ++ [(k, v)]))] := by
  have hassign : assignPath? [k] v es = some (es ++ [(k, v)]) := by
    simp [assignPath?, updateAt?, assign?, Entries.get?_eq_none h, Entries.set_of_not_mem h]
  simp [updateOpen?, updateAt?, enter?, Entries.get?, Entries.set, hassign]

/-! ## Lines -/

/-- How a line adds to the only table of a document: it gives the key its value, or it cannot be
read. -/
def Assigns (line : Text) (entry : Text × Option Text) : Prop :=
  ∀ (name : Text) (es : List (Text × Value)) (r : Text), entry.1 ∉ es.map Prod.fst →
    line? ⟨[(name, .table .header es)], [name]⟩ (line ++ '\n' :: r) =
      entry.2.map fun v ↦
        (⟨[(name, .table .header (es ++ [(entry.1, .string v)]))], [name]⟩, '\n' :: r)

/-- A line that begins with a key without quotes is read as an assignment. -/
theorem line?_bare (hk : IsBareKey k) (p : Progress) (r : Text) :
    line? p (k ++ r) = (assignment? p (k ++ r)).bind fun (p, r) ↦ (lineRest? r).map (p, ·) := by
  obtain ⟨c, s, rfl, hc⟩ := hk.exists_cons
  have hblank : skipBlanks (c :: (s ++ r)) = c :: (s ++ r) :=
    List.dropWhile_cons_of_neg (by rw [not_isBlank_of_isBareKeyChar hc]; decide)
  have hne : ∀ d, isBareKeyChar d = false → c ≠ d := by
    rintro d hd rfl
    exact Bool.false_ne_true (hd.symm.trans hc)
  have hnewline : beginsNewline (c :: (s ++ r)) = false := by
    rw [beginsNewline.eq_3 _ (fun _ heq ↦ hne _ rfl (List.cons.inj heq).1)
      fun _ heq ↦ hne _ rfl (List.cons.inj heq).1]
  rw [List.cons_append, line?, hblank]
  split
  · exact absurd (List.cons.inj ‹_›).1 (hne _ rfl)
  · exact absurd (List.cons.inj ‹_›).1 (hne _ rfl)
  · rw [if_neg]
    simp [hnewline, hne '#' rfl]

/-- What an assignment of a quoted value to a bare key does is decided by the value alone. -/
theorem assigns_quoted {v : Option Text} (before after : Text) (hk : IsBareKey k)
    (hbefore : ∀ c ∈ before, isBlank c = true) (hafter : ∀ c ∈ after, isBlank c = true)
    (hv : ∀ r, string? ('"' :: (w ++ '\n' :: r)) = v.map (·, '\n' :: r)) :
    Assigns (k ++ (before ++ '=' :: (after ++ '"' :: w))) (k, v) := by
  intro name es r hnew
  have hstring : skipBlanks (after ++ '"' :: (w ++ '\n' :: r)) = '"' :: (w ++ '\n' :: r) :=
    skipBlanks_append hafter (stops_cons.mpr rfl)
  simp only [List.append_assoc, List.cons_append]
  rw [line?_bare hk, assignment?, key?_bare hk hbefore (.inl rfl)]
  simp only [Option.bind_some, word?, if_pos, hstring, value?, hv r]
  cases v with
  | none => rfl
  | some v =>
    simp only [Option.map_some, Option.bind_some, updateOpen?_assignPath? hnew]
    rfl

/-- A line of the grammar gives its key the text that its string stands for. -/
theorem StringLine.assigns {line : Text} {e : Text × Text} (h : StringLine line e) :
    Assigns line (e.1, some e.2) := by
  obtain ⟨hkey, hbefore, hafter, h⟩ := h
  refine assigns_quoted _ _ hkey hbefore hafter fun r ↦ ?_
  rw [List.append_assoc, List.singleton_append]
  exact h.string?_eq (stops_cons.mpr rfl)

/-! ## Documents -/

theorem line?_nil (p : Progress) : line? p [] = some (p, []) := rfl

/-- The header opens a table without entries. -/
theorem line?_header (hn : IsBareKey name) (r : Text) :
    line? ⟨[], []⟩ ('[' :: (name ++ ']' :: '\n' :: r)) =
      some (⟨[(name, .table .header [])], [name]⟩, '\n' :: r) := by
  obtain ⟨c, s, hname, hc⟩ := hn.exists_cons
  have hblank : skipBlanks (name ++ ']' :: '\n' :: r) = name ++ ']' :: '\n' :: r := by
    rw [hname, List.cons_append]
    exact List.dropWhile_cons_of_neg (by rw [not_isBlank_of_isBareKeyChar hc]; decide)
  have hheader : tableHeader? ⟨[], []⟩ (name ++ ']' :: '\n' :: r) =
      some (⟨[(name, .table .header [])], [name]⟩, '\n' :: r) := by
    have hkey := key?_bare (w := []) (r := '\n' :: r) hn (by simp) (.inr rfl)
    rw [tableHeader?, hblank, ← List.nil_append (']' :: _), hkey]
    rfl
  have hopen : skipBlanks ('[' :: (name ++ ']' :: '\n' :: r)) =
      '[' :: (name ++ ']' :: '\n' :: r) := rfl
  rw [line?, hopen]
  split
  · rename_i heq
    rw [hname] at heq
    obtain rfl := (List.cons.inj (List.cons.inj heq).2).1
    exact absurd hc (by decide)
  · rename_i heq
    obtain rfl := (List.cons.inj heq).2
    rw [hheader]
    rfl
  · rename_i hne
    exact absurd rfl (hne _)

/-- The entry of a line, if the line can be read. -/
def stringField? (f : Text × Option Text) : Option (Text × Value) :=
  f.2.map fun v ↦ (f.1, .string v)

/-- Lines are read one after the other, up to the first that cannot be read. -/
theorem document?_lines {ls : List Text} {fs : List (Text × Option Text)}
    (h : List.Forall₂ Assigns ls fs) (hnodup : (es.map Prod.fst ++ fs.map Prod.fst).Nodup)
    (n : Nat) :
    document? (n + 1 + ls.length) ⟨[(name, .table .header es)], [name]⟩
        (ls.flatMap (· ++ ['\n'])) =
      (fs.mapM stringField?).map fun vs ↦ [(name, .table .header (es ++ vs))] := by
  induction h generalizing es with
  | nil => simp [document?, line?_nil]
  | @cons l f ls fs hl _ ih =>
    obtain ⟨k, v⟩ := f
    rw [List.map_cons] at hnodup
    have hnew : k ∉ es.map Prod.fst := fun hmem ↦
      (List.nodup_append.mp hnodup).2.2 _ hmem _ List.mem_cons_self rfl
    have hstep := hl name es (ls.flatMap (· ++ ['\n'])) hnew
    rw [List.flatMap_cons, List.append_assoc, List.singleton_append, List.length_cons,
      ← Nat.add_assoc, document?, hstep, List.mapM_cons]
    cases v with
    | none => rfl
    | some v =>
      have hnodup' : ((es ++ [(k, Value.string v)]).map Prod.fst ++ fs.map Prod.fst).Nodup := by
        simpa using hnodup
      have hrest := ih hnodup'
      simp only [Option.map_some, Option.bind_some, List.cons_ne_nil, if_false, dropNewline, hrest,
        stringField?, Option.bind_eq_bind, Option.pure_def]
      cases List.mapM stringField? fs with
      | none => rfl
      | some vs => simp

/-- The reading of a document whose lines each give a key of their own a value, or cannot be read.
-/
theorem parse?_lines {ls : List Text} {fs : List (Text × Option Text)} (hname : IsBareKey name)
    (h : List.Forall₂ Assigns ls fs) (hnodup : (fs.map Prod.fst).Nodup) :
    parse? ((('[' :: name ++ [']']) :: ls).flatMap (· ++ ['\n'])) =
      (fs.mapM stringField?).map fun vs ↦ [(name, .table .header vs)] := by
  have hdoc : (('[' :: name ++ [']']) :: ls).flatMap (· ++ ['\n']) =
      '[' :: (name ++ ']' :: '\n' :: ls.flatMap (· ++ ['\n'])) := by simp
  have hlength : ls.length ≤ (ls.flatMap (· ++ ['\n'])).length := by
    rw [List.length_flatMap, ← List.length_map (fun l ↦ (l ++ ['\n']).length)]
    refine List.length_le_sum_of_one_le _ fun n hn ↦ ?_
    obtain ⟨l, -, rfl⟩ := List.mem_map.mp hn
    rw [List.length_append]
    exact Nat.le_add_left _ _
  -- Every line has a character of its own, so the bound on their number is never met.
  obtain ⟨n, hn⟩ : ∃ n, ('[' :: (name ++ ']' :: '\n' :: ls.flatMap (· ++ ['\n']))).length =
      n + 1 + ls.length := by
    obtain ⟨n, hn⟩ := Nat.exists_eq_add_of_le' hlength
    refine ⟨name.length + 2 + n, ?_⟩
    rw [List.length_cons, List.length_append, List.length_cons, List.length_cons, hn]
    omega
  have hmark : optionally (word? [byteOrderMark])
      ('[' :: (name ++ ']' :: '\n' :: ls.flatMap (· ++ ['\n']))) =
        '[' :: (name ++ ']' :: '\n' :: ls.flatMap (· ++ ['\n'])) := by
    rw [optionally, word?, if_neg (by decide)]
    rfl
  rw [hdoc, parse?, hmark, hn, document?, line?_header hname, Option.bind_some]
  simp only [List.cons_ne_nil, if_false, dropNewline]
  rw [document?_lines h (by simpa using hnodup)]
  rfl

theorem mapM_stringField?_some (entries : List (Text × Text)) :
    (entries.map fun e ↦ (e.1, some e.2)).mapM stringField? =
      some (entries.map fun e ↦ (e.1, .string e.2)) := by
  induction entries with
  | nil => rfl
  | cons e entries ih => rw [List.map_cons, List.mapM_cons, ih]; rfl

theorem mapM_stringField?_eq_none {fs : List (Text × Option Text)} {f : Text × Option Text}
    (hf : f ∈ fs) (h : f.2 = none) : fs.mapM stringField? = none := by
  induction fs with
  | nil => cases hf
  | cons g fs ih =>
    rw [List.mapM_cons]
    rcases List.mem_cons.mp hf with rfl | hf
    · rw [stringField?, h]
      rfl
    · rw [ih hf]
      cases stringField? g <;> rfl

/-- **The reader follows the grammar.** Of a document with one table of strings it gives that table.
-/
theorem IsStringTable.parse?_eq {entries : List (Text × Text)} {doc : Text}
    (h : IsStringTable name entries doc) :
    parse? doc = some [(name, .table .header (entries.map fun e ↦ (e.1, .string e.2)))] := by
  obtain ⟨ls, hls, rfl⟩ := h.exists_lines
  have hassigns : List.Forall₂ Assigns ls (entries.map fun e ↦ (e.1, some e.2)) := by
    rw [List.forall₂_map_right_iff]
    exact hls.imp fun _ _ ↦ StringLine.assigns
  have hnodup : ((entries.map fun e ↦ (e.1, some e.2)).map Prod.fst).Nodup := by
    rw [List.map_map]
    exact h.nodup
  rw [parse?_lines h.isBareKey hassigns hnodup, mapM_stringField?_some]
  rfl

end PluginPack.Toml
