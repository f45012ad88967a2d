import PluginPack.Proofs.TypeSyntax.Passing
import PluginPack.Proofs.Typed.Tree
import PluginPack.Proofs.Untyped.Parameter

/-!
# Parameters with types

A parameter is a name or a flat pattern, perhaps behind three points, perhaps with a type, which may
be optional, and perhaps with a default value. Erasing its type leaves the name or pattern and the
value. The types of a whole list are erased one after the other, since no comma that stands between
parameters stands inside brackets.
-/

namespace PluginPack

open Text Script TypeSyntax

namespace Typed

variable {c : Char} {lead r v w w' : Text} {p q : Char → Bool} {ws : List Text}

/-! ## Ends of texts -/

/-- Whether a text ends in a character that is neither white nor a question mark. -/
def EndsBlack (w : Text) : Prop := ∃ c ∈ w.getLast?, isWhite c = false ∧ c ≠ '?'

theorem EndsBlack.append (h : EndsBlack w) (v : Text) : EndsBlack (v ++ w) := by
  obtain ⟨c, hc, h⟩ := h
  refine ⟨c, ?_, h⟩
  rw [List.getLast?_append, Option.mem_def.mp hc]
  rfl

theorem EndsBlack.cons (h : EndsBlack w) (c : Char) : EndsBlack (c :: w) := h.append [c]

theorem endsBlack_concat (v : Text) (hc : isWhite c = false ∧ c ≠ '?') : EndsBlack (v ++ [c]) :=
  ⟨c, List.getLast?_concat, hc⟩

theorem EndsBlack.exists_concat (h : EndsBlack w) :
    ∃ v c, w = v ++ [c] ∧ isWhite c = false ∧ c ≠ '?' := by
  obtain ⟨c, hc, h⟩ := h
  obtain ⟨v, hv⟩ := List.getLast?_eq_some_iff.mp hc
  exact ⟨v, c, hv, h⟩

theorem EndsBlack.trimEnd_eq (h : EndsBlack w) : trimEnd w = w := by
  obtain ⟨v, c, rfl, hc, -⟩ := h.exists_concat
  exact trimEnd_append_cons hc v []

theorem EndsBlack.trailingWhite_eq (h : EndsBlack w) : trailingWhite w = [] := by
  obtain ⟨v, c, rfl, hc, -⟩ := h.exists_concat
  rw [trailingWhite, List.reverse_append, List.reverse_singleton, List.singleton_append,
    List.takeWhile_cons_of_neg (by simp [hc])]
  rfl

/-- The question mark behind a name or a pattern is dropped, if there is one. -/
theorem EndsBlack.dropOptional_eq (h : EndsBlack w) (isOptional : Bool) :
    dropOptional (w ++ if isOptional then ['?'] else []) = w := by
  cases isOptional with
  | true =>
    have htrim : trimEnd (w ++ ['?']) = w ++ ['?'] := trimEnd_append_cons (by rfl) w []
    simp only [if_true, dropOptional, htrim, List.getLast?_concat, List.dropLast_concat,
      h.trimEnd_eq]
  | false =>
    have htrim := h.trimEnd_eq
    obtain ⟨c, hc, -, hquestion⟩ := h
    have hlast : w.getLast? ≠ some '?' := by
      rw [Option.mem_def.mp hc]
      simpa using hquestion
    simp only [Bool.false_eq_true, if_false, List.append_nil, dropOptional, htrim, if_neg hlast]

theorem EndsBlack.trimStart_ne_nil (h : EndsBlack w) : trimStart w ≠ [] := by
  obtain ⟨c, hc, hwhite, -⟩ := h
  intro hnil
  rw [List.dropWhile_eq_nil_iff.mp hnil c (List.mem_of_mem_getLast? hc)] at hwhite
  cases hwhite

theorem isWhite_of_isPathChar (h : isPathChar c = true) : isWhite c = false :=
  isWhite_of_forall h (by decide)

theorem endsBlack_of_isPathChar (hne : w ≠ []) (hw : ∀ c ∈ w, isPathChar c = true) :
    EndsBlack w := by
  obtain ⟨c, hc⟩ := Option.ne_none_iff_exists'.mp (mt List.getLast?_eq_none_iff.mp hne)
  have hchar := hw c (List.mem_of_mem_getLast? hc)
  refine ⟨c, hc, isWhite_of_isPathChar hchar, ?_⟩
  rintro rfl
  cases hchar

theorem Name.isPathChar (n : Name) : ∀ c ∈ n.text, Typed.isPathChar c = true := fun c hc ↦ by
  rw [Typed.isPathChar, n.isIdentifierChar c hc, Bool.true_or]

theorem Name.isNameChar (n : Name) : ∀ c ∈ n.text, PluginPack.isNameChar c = true := by
  intro c hc
  have hchar := n.isIdentifierChar c hc
  rw [Registry.isIdentifierChar, Bool.or_eq_true, Bool.or_eq_true, beq_iff_eq, beq_iff_eq] at hchar
  rcases hchar with (h | rfl) | rfl
  · exact isNameChar_of_isAlphanum h
  · rfl
  · rfl

theorem Name.endsBlack (n : Name) : EndsBlack n.text :=
  endsBlack_of_isPathChar n.ne_nil n.isPathChar

theorem StringLiteral.endsBlack (l : StringLiteral) : EndsBlack l.text := by
  rcases Untyped.getLast?_of_isString l.isString with h | h
  · exact ⟨_, h, rfl, by decide⟩
  · exact ⟨_, h, rfl, by decide⟩

theorem Tree.endsBlack (t : Tree .type) (isTyped : Bool) : EndsBlack (t.write isTyped) := by
  suffices h : ∀ {k} (t : Tree k), k = .type → EndsBlack (t.write isTyped) from h t rfl
  intro k t hk
  induction t with
  | name n =>
    refine endsBlack_of_isPathChar (fun h ↦ n.first.ne_nil ?_) n.isPathChar
    exact (List.append_eq_nil_iff.mp h).1
  | literal l => exact l.endsBlack
  | array t => exact (endsBlack_concat ['['] (by decide)).append _
  | generic n ts => exact ((endsBlack_concat (ts.write isTyped) (by decide)).cons '<').append _
  | joined j t u _ ih => exact (((((ih rfl).cons ' ').cons _).cons ' ').append _)
  | group t => exact (endsBlack_concat (t.write isTyped) (by decide)).cons '('
  | function ps t _ ih =>
    exact ((((((ih rfl).cons ' ').cons '>').cons '=').cons ' ').cons ')').append _ |>.cons '('
  | object ms isClosed => exact (endsBlack_concat _ (by decide)).cons '{'
  | _ => cases hk

/-- A character that is no mark of a class is not among its marks. -/
theorem bne_of_mark {d : Char} (hd : p d = false) (c : Char) (hc : p c = true) :
    (c != d) = true := by
  rw [bne_iff_ne]
  rintro rfl
  rw [hc] at hd
  cases hd

/-! ## Lists of parameters -/

/-- Erasing the type of the parameter `w`, which holds no comma outside brackets, leaves `w'`. -/
structure Erases (w w' : Text) : Prop where
  comma : Nested anyMark (· != ',') w
  erase : ∀ lead, (∀ c ∈ lead, c = ' ') → eraseParameterType (lead ++ w) = lead ++ w'

theorem nested_blanks (hlead : ∀ c ∈ lead, c = ' ') (hp : p ' ' = true) : Nested q p lead :=
  .of_ordinary fun c hc ↦ by
    rw [hlead c hc]
    exact ⟨rfl, hp⟩

theorem Erases.last (h : Erases w w') (hlead : ∀ c ∈ lead, c = ' ') :
    eraseParameterTypes (lead ++ w) = lead ++ w' := by
  rw [Untyped.eraseParameterTypes_of_none, h.erase lead hlead]
  exact splitTopLevel?_nested_eq_none ((nested_blanks hlead rfl).append h.comma) (by simp)

theorem Erases.more (h : Erases w w') (hlead : ∀ c ∈ lead, c = ' ') (r : Text) :
    eraseParameterTypes (lead ++ (w ++ ',' :: ' ' :: r)) =
      lead ++ (w' ++ ',' :: eraseParameterTypes (' ' :: r)) := by
  have hsplit : splitTopLevel? (· == ',') 0 (lead ++ w ++ ',' :: ' ' :: r) =
      some (lead ++ w, ',' :: ' ' :: r) :=
    splitTopLevel?_nested_found ((nested_blanks hlead rfl).append h.comma) (by simp) rfl (by rfl) _
  rw [List.append_assoc] at hsplit
  rw [Untyped.eraseParameterTypes_of_some hsplit, h.erase lead hlead, List.append_assoc]

/-- **The types of a list** are erased one after the other. -/
theorem eraseParameterTypes_intercalate {α : Type} {f g : α → Text} {xs : List α}
    (h : ∀ x ∈ xs, Erases (f x) (g x)) (hlead : ∀ c ∈ lead, c = ' ') :
    eraseParameterTypes (lead ++ [',', ' '].intercalate (xs.map f)) =
      lead ++ [',', ' '].intercalate (xs.map g) := by
  induction xs generalizing lead with
  | nil =>
    have hempty : Erases [] [] :=
      ⟨.nil, fun lead hlead ↦ by
        rw [List.append_nil]
        exact Untyped.eraseParameterType_white fun c hc ↦ by rw [hlead c hc]; rfl⟩
    exact hempty.last hlead
  | cons x xs ih =>
    obtain ⟨hx, hxs⟩ := List.forall_mem_cons.mp h
    cases xs with
    | nil =>
      rw [List.map_singleton, List.map_singleton, List.intercalate_singleton,
        List.intercalate_singleton]
      exact hx.last hlead
    | cons y ys =>
      have hrest := ih hxs (List.forall_mem_singleton.mpr rfl)
      simp only [List.map_cons, List.intercalate_cons_cons, List.append_assoc, List.cons_append,
        List.nil_append] at hrest ⊢
      rw [hx.more hlead, hrest]

/-! ## Names and patterns -/

/-- What a parameter binds: a name or a flat pattern. A field of an object may be bound to another
name. -/
inductive Target where
  | name (n : Name)
  | object (fields : List (Name × Option Name))
  | array (names : List Name)

def fieldText (f : Name × Option Name) : Text :=
  f.1.text ++ match f.2 with
    | none => []
    | some n => ':' :: ' ' :: n.text

def Target.text : Target → Text
  | name n => n.text
  | object fields => '{' :: ' ' :: ([',', ' '].intercalate (fields.map fieldText) ++ [' ', '}'])
  | array names => '[' :: ([',', ' '].intercalate (names.map Name.text) ++ [']'])

/-- The marks outside brackets in what a parameter binds. -/
def isTargetMark (c : Char) : Bool := isPathChar c || ['[', '{'].contains c

theorem isTargetMark_of_isPathChar (c : Char) (h : isPathChar c = true) :
    isTargetMark c = true := by
  rw [isTargetMark, h, Bool.true_or]

theorem Nested.intercalate (hcomma : p ',' = true) (hblank : p ' ' = true)
    (h : ∀ w ∈ ws, Nested q p w) : Nested q p ([',', ' '].intercalate ws) := by
  induction ws with
  | nil => exact .nil
  | cons w ws ih =>
    obtain ⟨hw, hws⟩ := List.forall_mem_cons.mp h
    cases ws with
    | nil => rwa [List.intercalate_singleton]
    | cons v ws =>
      rw [List.intercalate_cons_cons, List.append_assoc]
      exact hw.append (.ordinary rfl hcomma (.ordinary rfl hblank (ih hws)))

theorem nested_fieldText (f : Name × Option Name) : Nested anyMark anyMark (fieldText f) := by
  refine (Nested.name (fun _ _ ↦ rfl) f.1).append ?_
  cases f.2 with
  | none => exact .nil
  | some n => exact .ordinary rfl rfl (.ordinary rfl rfl (.name (fun _ _ ↦ rfl) n))

theorem Target.nested (b : Target) : Nested anyMark isTargetMark b.text := by
  cases b with
  | name n => exact .name isTargetMark_of_isPathChar n
  | object fields =>
    have hfields : Nested anyMark anyMark ([',', ' '].intercalate (fields.map fieldText)) :=
      .intercalate rfl rfl (List.forall_mem_map.mpr fun f _ ↦ nested_fieldText f)
    have hinside := Nested.ordinary (p := anyMark) (c := ' ') rfl rfl
      (hfields.append (.ordinary (c := ' ') rfl rfl .nil))
    have hgroup := Nested.brackets (p := isTargetMark) .brace rfl hinside
    simpa [text, Delimiter.opening, Delimiter.closing] using hgroup
  | array names =>
    refine .brackets .square rfl (.intercalate rfl rfl ?_)
    exact List.forall_mem_map.mpr fun n _ ↦ .name (fun _ _ ↦ rfl) n

theorem Target.endsBlack (b : Target) : EndsBlack b.text := by
  cases b with
  | name n => exact n.endsBlack
  | object fields =>
    have h := ((endsBlack_concat [' '] (c := '}') (by decide)).append
      ([',', ' '].intercalate (fields.map fieldText))).cons ' ' |>.cons '{'
    exact h
  | array names => exact (endsBlack_concat _ (by decide)).cons '['

/-! ## Default values -/

/-- A number, perhaps with a sign or an exponent. -/
structure Number where
  text : Text
  start : text.head?.any (fun c ↦ c.isDigit || c == '.' || c == '-') = true
  chars : ∀ c ∈ text, (isPathChar c || c == '+' || c == '-') = true

inductive Default where
  | name (n : Name)
  | number (n : Number)
  | literal (l : StringLiteral)
  | emptyList
  | emptyObject

def Default.text : Default → Text
  | name n => n.text
  | number n => n.text
  | literal l => l.text
  | emptyList => ['[', ']']
  | emptyObject => ['{', '}']

/-- The marks outside brackets in a default value. -/
def isDefaultMark (c : Char) : Bool := isPathChar c || ['+', '-', '"', '[', '{'].contains c

theorem isDefaultMark_of_isPathChar (c : Char) (h : isPathChar c = true) :
    isDefaultMark c = true := by
  rw [isDefaultMark, h, Bool.true_or]

theorem Number.isOrdinary (n : Number) :
    ∀ c ∈ n.text, Typed.isOrdinary c = true ∧ isDefaultMark c = true := by
  intro c hc
  have hchar := n.chars c hc
  rw [Bool.or_eq_true, Bool.or_eq_true, beq_iff_eq, beq_iff_eq] at hchar
  rcases hchar with (h | rfl) | rfl
  · exact ⟨isOrdinary_of_isPathChar h, isDefaultMark_of_isPathChar c h⟩
  · exact ⟨rfl, rfl⟩
  · exact ⟨rfl, rfl⟩

theorem Default.nested (d : Default) : Nested anyMark isDefaultMark d.text := by
  cases d with
  | name n => exact .name isDefaultMark_of_isPathChar n
  | number n => exact .of_ordinary n.isOrdinary
  | literal l => exact .stringLiteral rfl l
  | emptyList => exact .brackets .square rfl .nil
  | emptyObject => exact .brackets .brace rfl .nil

/-! ## Parameters -/

structure Annotation where
  isOptional : Bool
  type : Tree .type

structure Parameter where
  isRest : Bool
  target : Target
  annotation : Option Annotation
  value : Option Default

namespace Parameter

/-- What a parameter binds, with the points in front of it. -/
def binder (x : Parameter) : Text := (if x.isRest then ['.', '.', '.'] else []) ++ x.target.text

def annotationText (x : Parameter) : Text :=
  match x.annotation with
  | none => []
  | some a => (if a.isOptional then ['?'] else []) ++ ':' :: ' ' :: a.type.text

def valueText (x : Parameter) : Text :=
  match x.value with
  | none => []
  | some d => ' ' :: '=' :: ' ' :: d.text

/-- How a parameter is written. -/
def text (x : Parameter) : Text := x.binder ++ (x.annotationText ++ x.valueText)

/-- A parameter without its type. -/
def erased (x : Parameter) : Text := x.binder ++ x.valueText

theorem nested_binder (x : Parameter) : Nested anyMark isTargetMark x.binder := by
  refine .append ?_ x.target.nested
  cases x.isRest with
  | true => exact .of_ordinary (by decide)
  | false => exact .nil

theorem endsBlack_binder (x : Parameter) : EndsBlack x.binder := x.target.endsBlack.append _

theorem nested_valueText (x : Parameter) :
    Nested anyMark (fun c ↦ isDefaultMark c || c == ' ' || c == '=') x.valueText := by
  rw [valueText]
  split
  · exact .nil
  · rename_i d _
    refine .ordinary rfl (by rfl) (.equals (by rfl) rfl (.ordinary rfl (by rfl) ?_))
    exact d.nested.mono (fun _ h ↦ h) fun c hc ↦ by simp [hc]

theorem nested_erased (x : Parameter) : Nested anyMark anyMark x.erased :=
  (x.nested_binder.mono (fun _ h ↦ h) fun _ _ ↦ rfl).append
    (x.nested_valueText.mono (fun _ h ↦ h) fun _ _ ↦ rfl)

theorem nested_annotationText (x : Parameter) :
    Nested anyMark (fun c ↦ isTypeMark c || c == '?' || c == ':') x.annotationText := by
  rw [annotationText]
  split
  · exact .nil
  · rename_i a _
    have htype : Nested anyMark (fun c ↦ isTypeMark c || c == '?' || c == ':')
        (':' :: ' ' :: a.type.text) :=
      .ordinary rfl (by rfl) (.ordinary rfl (by rfl)
        (a.type.nested_type.mono (fun _ h ↦ h) fun c hc ↦ by simp [hc]))
    refine .append ?_ htype
    cases a.isOptional with
    | true => exact .ordinary rfl (by rfl) .nil
    | false => exact .nil

theorem nested_text (x : Parameter) : Nested anyMark (· != ',') x.text :=
  (x.nested_binder.mono (fun _ h ↦ h) (bne_of_mark (by decide))).append <|
    (x.nested_annotationText.mono (fun _ h ↦ h) (bne_of_mark (by decide))).append
      (x.nested_valueText.mono (fun _ h ↦ h) (bne_of_mark (by decide)))

/-- Outside brackets the first equals sign of a parameter stands in front of its value. -/
theorem splitTopLevel?_value {p' : Char → Bool} {d : Default} (hw : Nested anyMark p w)
    (hp : ∀ c, p c = true → p' c = false) (hblank : p' ' ' = false) (hequals : p' '=' = true) :
    splitTopLevel? p' 0 (w ++ ' ' :: '=' :: ' ' :: d.text) =
      some (w ++ [' '], '=' :: ' ' :: d.text) := by
  have hgap : Nested anyMark (fun c ↦ p c || c == ' ') (w ++ [' ']) :=
    (hw.mono (fun _ h ↦ h) fun c hc ↦ by simp [hc]).append (.ordinary rfl (by simp) .nil)
  have hmarks : ∀ c, (p c || c == ' ') = true → p' c = false := by
    intro c hc
    rw [Bool.or_eq_true, beq_iff_eq] at hc
    rcases hc with hc | rfl
    · exact hp c hc
    · exact hblank
  have hfound := splitTopLevel?_nested hgap hmarks ('=' :: ' ' :: d.text)
  rw [Untyped.splitTopLevel?_found rfl (by simp) rfl rfl hequals, Untyped.attach_some,
    List.append_nil] at hfound
  simpa using hfound

theorem eraseParameterType_of_some {name type : Text}
    (h : splitTopLevel? Untyped.beginsType 0 w = some (name, ':' :: type)) :
    eraseParameterType w =
      match splitTopLevel? (· == '=') 0 type with
      | some (_, value) => dropOptional name ++ ' ' :: value
      | none => dropOptional name ++ trailingWhite w := by
  have hsplit : splitTopLevel? (fun c ↦ c == ':' || c == '=') 0 w = some (name, ':' :: type) := h
  rw [eraseParameterType, hsplit]
  rfl

theorem beginsType_of_mark (h : (isTargetMark c || c == ' ') = true) :
    Untyped.beginsType c = false := by
  rw [Untyped.beginsType, Bool.or_eq_false_iff, beq_eq_false_iff_ne, beq_eq_false_iff_ne]
  constructor <;> rintro rfl <;> revert h <;> decide

/-- Without a type the first that is found is the equals sign, or nothing is. -/
theorem eraseParameterType_untyped (hw : Nested anyMark (fun c ↦ isTargetMark c || c == ' ') w)
    (x : Parameter) : eraseParameterType (w ++ x.valueText) = w ++ x.valueText := by
  refine Untyped.eraseParameterType_eq_self fun name type hsplit ↦ ?_
  rw [valueText] at hsplit
  split at hsplit
  · rw [List.append_nil, splitTopLevel?_nested_eq_none hw fun _ ↦ beginsType_of_mark] at hsplit
    cases hsplit
  · rw [splitTopLevel?_value hw (fun _ ↦ beginsType_of_mark) (by decide) (by decide)] at hsplit
    cases hsplit

/-- A type ends in front of the equals sign, or with the parameter. -/
theorem eraseParameterType_typed (hw : Nested anyMark (fun c ↦ isTargetMark c || c == ' ') w)
    (hblack : EndsBlack w) (x : Parameter) (a : Annotation) :
    eraseParameterType ((w ++ if a.isOptional then ['?'] else []) ++
      ':' :: (' ' :: a.type.text ++ x.valueText)) = w ++ x.valueText := by
  have hname : Nested anyMark (fun c ↦ isTargetMark c || c == ' ' || c == '?')
      (w ++ if a.isOptional then ['?'] else []) := by
    refine (hw.mono (fun _ h ↦ h) fun c hc ↦ by simp [hc]).append ?_
    cases a.isOptional with
    | true => exact .ordinary rfl (by rfl) .nil
    | false => exact .nil
  have hnames : ∀ c, (isTargetMark c || c == ' ' || c == '?') = true →
      Untyped.beginsType c = false := by
    intro c hc
    rw [Bool.or_eq_true, beq_iff_eq] at hc
    rcases hc with hc | rfl
    · exact beginsType_of_mark hc
    · rfl
  have hsplit := splitTopLevel?_nested_found (c := ':') hname hnames (by decide) (by decide)
    (' ' :: a.type.text ++ x.valueText)
  have htype : Nested anyMark isTypeMark (' ' :: a.type.text) :=
    .ordinary rfl (by decide) a.type.nested_type
  have hmarks : ∀ c, isTypeMark c = true → (c == '=') = false := by
    intro c hc
    rw [beq_eq_false_iff_ne]
    rintro rfl
    revert hc
    decide
  rw [eraseParameterType_of_some hsplit, hblack.dropOptional_eq a.isOptional, valueText]
  cases x.value with
  | none =>
    -- The type ends the parameter, so no white space is kept behind it.
    have hend : EndsBlack ((w ++ if a.isOptional then ['?'] else []) ++
        ':' :: (' ' :: a.type.text ++ [])) := by
      rw [List.append_nil]
      exact (((a.type.endsBlack true).cons ' ').cons ':').append _
    rw [hend.trailingWhite_eq, List.append_nil, splitTopLevel?_nested_eq_none htype hmarks]
  | some d => rw [splitTopLevel?_value htype hmarks rfl rfl]

/-- **A parameter loses its type.** -/
theorem erases (x : Parameter) : Erases x.text x.erased := by
  refine ⟨x.nested_text, fun lead hlead ↦ ?_⟩
  have hbinder : Nested anyMark (fun c ↦ isTargetMark c || c == ' ') (lead ++ x.binder) :=
    (nested_blanks hlead (by simp)).append
      (x.nested_binder.mono (fun _ h ↦ h) fun c hc ↦ by simp [hc])
  rw [text, erased, annotationText, ← List.append_assoc lead, ← List.append_assoc lead]
  cases x.annotation with
  | none => exact eraseParameterType_untyped hbinder x
  | some a =>
    have htyped := eraseParameterType_typed hbinder (x.endsBlack_binder.append lead) x a
    simpa using htyped

/-! ## What is left of a parameter -/

theorem isSpacedScript_name (n : Name) : IsSpacedScript n.text :=
  .code (isSpacedCode_of_isNameChar n.isNameChar)

theorem isSpacedScript_fieldText (f : Name × Option Name) : IsSpacedScript (fieldText f) := by
  refine .append (isSpacedScript_name f.1) ?_
  cases f.2 with
  | none => exact .code isSpacedCode_nil
  | some n => exact .append (u := [':', ' ']) (.code (by decide)) (isSpacedScript_name n)

theorem isSpacedScript_target (b : Target) : IsSpacedScript b.text := by
  cases b with
  | name n => exact isSpacedScript_name n
  | object fields =>
    refine .append (u := ['{', ' ']) (.code (by decide))
      (.append (.intercalate ?_) (.code (by decide)))
    exact List.forall_mem_map.mpr fun f _ ↦ isSpacedScript_fieldText f
  | array names =>
    refine .append (u := ['[']) (.code (by decide)) (.append (.intercalate ?_) (.code (by decide)))
    exact List.forall_mem_map.mpr fun n _ ↦ isSpacedScript_name n

theorem isSpacedCode_number (n : Number) : IsSpacedCode n.text := by
  refine isSpacedCode_of_black (fun c hc ↦ isPlain_of_isOrdinary (n.isOrdinary c hc).1)
    fun c hc ↦ ?_
  have hchar := n.chars c hc
  rw [Bool.or_eq_true, Bool.or_eq_true, beq_iff_eq, beq_iff_eq] at hchar
  rcases hchar with (h | rfl) | rfl
  · exact isWhite_of_isPathChar h
  · rfl
  · rfl

theorem isSpacedScript_valueText (x : Parameter) : IsSpacedScript x.valueText := by
  rw [valueText]
  split
  · exact .code isSpacedCode_nil
  · rename_i d _
    refine .append (u := [' ', '=', ' ']) (.code (by decide)) ?_
    cases d with
    | name n => exact isSpacedScript_name n
    | number n => exact .code (isSpacedCode_number n)
    | literal l => exact .literal l.isString
    | emptyList => exact .code (by decide)
    | emptyObject => exact .code (by decide)

/-- Nothing is taken for an annotation or an assertion in a parameter without its type. -/
theorem isSpacedScript_erased (x : Parameter) : IsSpacedScript x.erased := by
  refine .append (.append ?_ (isSpacedScript_target x.target)) x.isSpacedScript_valueText
  cases x.isRest with
  | true => exact .code (by decide)
  | false => exact .code isSpacedCode_nil

end Parameter

end Typed

end PluginPack
