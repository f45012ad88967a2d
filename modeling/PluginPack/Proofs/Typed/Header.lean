import PluginPack.Proofs.TypeSyntax.Head
import PluginPack.Proofs.Typed.Parameter

/-!
# Headers of functions with types

A function with an empty body on one line, perhaps asynchronous, with type parameters, with
parameters, and with a return type. What is left when the types are erased is the header without
type parameters, parameter types and return type. The header is read from the parenthesis: forwards
to its closing parenthesis and over the return type to the brace, and backwards over the type
parameters to the word `function`.
-/

namespace PluginPack

open Text Script TypeSyntax

namespace Typed

variable {c : Char} {r v w : Text} {p q : Char → Bool}

/-! ## Headers -/

/-- A type parameter, perhaps with a constraint. -/
structure TypeParameter where
  name : Name
  bound : Option (Tree .type)
  isConstraint : ∀ t ∈ bound, t.isConstraint = true

def TypeParameter.text (x : TypeParameter) : Text :=
  x.name.text ++ match x.bound with
    | none => []
    | some t => " extends ".toList ++ t.text

structure Header where
  isAsync : Bool
  name : Name
  typeParameters : List TypeParameter
  parameters : List Parameter
  returns : Option (Tree .type)
  /-- No control keyword is taken for the name. -/
  isFree : name.text ∉ controlKeywords
  isClosed : ∀ t ∈ returns, t.isClosed = true

namespace Header

/-- What a header begins with, up to the name. -/
def head (h : Header) : Text :=
  functionHead h.isAsync h.name.text

def typeParametersText (h : Header) : Text :=
  match h.typeParameters with
  | [] => []
  | xs => '<' :: ([',', ' '].intercalate (xs.map TypeParameter.text) ++ ['>'])

def parametersText (h : Header) : Text := [',', ' '].intercalate (h.parameters.map Parameter.text)

def returnText (h : Header) : Text :=
  match h.returns with
  | none => []
  | some t => ':' :: ' ' :: t.text

/-- The empty body, with the blank in front of it. -/
def body : Text := [' ', '{', '}']

/-- How a header is written. -/
def text (h : Header) : Text :=
  h.head ++ (h.typeParametersText ++
    '(' :: (h.parametersText ++ ')' :: (h.returnText ++ body)))

/-- A header without types. -/
def erased (h : Header) : Text :=
  h.head ++ '(' :: ([',', ' '].intercalate (h.parameters.map Parameter.erased) ++ ')' :: body)

end Header

/-! ## Type parameters -/

/-- The characters of nested text without literals and arrows are its marks and closing brackets. -/
theorem Nested.forall_mem (h : Nested q p w) (hp : ∀ c, p c = true → q c = true)
    (hequals : q '=' = false) (harrow : q '>' = false) (hliteral : q '"' = false) :
    ∀ c ∈ w, q c = true ∨ ∃ b : Delimiter, q b.opening = true ∧ c = b.closing := by
  have hnot {d} (hd : q d = false) : p d = true → False := fun h ↦ by
    rw [hp d h] at hd
    cases hd
  induction h with
  | nil => simp
  | ordinary _ hmark _ ih => exact List.forall_mem_cons.mpr ⟨.inl (hp _ hmark), ih hp hnot⟩
  | equals hmark => exact (hnot hequals hmark).elim
  | arrow hmark => exact (hnot harrow hmark).elim
  | literal _ _ hmark => exact (hnot hliteral hmark).elim
  | group b hmark _ _ ihw ih =>
    have hinside := ihw (fun _ h ↦ h) fun hd h ↦ by rw [h] at hd; cases hd
    refine List.forall_mem_cons.mpr ⟨.inl (hp _ hmark), List.forall_mem_append.mpr ⟨hinside, ?_⟩⟩
    exact List.forall_mem_cons.mpr ⟨.inr ⟨b, hp _ hmark, rfl⟩, ih hp hnot⟩

theorem not_mem_of_mark {cs : List Char} (hcs : ∀ d ∈ cs, p d = false) (hc : p c = true) : c ∉ cs :=
  fun hmem ↦ by
    rw [hcs c hmem] at hc
    cases hc

theorem isParameterMark_of_isConstraintMark (c : Char) (hc : isConstraintMark c = true) :
    isParameterMark c = true := by
  have hnot : c ∉ [';', '{', '(', '=', '>', '"'] := not_mem_of_mark (by decide) hc
  simp only [List.mem_cons, List.not_mem_nil, or_false, not_or] at hnot
  simp [isParameterMark, hnot]

theorem isReturnMark_of_isClosedMark (c : Char) (hc : isClosedMark c = true) :
    isReturnMark c = true := by
  have hall : ∀ d ∈ [' ', '|', '&', '"', '(', '[', '<'], isReturnMark d = true := by decide
  rw [isClosedMark, Bool.or_eq_true, List.contains_iff_mem] at hc
  rcases hc with hc | hc
  · simp only [isPathChar, Registry.isIdentifierChar, Bool.or_eq_true, beq_iff_eq] at hc
    simp only [isReturnMark, isReturnTypeChar, isAsciiAlphanumeric, Bool.or_eq_true, beq_iff_eq]
    tauto
  · exact hall c hc

namespace Header

/-- The type parameters between their brackets. -/
def typeParametersInside (h : Header) : Text :=
  [',', ' '].intercalate (h.typeParameters.map TypeParameter.text)

theorem nested_typeParameters (h : Header) :
    Nested isConstraintMark isConstraintMark h.typeParametersInside := by
  refine .intercalate rfl rfl (List.forall_mem_map.mpr fun x _ ↦ ?_)
  have hname : ∀ c, isPathChar c = true → isConstraintMark c = true := fun c hc ↦ by
    rw [isConstraintMark, hc, Bool.true_or]
  refine (Nested.name hname x.name).append ?_
  cases hbound : x.bound with
  | none => exact .nil
  | some t =>
    have hextends : Nested isConstraintMark isConstraintMark " extends ".toList :=
      .of_ordinary (by decide)
    exact hextends.append (Tree.nested_constraint (x.isConstraint t hbound))

theorem mem_typeParametersInside (h : Header) :
    ∀ c ∈ h.typeParametersInside, isConstraintMark c = true ∨ c = '>' := by
  intro c hc
  rcases h.nested_typeParameters.forall_mem (fun _ h ↦ h) rfl rfl rfl c hc with hmark | ⟨b, hb, rfl⟩
  · exact .inl hmark
  · cases b with
    | angle => exact .inr rfl
    | _ => cases hb

theorem typeParametersText_eq (h : Header) :
    h.typeParametersText = [] ∨
      h.typeParametersText = '<' :: (h.typeParametersInside ++ ['>']) := by
  rw [typeParametersText, typeParametersInside]
  split
  · exact .inl rfl
  · exact .inr rfl

theorem passes_typeParametersText (h : Header) :
    ∀ c ∈ h.typeParametersText, (∀ r, inert? (c :: r) = none) ∧ c ≠ '(' := by
  have hangle : ∀ d ∈ ['<', '>'], (∀ r, inert? (d :: r) = none) ∧ d ≠ '(' := by
    simp [inert?, isQuote]
  have hinside : ∀ c ∈ h.typeParametersInside, (∀ r, inert? (c :: r) = none) ∧ c ≠ '(' := by
    intro c hc
    rcases h.mem_typeParametersInside c hc with hmark | rfl
    · have hnot : c ∉ ['"', '\'', '\x60', '/', '('] := not_mem_of_mark (by decide) hmark
      simp only [List.mem_cons, List.not_mem_nil, or_false, not_or] at hnot
      exact ⟨inert?_eq_none (by simp [isQuote, hnot]) hnot.2.2.2.1, hnot.2.2.2.2⟩
    · exact hangle '>' (by simp)
  rcases h.typeParametersText_eq with htext | htext
  · simp [htext]
  · rw [htext]
    refine List.forall_mem_cons.mpr ⟨hangle '<' (by simp), List.forall_mem_append.mpr ⟨hinside, ?_⟩⟩
    exact List.forall_mem_singleton.mpr (hangle '>' (by simp))

theorem isHead_head (h : Header) : IsHead h.head :=
  isHead_functionHead h.isAsync h.name.ne_nil h.name.isNameChar

/-- **Type parameters** are read backwards to the name. -/
theorem beforeTypeParameters?_header (h : Header) :
    (beforeTypeParameters? (h.head ++ h.typeParametersText).reverse).getD
      (h.head ++ h.typeParametersText).reverse = h.head.reverse := by
  rcases h.typeParametersText_eq with htext | htext
  · rw [htext, List.append_nil, h.isHead_head.plain]
    rfl
  · have hreverse : (h.head ++ '<' :: (h.typeParametersInside ++ ['>'])).reverse =
        '>' :: (h.typeParametersInside.reverse ++ '<' :: h.head.reverse) := by simp
    have hopen : openAngle? 1 (h.typeParametersInside.reverse ++ '<' :: h.head.reverse) =
        some h.head.reverse := by
      rw [openAngle?_nested h.nested_typeParameters isParameterMark_of_isConstraintMark
        isParameterMark_of_isConstraintMark 0]
      simp [openAngle?]
    have hbefore : beforeTypeParameters? (h.head ++ h.typeParametersText).reverse =
        some h.head.reverse := by
      rw [htext, hreverse, beforeTypeParameters?, trimStart_cons (by rfl)]
      split
      · -- No equals sign stands in front of the closing bracket.
        rename_i r heq
        cases hinside : h.typeParametersInside.reverse with
        | nil =>
          rw [hinside] at heq
          cases heq
        | cons c w =>
          rw [hinside] at heq
          obtain ⟨rfl, -⟩ := List.cons.inj (List.cons.inj heq).2
          rcases h.mem_typeParametersInside '=' (List.mem_reverse.mp (by simp [hinside])) with h | h
          · cases h
          · cases h
      · rename_i heq
        rw [← (List.cons.inj heq).2]
        exact hopen
      · rename_i hnot
        exact (hnot _ rfl).elim
    rw [hbefore]
    rfl

/-! ## The word in front of the name -/

theorem wordBefore?_reverse (hne : w ≠ []) (hw : ∀ c ∈ w, Untyped.isPart c = true)
    (hr : Stops Untyped.isPart r) : wordBefore? (w.reverse ++ r) = some (w, r) := by
  have hpart : ∀ c ∈ w.reverse, Untyped.isPart c = true := fun c hc ↦ hw c (List.mem_reverse.mp hc)
  have hstart : trimStart (w.reverse ++ r) = w.reverse ++ r := by
    refine (Stops.append (fun c hc ↦ ?_) (by simpa using hne)).dropWhile_eq
    exact Untyped.isWhite_of_isPart (hpart c (List.mem_of_mem_head? hc))
  have htake : (w.reverse ++ r).takeWhile Untyped.isPart = w.reverse := takeWhile_append_eq hpart hr
  have hdrop : (w.reverse ++ r).dropWhile Untyped.isPart = r := dropWhile_append_eq hpart hr
  rw [wordBefore?, hstart]
  split
  · rename_i hnil
    exact absurd (List.reverse_eq_nil_iff.mp (htake.symm.trans hnil)) hne
  · refine congrArg some (Prod.ext ?_ hdrop)
    exact (congrArg List.reverse htake).trans w.reverse_reverse

theorem isPart_of_isIdentifierChar (hc : Registry.isIdentifierChar c = true) :
    Untyped.isPart c = true := by
  rw [Registry.isIdentifierChar, Bool.or_eq_true, Bool.or_eq_true] at hc
  rw [Untyped.isPart, Bool.or_eq_true, Bool.or_eq_true]
  refine hc.imp_left (Or.imp_left fun h ↦ ?_)
  rw [isAlphanumeric, if_pos (toNat_lt_of_isAlphanum h), h]

/-- **The name of a function** stands behind the word `function`. -/
theorem contextOf_head (h : Header) : contextOf h.head.reverse = .function := by
  have hname : ∀ c ∈ h.name.text, Untyped.isPart c = true :=
    fun c hc ↦ isPart_of_isIdentifierChar (h.name.isIdentifierChar c hc)
  obtain ⟨r, hr, hhead⟩ : ∃ r, Stops Untyped.isPart r ∧ h.head.reverse =
      h.name.text.reverse ++ ' ' :: ("function".toList.reverse ++ r) := by
    rw [head, functionHead]
    cases h.isAsync with
    | true => exact ⟨' ' :: "async".toList.reverse, stops_cons.mpr rfl, by simp⟩
    | false => exact ⟨[], stops_nil, by simp⟩
  have hfirst : wordBefore? h.head.reverse =
      some (h.name.text, ' ' :: ("function".toList.reverse ++ r)) := by
    rw [hhead]
    exact wordBefore?_reverse h.name.ne_nil hname (stops_cons.mpr rfl)
  have hsecond : wordBefore? (' ' :: ("function".toList.reverse ++ r)) =
      some ("function".toList, r) :=
    wordBefore?_reverse (w := "function".toList) (by decide) (by decide) hr
  have hfree : controlKeywords.contains h.name.text = false := by simpa using h.isFree
  rw [contextOf, hfirst]
  simp only [hfree, hsecond]
  split
  · rfl
  · simp

/-! ## Return types -/

theorem tail?_header (h : Header) :
    tail? (h.returnText ++ body) = some ⟨.body, [], h.returnText.length⟩ := by
  cases hreturns : h.returns with
  | none =>
    rw [returnText, hreturns]
    rfl
  | some t =>
    have hclosed := Tree.nested_closed (h.isClosed t hreturns)
    have htype : Nested anyMark isClosedMark (' ' :: (t.text ++ [' '])) :=
      .ordinary rfl (by decide) (hclosed.append (.ordinary rfl (by decide) .nil))
    have hreads : returnType? 0 (' ' :: (t.text ++ [' ']) ++ ['{', '}']) =
        some (' ' :: (t.text ++ [' ']), .body) := by
      have hbrace := (Untyped.returnType?_opening .brace 0 ['}']).trans (if_pos ⟨rfl, rfl⟩)
      rw [returnType?_nested htype isReturnMark_of_isClosedMark]
      exact (congrArg _ hbrace).trans (by simp)
    have htext : h.returnText ++ body = ':' :: (' ' :: (t.text ++ [' ']) ++ ['{', '}']) := by
      simp [returnText, hreturns, body]
    have htrim : trimEnd (' ' :: (t.text ++ [' '])) = ' ' :: t.text := by
      rw [← List.cons_append, trimEnd_append (by simp; rfl)]
      exact ((t.endsBlack true).cons ' ').trimEnd_eq
    have hne : (trim (' ' :: (t.text ++ [' ']))).isEmpty = false := by
      have hstart : trimStart (' ' :: t.text) ≠ [] := ((t.endsBlack true).cons ' ').trimStart_ne_nil
      rw [← trimStart_trimEnd, htrim]
      simpa using hstart
    have hgap : (':' :: (' ' :: (t.text ++ [' ']) ++ ['{', '}'])).takeWhile isWhite = [] := rfl
    rw [htext, tail?, trimStart_cons (by rfl)]
    simp only [hreads, Option.bind_some, hne, htrim, hgap]
    simp [returnText, hreturns]
    omega

/-! ## Signatures -/

theorem nested_parameters (h : Header) : Nested anyMark anyMark h.parametersText :=
  .intercalate rfl rfl <| List.forall_mem_map.mpr fun x _ ↦
    x.nested_text.mono (fun _ h ↦ h) fun _ _ ↦ rfl

/-- **The signature of a header.** -/
theorem signature?_header (h : Header) :
    signature? (h.head ++ h.typeParametersText).reverse
        (h.parametersText ++ ')' :: (h.returnText ++ body)) =
      some ⟨h.typeParametersText.length, h.parametersText, [], body⟩ := by
  rw [signature?, closeParen?_nested h.nested_parameters, Option.bind_some]
  simp only [h.tail?_header, Option.bind_some, h.beforeTypeParameters?_header, h.contextOf_head]
  simp

theorem eraseSignatures_header (h : Header) : eraseSignatures h.text = h.erased := by
  have hpass : ∀ c ∈ h.head ++ h.typeParametersText,
      (∀ r, inert? (c :: r) = none) ∧ c ≠ '(' := by
    refine List.forall_mem_append.mpr ⟨fun c hc ↦ ?_, h.passes_typeParametersText⟩
    obtain ⟨hquote, hslash⟩ := h.isHead_head.code.code c hc
    refine ⟨inert?_eq_none hquote hslash, ?_⟩
    rintro rfl
    exact h.isHead_head.paren hc
  have hbody {before : Text} : eraseSignaturesFrom before [] body = body := by
    have hend : eraseSignaturesFrom before [] (body ++ []) =
        eraseSignaturesFrom (body.reverse ++ before) (body.reverse ++ []) [] := by
      refine Untyped.eraseSignaturesFrom_append (fun c hc ↦ ?_) []
      rw [body, List.mem_cons, List.mem_cons, List.mem_singleton] at hc
      rcases hc with rfl | rfl | rfl <;> exact ⟨fun _ ↦ rfl, by decide⟩
    rwa [List.append_nil, eraseSignaturesFrom] at hend
  have hparams : eraseParameterTypes h.parametersText =
      [',', ' '].intercalate (h.parameters.map Parameter.erased) := by
    exact eraseParameterTypes_intercalate (fun x _ ↦ x.erases) (List.forall_mem_nil _)
  rw [eraseSignatures, text, ← List.append_assoc, Untyped.eraseSignaturesFrom_append hpass,
    List.append_nil, Untyped.eraseSignaturesFrom_some h.signature?_header (by simp), hbody,
    Signature.render, hparams, erased]
  simp

/-! ## What is left -/

theorem isSpacedScript_erased (h : Header) : IsSpacedScript h.erased := by
  refine .append (.code h.isHead_head.code) (.append (u := ['(']) (.code (by decide))
    (.append (.intercalate ?_) (.code (by decide))))
  exact List.forall_mem_map.mpr fun x _ ↦ x.isSpacedScript_erased

theorem not_mem_text (h : Header) : '\n' ∉ h.text := by
  have htypes : '\n' ∉ h.typeParametersText := by
    rcases h.typeParametersText_eq with htext | htext
    · simp [htext]
    · simp [htext, h.nested_typeParameters.not_mem]
  have hreturn : '\n' ∉ h.returnText := by
    rw [returnText]
    split
    · simp
    · rename_i t _
      simp [t.nested_type.not_mem]
  simp [text, body, h.isHead_head.line, htypes, h.nested_parameters.not_mem, hreturn]

theorem not_mem_erased (h : Header) : '\n' ∉ h.erased := by
  have hparams : Nested anyMark anyMark
      ([',', ' '].intercalate (h.parameters.map Parameter.erased)) :=
    .intercalate rfl rfl (List.forall_mem_map.mpr fun x _ ↦ x.nested_erased)
  simp [erased, body, h.isHead_head.line, hparams.not_mem]

/-- **A header loses its types** and nothing else. -/
theorem eraseTypes_header (h : Header) : eraseTypes h.text = h.erased := by
  rw [eraseTypes_of_passesLines, h.eraseSignatures_header,
    h.isSpacedScript_erased.eraseExpressionTypes_eq]
  · exact passesLines_of_quiet h.not_mem_text (by simpa [text] using h.isHead_head.quiet _) none
  · rw [h.eraseSignatures_header]
    exact passesLines_of_quiet h.not_mem_erased (by simpa [erased] using h.isHead_head.quiet _) none

end Header

end Typed

end PluginPack
