import PluginPack.TypeSyntax.Parameter

/-!
# Signatures

A parenthesis opens a parameter list when its closing parenthesis is followed by an arrow, or by a
body and preceded by a name that is no control keyword. From such a signature the types of the
parameters, the return type and a list of type parameters before the parenthesis are removed. What
stands before a parenthesis is read backwards, so texts named `before` hold the nearest character
first.
-/

namespace PluginPack

open Text Script

namespace TypeSyntax

/-! ## Behind the parameters -/

/-- What a parameter list introduces. -/
inductive Follow where
  | body
  | arrow
deriving DecidableEq, Repr

/-- A character that may stand in a return type outside brackets. -/
def isReturnTypeChar (c : Char) : Bool :=
  isAsciiAlphanumeric c || c == '_' || c == '$' || c == '.' || c == ',' || c == '|' || c == '&' ||
    c == '?' || c == ' ' || c == '\t'

/-- The return type that a text begins with, up to the brace or arrow behind it. There is none when
something stands outside brackets that no type holds, as in a conditional expression. -/
def returnType? (depth : Nat) (t : Text) : Option (Text × Follow) :=
  match t with
  | [] => none
  | c :: s =>
    if c = '=' ∧ s.head? = some '>' then
      if depth = 0 then some ([], .arrow)
      else (returnType? depth s.tail).map fun p ↦ (c :: '>' :: p.1, p.2)
    else if c = '"' ∨ c = '\'' then
      (returnType? depth (splitQuoted c s).2).map fun p ↦ (c :: (splitQuoted c s).1 ++ p.1, p.2)
    else if c = '{' ∧ depth = 0 then some ([], .body)
    else if opensNesting c then (returnType? (depth + 1) s).map fun p ↦ (c :: p.1, p.2)
    else if closesNesting c then
      if depth = 0 then none else (returnType? (depth - 1) s).map fun p ↦ (c :: p.1, p.2)
    else if depth = 0 ∧ ¬ isReturnTypeChar c then none
    else (returnType? depth s).map fun p ↦ (c :: p.1, p.2)
termination_by t.length
decreasing_by
  all_goals have := congrArg List.length (splitQuoted_append c s)
  all_goals (simp only [List.length_cons, List.length_tail, List.length_append] at *; omega)

/-- What follows a parameter list: how the text goes on, and where its return type stands. -/
structure Tail where
  follow : Follow
  /-- The white space before the colon of the return type. -/
  gap : Text
  /-- The number of characters from the list to the end of the return type. -/
  width : Nat
deriving DecidableEq, Repr

/-- Reads what follows the closing parenthesis of a list. -/
def tail? (t : Text) : Option Tail :=
  match trimStart t with
  | '=' :: '>' :: _ => some ⟨.arrow, [], 0⟩
  | '{' :: _ => some ⟨.body, [], 0⟩
  | ':' :: r =>
    (returnType? 0 r).bind fun (type, follow) ↦
      let gap := t.takeWhile isWhite
      if (trim type).isEmpty then none
      else some ⟨follow, gap, gap.length + 1 + (trimEnd type).length⟩
  | _ => none

/-! ## Before the parameters -/

/-- Reads backwards to the angle bracket that opens a list of type parameters. -/
def openAngle? (depth : Nat) : Text → Option Text
  | [] => none
  | c :: r =>
    if c = '>' then openAngle? (depth + 1) r
    else if c = '<' then
      if depth ≤ 1 then some r else openAngle? (depth - 1) r
    else if c = ';' ∨ c = '{' ∨ c = '}' ∨ c = '(' ∨ c = ')' ∨ c = '=' ∨ c = '\n' then none
    else openAngle? depth r

/-- What stands before the list of type parameters right before a place, if there is one. -/
def beforeTypeParameters? (before : Text) : Option Text :=
  match trimStart before with
  | '>' :: '=' :: _ => none
  | '>' :: r => openAngle? 1 r
  | _ => none

theorem beforeTypeParameters?_cons {c : Char} (hwhite : isWhite c = false) (hangle : c ≠ '>')
    (r : Text) : beforeTypeParameters? (c :: r) = none := by
  rw [beforeTypeParameters?, trimStart, List.dropWhile_cons_of_neg (by simp [hwhite])]
  split
  · rename_i heq
    exact absurd (List.cons.inj heq).1 hangle
  · rename_i heq
    exact absurd (List.cons.inj heq).1 hangle
  · rfl

/-- The word right before a place, and what stands before that word. -/
def wordBefore? (before : Text) : Option (Text × Text) :=
  let head := trimStart before
  let isPart := fun c ↦ isAlphanumeric c || c == '_' || c == '$'
  match head.takeWhile isPart with
  | [] => none
  | w => some (w.reverse, head.dropWhile isPart)

/-- Words that open a parenthesised condition and no parameter list. -/
def controlKeywords : List Text :=
  ["if".toList, "for".toList, "while".toList, "switch".toList, "with".toList, "return".toList]

/-- What stands before a parenthesis. -/
inductive Context where
  /-- The word `function`, perhaps with a name. -/
  | function
  /-- A control keyword. -/
  | keyword
  /-- Another name, such as that of a method. -/
  | name
  | other
deriving DecidableEq, Repr

/-- Tells what stands before a place. -/
def contextOf (before : Text) : Context :=
  match wordBefore? before with
  | none => .other
  | some (w, rest) =>
    if w = "function".toList then .function
    else if controlKeywords.contains w then .keyword
    else
      match wordBefore? rest with
      | some (v, _) => if v = "function".toList then .function else .name
      | none => .name

/-! ## Signatures -/

/-- A parameter list that belongs to a function, a method or an arrow. -/
structure Signature where
  /-- The number of characters before the parenthesis that go with the type parameters. -/
  lead : Nat
  /-- The text between the parentheses. -/
  params : Text
  /-- The white space kept before the removed return type. -/
  gap : Text
  /-- The text behind the signature. -/
  rest : Text
deriving DecidableEq, Repr

/-- What stays of a signature. -/
def Signature.render (s : Signature) : Text :=
  '(' :: eraseParameterTypes s.params ++ ')' :: s.gap

/-- The signature whose parenthesis stands between the two texts, if it is one. -/
def signature? (before after : Text) : Option Signature :=
  (closeParen? after).bind fun (params, behind) ↦
    (tail? behind).bind fun tail ↦
      let head := (beforeTypeParameters? before).getD before
      let context := contextOf head
      if tail.follow = .arrow ∨ context = .function ∨ context = .name then
        some ⟨before.length - head.length, params, tail.gap, behind.drop tail.width⟩
      else none

/-- A signature is parameters up to their closing parenthesis and a tail, where what stands in front
or behind is that of a function. -/
theorem exists_of_signature? {before after : Text} {s : Signature}
    (h : signature? before after = some s) :
    ∃ params behind tail, closeParen? after = some (params, behind) ∧ tail? behind = some tail ∧
      s = ⟨before.length - ((beforeTypeParameters? before).getD before).length, params, tail.gap,
        behind.drop tail.width⟩ ∧
      (tail.follow = .arrow ∨ contextOf ((beforeTypeParameters? before).getD before) = .function ∨
        contextOf ((beforeTypeParameters? before).getD before) = .name) := by
  obtain ⟨⟨params, behind⟩, hclose, h⟩ := Option.bind_eq_some_iff.mp h
  obtain ⟨tail, htail, h⟩ := Option.bind_eq_some_iff.mp h
  dsimp only at h
  split at h
  · rename_i hplace
    exact ⟨params, behind, tail, hclose, htail, (Option.some.inj h).symm, hplace⟩
  · cases h

theorem signature?_rest_suffix {before after : Text} {s : Signature}
    (h : signature? before after = some s) : s.rest <:+ after := by
  obtain ⟨params, behind, tail, hclose, -, rfl, -⟩ := exists_of_signature? h
  refine (List.drop_suffix _ _).trans ⟨params ++ [')'], ?_⟩
  rw [← closeParen?_append hclose]
  simp

/-- Removes the types from the signatures of a text. `before` holds all characters before the text
and `kept` those of them that are still to be written, both backwards. A signature whose type
parameters reach into what has been written is no signature. -/
def eraseSignaturesFrom (before kept t : Text) : Text :=
  match t with
  | [] => kept.reverse
  | c :: r =>
    match h : inert? (c :: r) with
    | some (lit, rest) =>
      have := inert?_length_lt h
      eraseSignaturesFrom (lit.reverse ++ before) (lit.reverse ++ kept) rest
    | none =>
      if c = '(' then
        match hs : signature? before r with
        | some s =>
          if s.lead ≤ kept.length then
            have := (signature?_rest_suffix hs).length_le
            (kept.drop s.lead).reverse ++ s.render ++
              eraseSignaturesFrom ((Marker.consumed (c :: r) s.rest).reverse ++ before) [] s.rest
          else eraseSignaturesFrom (c :: before) (c :: kept) r
        | none => eraseSignaturesFrom (c :: before) (c :: kept) r
      else eraseSignaturesFrom (c :: before) (c :: kept) r
termination_by t.length
decreasing_by all_goals (simp only [List.length_cons] at *; omega)

/-- Removes the types from all signatures of a script. -/
def eraseSignatures (code : Text) : Text := eraseSignaturesFrom [] [] code

end TypeSyntax

end PluginPack
