import PluginPack.TypeSyntax.Bracket

/-!
# Parameters

A parameter `name?: Type = value` becomes `name = value`. Commas, colons and equals signs
count only outside brackets, literals and comments, and an equals sign that begins `=>` or `==`
does not count at all.
-/

namespace PluginPack

open Text Script

namespace TypeSyntax

/-- Cuts a text before the first character of a class that stands outside brackets, literals and
comments. Closing brackets that nothing opened are passed over. -/
def splitTopLevel? (p : Char → Bool) (depth : Nat) (t : Text) : Option (Text × Text) :=
  match t with
  | [] => none
  | c :: s =>
    match h : inert? (c :: s) with
    | some (lit, r) =>
      have := inert?_length_lt h
      (splitTopLevel? p depth r).map fun q ↦ (lit ++ q.1, q.2)
    | none =>
      if c = '=' ∧ (s.head? = some '>' ∨ s.head? = some '=') then
        (splitTopLevel? p depth s.tail).map fun q ↦ (c :: s.take 1 ++ q.1, q.2)
      else if opensNesting c then (splitTopLevel? p (depth + 1) s).map fun q ↦ (c :: q.1, q.2)
      else if closesNesting c then (splitTopLevel? p (depth - 1) s).map fun q ↦ (c :: q.1, q.2)
      else if p c && depth == 0 then some ([], c :: s)
      else (splitTopLevel? p depth s).map fun q ↦ (c :: q.1, q.2)
termination_by t.length
decreasing_by all_goals (simp only [List.length_cons, List.length_tail] at *; omega)

theorem splitTopLevel?_append {p : Char → Bool} {depth : Nat} {t a b : Text}
    (h : splitTopLevel? p depth t = some (a, b)) : a ++ b = t := by
  fun_induction splitTopLevel? p depth t generalizing a b with
  | case1 => cases h
  | case2 depth c s lit r hl _ ih =>
    obtain ⟨q, hq, he⟩ := Option.map_eq_some_iff.mp h
    cases he
    rw [List.append_assoc, ih hq, inert?_append hl]
  | case3 depth c s _ _ ih =>
    obtain ⟨q, hq, he⟩ := Option.map_eq_some_iff.mp h
    cases he
    cases s <;> simp [ih hq]
  | case4 depth c s _ _ _ ih =>
    obtain ⟨q, hq, he⟩ := Option.map_eq_some_iff.mp h
    cases he
    simp [ih hq]
  | case5 depth c s _ _ _ _ ih =>
    obtain ⟨q, hq, he⟩ := Option.map_eq_some_iff.mp h
    cases he
    simp [ih hq]
  | case6 depth c s => cases h; rfl
  | case7 depth c s _ _ _ _ _ ih =>
    obtain ⟨q, hq, he⟩ := Option.map_eq_some_iff.mp h
    cases he
    simp [ih hq]

/-- A text is cut before a character of the class. -/
theorem exists_cons_of_splitTopLevel? {p : Char → Bool} {depth : Nat} {t a b : Text}
    (h : splitTopLevel? p depth t = some (a, b)) : ∃ c r, b = c :: r ∧ p c = true := by
  fun_induction splitTopLevel? p depth t generalizing a b with
  | case1 => cases h
  | case6 depth c s _ _ _ _ hfound =>
    cases h
    exact ⟨c, s, rfl, (Bool.and_eq_true_iff.mp hfound).1⟩
  | case2 _ _ _ _ _ _ _ ih | case3 _ _ _ _ _ ih | case4 _ _ _ _ _ _ ih | case5 _ _ _ _ _ _ _ ih
  | case7 _ _ _ _ _ _ _ _ ih =>
    obtain ⟨q, hq, he⟩ := Option.map_eq_some_iff.mp h
    cases he
    exact ih hq

/-- A parameter name without the question mark that makes the parameter optional. -/
def dropOptional (name : Text) : Text :=
  let n := trimEnd name
  if n.getLast? = some '?' then trimEnd n.dropLast else n

/-- Removes the type of one parameter. A parameter without a type, and one whose first equals sign
stands before its first colon, stay as they are. -/
def eraseParameterType (param : Text) : Text :=
  match splitTopLevel? (fun c ↦ c == ':' || c == '=') 0 param with
  | some (name, ':' :: type) =>
    match splitTopLevel? (· == '=') 0 type with
    | some (_, value) => dropOptional name ++ ' ' :: value
    | none => dropOptional name ++ trailingWhite param
  | _ => param

/-- Removes the types of all parameters of a list. -/
def eraseParameterTypes (params : Text) : Text :=
  match h : splitTopLevel? (· == ',') 0 params with
  | some (param, comma :: others) =>
    have : others.length < params.length := by
      have := congrArg List.length (splitTopLevel?_append h)
      simp at this
      omega
    eraseParameterType param ++ comma :: eraseParameterTypes others
  | _ => eraseParameterType params
termination_by params.length

end TypeSyntax

end PluginPack
