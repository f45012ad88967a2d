import PluginPack.Documentation.Function
import PluginPack.TypeSyntax.Erasure

/-!
# Declarations of handlers

Whether a script declares a function, and the declaration that is written for a documented function
which the script does not declare.
-/

namespace PluginPack

open Text

namespace Registry

/-- Whether a text goes on with a name and an opening parenthesis. -/
def isCall (name t : Text) : Bool :=
  match word? name t with
  | some r => (trimStart r).head? == some '('
  | none => false

/-- Whether a text goes on with white space, at least `least` characters of it, a name and an
opening parenthesis. A name may itself begin with white space. -/
def isSpacedCall (least : Nat) (name t : Text) : Bool :=
  (List.range ((t.takeWhile isWhite).length + 1)).any fun n ↦ least ≤ n && isCall name (t.drop n)

/-- Whether a text begins with the declaration of a function, perhaps a generator. -/
def isDeclaration (name t : Text) : Bool :=
  match word? "function".toList t with
  | none => false
  | some r =>
    isSpacedCall 1 name r ||
      match word? ['*'] (trimStart r) with
      | some s => isSpacedCall 0 name s
      | none => false

/-- Whether a text that stands behind the character `before` declares a function. The word
`function` must not be the end of a longer word. -/
def declaresFrom (name : Text) (before : Option Char) : Text → Bool
  | [] => false
  | c :: r =>
    (!before.any isWordChar && isDeclaration name (c :: r)) || declaresFrom name (some c) r

/-- Whether a script declares a function. -/
def declares (code name : Text) : Bool := declaresFrom name none code

/-- A declaration made from the record of a function, without types if the script has none. -/
def declaration (f : Documentation.Function) (isTyped : Bool) : Text :=
  let text := (if f.isAsync then "async ".toList else []) ++ "function ".toList ++ f.name ++
    '(' :: f.params ++ ") \x7b\n  ".toList ++ f.body ++ "\n\x7d".toList
  if isTyped then TypeSyntax.eraseTypes text else text

end Registry

end PluginPack
