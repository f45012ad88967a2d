import PluginPack.Script.Dependency
import PluginPack.TypeSyntax.Annotation
import PluginPack.TypeSyntax.Assertion
import PluginPack.TypeSyntax.Declaration
import PluginPack.TypeSyntax.Signature

/-!
# Erasing types

A typed script becomes a plain one in three steps: type declarations go, then the types in
signatures, then the annotations of variables and the assertions in expressions. The last step
leaves alone dependency statements, literals and comments.
-/

namespace PluginPack

open Text Script

namespace TypeSyntax

/-- Removes annotations and assertions from the code between literals and comments. -/
def eraseExpressionTypes (code : Text) : Text :=
  mapCode (fun stretch ↦ eraseAssertions (eraseAnnotations stretch)) code

/-- Removes type syntax from a script. -/
def eraseTypes (code : Text) : Text :=
  (dependency.cut (eraseSignatures (eraseDeclarations code))).render eraseExpressionTypes
    Part.lexeme

end TypeSyntax

end PluginPack
