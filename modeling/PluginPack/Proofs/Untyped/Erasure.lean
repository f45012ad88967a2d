import PluginPack.Proofs.Untyped.Declaration
import PluginPack.Proofs.Untyped.Expression
import PluginPack.Proofs.Untyped.Signature
import PluginPack.TypeSyntax.Erasure

/-!
# Scripts without types stay as they are

Type erasure leaves a program without types alone, unless one of two things is taken for a type. A
colon behind a closing parenthesis, which belongs to a conditional or to a `case`, may be taken for
the beginning of a return type, and then it is lost. A line of a string literal, behind a backslash
and a newline, may be taken for a type declaration.
-/

namespace PluginPack

open Text TypeSyntax

namespace Untyped

namespace Program

/-- No line in a string literal begins with a word that a declaration begins with. -/
def KeepsLines (p : Program) : Prop := ∀ t ∈ p.tokens, Untyped.KeepsLines t

instance (p : Program) : Decidable p.KeepsLines := inferInstanceAs (Decidable (∀ t ∈ _, _))

/-- No colon is misread as the beginning of a return type. -/
def KeepsColons (p : Program) : Prop := NoneMisread [] none p.tokens

instance (p : Program) : Decidable p.KeepsColons :=
  inferInstanceAs (Decidable (NoneMisread _ _ _))

/-- **Programs without types** stay as they are, unless a colon in them is misread. -/
theorem eraseTypes_text (p : Program) (hlines : p.KeepsLines) :
    eraseTypes p.text = p.text ↔ p.KeepsColons := by
  have hdeclarations : eraseDeclarations p.text = p.text :=
    eraseDeclarations_write p.laid hlines p.white
  obtain ⟨hkept, hshorter⟩ := eraseSignatures_write p.derives p.laid p.white
  rw [eraseTypes, hdeclarations]
  constructor
  · intro herased
    by_contra hcolons
    have hlt := hshorter hcolons
    have hle := length_render_dependencies_le (eraseSignatures p.text)
    rw [herased] at hle
    exact absurd hlt (Nat.not_lt.mpr hle)
  · intro hcolons
    rw [text, hkept hcolons, cut_dependency_write p.laid hlines p.white, Cut.render,
      eraseExpressionTypes_write p.laid p.white]
    exact List.append_nil _

end Program

/-! ## Programs that are kept, and others -/

/-- The tokens with the given white space, kinds and texts. -/
def tokensOf (rows : List (String × Kind × String)) : List Token :=
  rows.map fun (gap, kind, text) ↦ ⟨gap.toList, kind, text.toList⟩

/-- A program with a derivation that is followed by the numbers of its productions. -/
def Program.ofRows (rows : List (String × Kind × String)) (ns : List Nat)
    (h : follow ns [.symbol .statements] (tokensOf rows) = true)
    (hspelled : ∀ t ∈ tokensOf rows, t.IsSpelled)
    (hapart : (tokensOf rows).IsChain fun t u ↦
      t.kind.isWordlike = true → u.kind.isWordlike = true → u.gap ≠ []) : Program :=
  ⟨tokensOf rows, ['\n'], derives_of_follow h, hspelled, hapart, by decide⟩

/-- A function that returns a call or an object. -/
def pick : Program :=
  .ofRows
    [("", .word, "function"), (" ", .binding, "pick"), ("", .opening .params, "("),
      ("", .binding, "ok"), ("", .comma, ","), (" ", .binding, "a"), (" ", .equals, "="),
      (" ", .number, "1"), ("", .closing .params, ")"), (" ", .opening .brace, "\x7b"),
      ("\n  ", .word, "return"), (" ", .name, "ok"), (" ", .mark, "?"), (" ", .name, "load"),
      ("", .opening .call, "("), ("", .name, "a"), ("", .closing .call, ")"), (" ", .colon, ":"),
      (" ", .opening .brace, "\x7b"), (" ", .name, "to"), ("", .colon, ":"),
      (" ", .opening .square, "["), ("", .name, "a"), ("", .closing .square, "]"),
      (" ", .closing .brace, "\x7d"), ("", .mark, ";"), ("\n", .closing .brace, "\x7d")]
    [1, 2, 0, 2, 0, 0, 1, 1, 0, 0, 0, 2, 0, 1, 12, 1, 0, 0, 0, 0, 8, 0, 1, 0, 0, 0, 0, 0, 0, 5, 1,
      0, 0, 0, 0, 4, 1, 0, 0, 0, 0, 0, 0]
    (by decide) (by decide) (by decide)

example : pick.text =
    "function pick(ok, a = 1) \x7b\n  return ok ? load(a) : \x7b to: [a] \x7d;\n\x7d\n".toList := by
  decide

theorem eraseTypes_pick :
    pick.KeepsLines ∧ pick.KeepsColons ∧ eraseTypes pick.text = pick.text :=
  ⟨by decide, by decide, (pick.eraseTypes_text (by decide)).mpr (by decide)⟩

/-- A call with a conditional and an object. -/
def conditional : Program :=
  .ofRows
    [("", .name, "fetch"), ("", .opening .call, "("), ("", .name, "ok"), (" ", .mark, "?"),
      (" ", .name, "url"), ("", .opening .call, "("), ("", .name, "a"), ("", .closing .call, ")"),
      (" ", .colon, ":"), (" ", .name, "base"), ("", .comma, ","), (" ", .opening .brace, "\x7b"),
      (" ", .name, "method"), ("", .colon, ":"), (" ", .string, "\"GET\""),
      (" ", .closing .brace, "\x7d"), ("", .closing .call, ")"), ("", .mark, ";")]
    [1, 0, 0, 0, 8, 0, 2, 0, 1, 0, 0, 0, 0, 8, 0, 1, 0, 0, 0, 0, 0, 0, 0, 1, 0, 0, 0, 5, 1, 0, 0, 0,
      0, 3, 0]
    (by decide) (by decide) (by decide)

/-- Not all programs without types stay as they are: the second half of a conditional is lost. -/
theorem not_forall_untyped_kept : ¬∀ p : Program, eraseTypes p.text = p.text := by
  intro h
  have herased : eraseTypes conditional.text =
      "fetch(ok ? url(a)  \x7b method: \"GET\" \x7d);\n".toList := by decide +kernel
  have hlength := congrArg List.length ((h conditional).symm.trans herased)
  revert hlength
  decide

/-- A string literal that goes over a line. -/
def continued : Program :=
  .ofRows
    [("", .name, "s"), (" ", .equals, "="), (" ", .string, "\"a\\\ntype b = 1\""),
      ("", .mark, ";")]
    [1, 0, 3, 0, 0, 0, 3, 0] (by decide) (by decide) (by decide)

/-- The condition on lines is needed as well: the second line of a string literal is lost. -/
theorem eraseTypes_continued :
    continued.KeepsColons ∧ eraseTypes continued.text = "s = \"a\\\n".toList := by
  exact ⟨by decide, by decide +kernel⟩

end Untyped

end PluginPack
