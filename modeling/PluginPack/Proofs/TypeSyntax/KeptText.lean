import PluginPack.Proofs.TypeSyntax.Head
import PluginPack.Proofs.TypeSyntax.KeptStatement

/-!
# Texts that no type reaches into

A text stays when types are erased, wherever it stands in the code, if nothing that a pass finds
there begins in it or reaches into it from in front. It holds no literal and no comment, and a
parenthesis at most as its last character, and it ends in a mark that no list of type parameters is
read back over. The beginning of the declaration of a function up to its parenthesis is such a text,
and so is that of a variable up to its equals sign.
-/

namespace PluginPack

open Text Script

namespace TypeSyntax

variable {code t w : Text}

/-! ## Signatures -/

/-- Code that ends in a mark. In front of a parenthesis no list of type parameters ends. -/
structure IsMarked (w : Text) : Prop where
  code : ∀ c ∈ w.dropLast, isQuote c = false ∧ c ≠ '/' ∧ c ≠ '('
  mark : w.getLast?.any listEnds.contains = true
  plain : w.getLast? = some '(' → w.dropLast.getLast?.any (fun c ↦ !isWhite c && c != '>') = true

instance (w : Text) : Decidable (IsMarked w) :=
  decidable_of_iff ((∀ c ∈ w.dropLast, isQuote c = false ∧ c ≠ '/' ∧ c ≠ '(') ∧
      w.getLast?.any listEnds.contains = true ∧
      (w.getLast? = some '(' → w.dropLast.getLast?.any (fun c ↦ !isWhite c && c != '>') = true))
    ⟨fun ⟨h₁, h₂, h₃⟩ ↦ ⟨h₁, h₂, h₃⟩, fun ⟨h₁, h₂, h₃⟩ ↦ ⟨h₁, h₂, h₃⟩⟩

/-- The scan for signatures keeps the text when it comes to it. -/
theorem IsMarked.exists_eraseSignaturesFrom (h : IsMarked w) (before kept r : Text) :
    ∃ r', eraseSignaturesFrom before kept (w ++ r) = kept.reverse ++ (w ++ r') := by
  obtain ⟨hcode, hmark, hplain⟩ := h
  obtain ⟨c, hlast, hc⟩ := (Option.any_eq_true ..).mp hmark
  obtain ⟨u, rfl⟩ := List.getLast?_eq_some_iff.mp hlast
  rw [List.dropLast_concat] at hcode hplain
  have hbefore : c = '(' → beforeTypeParameters? (u.reverse ++ before) = none := by
    rintro rfl
    obtain ⟨e, hlast, he⟩ := (Option.any_eq_true ..).mp (hplain hlast)
    obtain ⟨v, rfl⟩ := List.getLast?_eq_some_iff.mp hlast
    rw [Bool.and_eq_true, Bool.not_eq_true', bne_iff_ne] at he
    rw [List.reverse_concat, List.cons_append]
    exact beforeTypeParameters?_cons he.1 he.2 _
  obtain ⟨r', hr'⟩ :=
    exists_eraseSignaturesFrom_mark hcode (List.contains_iff_mem.mp hc) hbefore kept r
  refine ⟨r', ?_⟩
  rw [List.append_assoc, List.append_assoc]
  exact hr'

/-- A text stays in the signatures' code if the scan comes to it wherever it stands. -/
theorem IsMarked.isInfix_eraseSignatures (h : IsMarked w)
    (hscan : ∀ a r, t = a ++ (w ++ r) → scansTo (w ++ r).length [] [] t = true) (hw : w <:+: t) :
    w <:+: eraseSignatures t := by
  obtain ⟨a, r, rfl⟩ := hw
  rw [List.append_assoc] at hscan ⊢
  obtain ⟨out, kept, hout, -⟩ := arrivesAt_of_scansTo (d := none) (hscan a r rfl) fun _ ↦ rfl
  obtain ⟨r', hr'⟩ := h.exists_eraseSignaturesFrom (a.reverse ++ []) kept r
  rw [eraseSignatures, hout, hr', ← List.append_assoc, ← List.append_assoc]
  exact List.infix_append _ _ _

/-! ## Expressions -/

/-- No annotation and, in no round, an assertion that is found in a stretch of code reaches into a
text. -/
structure SparesStretch (t w : Text) : Prop where
  annotations : annotatedVariable.Skirts w t
  assertions : ∀ n ≤ t.length, assertion.Skirts w (eraseAssertionsOnce^[n] (eraseAnnotations t))

instance (t w : Text) : Decidable (SparesStretch t w) :=
  decidable_of_iff (annotatedVariable.Skirts w t ∧
      ∀ n ≤ t.length, assertion.Skirts w (eraseAssertionsOnce^[n] (eraseAnnotations t)))
    ⟨fun ⟨h₁, h₂⟩ ↦ ⟨h₁, h₂⟩, fun ⟨h₁, h₂⟩ ↦ ⟨h₁, h₂⟩⟩

theorem isInfix_eraseAssertions
    (h : ∀ n ≤ t.length, assertion.Skirts w (eraseAssertionsOnce^[n] t)) (hw : w <:+: t) :
    w <:+: eraseAssertions t := by
  induction hn : t.length using Nat.strongRecOn generalizing t with
  | ind n ih =>
    subst hn
    rw [eraseAssertions]
    split
    · rename_i hlt
      refine ih _ hlt (fun n hle ↦ ?_) ((h 0 (Nat.zero_le _)).isInfix_replace hw id) rfl
      rw [← Function.iterate_succ_apply]
      exact h (n + 1) (by omega)
    · exact hw

theorem SparesStretch.isInfix (h : SparesStretch t w) (hw : w <:+: t) :
    w <:+: eraseFromStretch t := by
  have hle := shrinks_eraseAnnotations.length_le t
  exact isInfix_eraseAssertions (fun n hn ↦ h.assertions n (hn.trans hle))
    (h.annotations.isInfix_replace hw id)

/-- No literal and no comment, and nothing that is found in the code between them, reaches into a
text. -/
structure SparesExpressions (t w : Text) : Prop where
  literals : inert.Skirts w t
  stretches : ∀ v ∈ (inert.cut t).stretches, SparesStretch v w

instance (t w : Text) : Decidable (SparesExpressions t w) :=
  decidable_of_iff (inert.Skirts w t ∧ ∀ v ∈ (inert.cut t).stretches, SparesStretch v w)
    ⟨fun ⟨h₁, h₂⟩ ↦ ⟨h₁, h₂⟩, fun ⟨h₁, h₂⟩ ↦ ⟨h₁, h₂⟩⟩

theorem SparesExpressions.isInfix (h : SparesExpressions t w) (hw : w <:+: t) :
    w <:+: eraseExpressionTypes t :=
  h.literals.isInfix_render hw fun v hv ↦ (h.stretches v hv).isInfix

/-! ## All passes -/

/-- Nothing that type erasure finds in some code reaches into a text, wherever it stands there: no
declaration, no literal, comment or signature to which the scan for signatures comes, no dependency
statement, and nothing in the expressions between those. -/
structure Spares (code w : Text) : Prop where
  marked : IsMarked w
  interfaces : interfaceDeclaration.Skirts w code
  aliases : aliasDeclaration.Skirts w (interfaceDeclaration.erase code)
  signatures : ∀ a r, eraseDeclarations code = a ++ (w ++ r) →
    scansTo (w ++ r).length [] [] (eraseDeclarations code) = true
  dependencies : dependency.Skirts w (eraseDeclaredTypes code)
  stretches : ∀ v ∈ (dependency.cut (eraseDeclaredTypes code)).stretches, SparesExpressions v w

instance (code w : Text) : Decidable (Spares code w) :=
  decidable_of_iff (IsMarked w ∧ interfaceDeclaration.Skirts w code ∧
      aliasDeclaration.Skirts w (interfaceDeclaration.erase code) ∧
      (∀ a ∈ (eraseDeclarations code).inits, w <+: (eraseDeclarations code).drop a.length →
        scansTo ((eraseDeclarations code).drop a.length).length [] [] (eraseDeclarations code) =
          true) ∧
      dependency.Skirts w (eraseDeclaredTypes code) ∧
      ∀ v ∈ (dependency.cut (eraseDeclaredTypes code)).stretches, SparesExpressions v w) <| by
    constructor
    · rintro ⟨h₁, h₂, h₃, h₄, h₅, h₆⟩
      refine ⟨h₁, h₂, h₃, fun a r ht ↦ ?_, h₅, h₆⟩
      have hplace := h₄ a ((List.mem_inits _ _).mpr ⟨_, ht.symm⟩)
      rw [ht, List.drop_left] at hplace
      rw [ht]
      exact hplace (List.prefix_append w r)
    · rintro ⟨h₁, h₂, h₃, h₄, h₅, h₆⟩
      refine ⟨h₁, h₂, h₃, fun a ha hpre ↦ ?_, h₅, h₆⟩
      obtain ⟨z, hz⟩ := (List.mem_inits _ _).mp ha
      obtain ⟨r, hr⟩ := hpre
      rw [← hr]
      refine h₄ a r ?_
      rw [hr, ← hz, List.drop_left]

/-- **A text that no type reaches into** stays when types are erased. -/
theorem Spares.isInfix (h : Spares code w) (hw : w <:+: code) : w <:+: eraseTypes code := by
  have hdeclarations : w <:+: eraseDeclarations code :=
    h.aliases.isInfix_erase (h.interfaces.isInfix_erase hw)
  have hsignatures : w <:+: eraseDeclaredTypes code :=
    h.marked.isInfix_eraseSignatures h.signatures hdeclarations
  exact h.dependencies.isInfix_render hsignatures fun v hv ↦ (h.stretches v hv).isInfix

end TypeSyntax

end PluginPack
