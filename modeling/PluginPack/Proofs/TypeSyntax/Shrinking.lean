import PluginPack.Proofs.TypeSyntax.Length
import PluginPack.Proofs.Untyped.Layout

/-!
# Steps of type erasure that change nothing

A step that takes something away shortens the text, and no later step makes up for it. So of a
script that type erasure leaves as it is, no step takes anything away: the pass over signatures
returns the script, and no annotation and no assertion is found in it.
-/

namespace PluginPack

open Text Script

variable {b : Option Char} {c : Char} {r s t v w : Text}

/-- A step that changes a text shortens it. -/
def Shrinks (f : Text → Text) : Prop := ∀ w, f w = w ∨ (f w).length < w.length

namespace Shrinks

variable {f g : Text → Text}

theorem length_le (hf : Shrinks f) (w : Text) : (f w).length ≤ w.length := by
  rcases hf w with h | h
  · rw [h]
  · exact h.le

theorem eq_of_length_le (hf : Shrinks f) (h : w.length ≤ (f w).length) : f w = w :=
  (hf w).resolve_right (Nat.not_lt.mpr h)

theorem comp (hf : Shrinks f) (hg : Shrinks g) : Shrinks fun w ↦ f (g w) := by
  intro w
  rcases hg w with hw | hw
  · simpa only [hw] using hf w
  · exact .inr ((hf.length_le _).trans_lt hw)

/-- When nothing changes, no step of two changes anything. -/
theorem eq_of_comp (hf : Shrinks f) (hg : Shrinks g) (h : f (g w) = w) : g w = w ∧ f w = w := by
  have hgw : g w = w := hg.eq_of_length_le (by
    have hle := hf.length_le (g w)
    rwa [h] at hle)
  exact ⟨hgw, by rwa [hgw] at h⟩

end Shrinks

/-! ## Cuts -/

namespace Cut

variable {α : Type} {plain : Text → Text}

theorem render_eq_or_lt (hplain : Shrinks plain) (k : Cut (Part α)) :
    k.render plain Part.lexeme = k.substitute Part.lexeme ∨
      (k.render plain Part.lexeme).length < (k.substitute Part.lexeme).length := by
  obtain ⟨first, rest⟩ := k
  have hrest : (rest.flatMap fun p ↦ p.1.lexeme ++ plain p.2) =
      (rest.flatMap fun p ↦ p.1.lexeme ++ p.2) ∨
      (rest.flatMap fun p ↦ p.1.lexeme ++ plain p.2).length <
        (rest.flatMap fun p ↦ p.1.lexeme ++ p.2).length := by
    induction rest with
    | nil => exact .inl rfl
    | cons x rest ih =>
      simp only [List.flatMap_cons, List.length_append]
      rcases hplain x.2 with hx | hx <;> rcases ih with h | h
      · exact .inl (by rw [hx, h])
      · exact .inr (by rw [hx]; omega)
      · exact .inr (by rw [h]; omega)
      · exact .inr (by omega)
  simp only [substitute, render, id, List.length_append]
  rcases hplain first with hfirst | hfirst <;> rcases hrest with h | h
  · exact .inl (by rw [hfirst, h])
  · exact .inr (by rw [hfirst]; omega)
  · exact .inr (by rw [h]; omega)
  · exact .inr (by omega)

end Cut

namespace Marker

variable {α : Type} {m : Marker α}

theorem shrinks_render {plain : Text → Text} (hplain : Shrinks plain) (m : Marker α) :
    Shrinks fun t ↦ (m.cut t).render plain Part.lexeme := by
  intro t
  have h := Cut.render_eq_or_lt hplain (m.cut t)
  rwa [cut, substitute_lexeme_cutFrom] at h

/-- Where parts are replaced by texts that are shorter by `k`, so is the text itself unless there is
no part. -/
theorem passes_or_add_le {f : α → Text} {k : Nat}
    (hf : ∀ b t a r, m.find? b t = some (a, r) → (f a).length + r.length + k ≤ t.length)
    (b : Option Char) (t : Text) :
    m.Passes b t [] ∨ ((m.cutFrom b t).substitute fun p ↦ f p.value).length + k ≤ t.length := by
  induction hn : t.length using Nat.strongRecOn generalizing b t with
  | ind n ih =>
    subst hn
    cases t with
    | nil => exact .inl fun x y hxy hy ↦ absurd (List.append_eq_nil_iff.mp hxy.symm).2 hy
    | cons c s =>
      cases h : m.find? b (c :: s) with
      | none =>
        refine (ih s.length (by simp) (some c) s rfl).imp (.cons (by rwa [List.append_nil]))
          fun hs ↦ ?_
        rw [cutFrom_of_none m h, Cut.substitute_push, List.length_cons, List.length_cons]
        omega
      | some p =>
        obtain ⟨a, r⟩ := p
        have hr : ((m.cutFrom (consumed (c :: s) r).getLast? r).substitute
            fun p ↦ f p.value).length ≤ r.length := by
          rcases ih r.length (m.shorter h) _ r rfl with hr | hr
          · rw [hr.substitute_eq]
          · omega
        refine .inr ?_
        rw [cutFrom_of_some m h, Cut.substitute_mark, List.length_append]
        exact (Nat.add_le_add_right (Nat.add_le_add_left hr _) k).trans (hf b _ a r h)

theorem passes_or_lt {f : α → Text}
    (hf : ∀ b t a r, m.find? b t = some (a, r) → (f a).length + r.length < t.length)
    (b : Option Char) (t : Text) :
    m.Passes b t [] ∨ ((m.cutFrom b t).substitute fun p ↦ f p.value).length < t.length :=
  passes_or_add_le (k := 1) hf b t

/-- A text without shorter replacements has no parts. -/
theorem passes_of_replace_eq {f : α → Text}
    (hf : ∀ b t a r, m.find? b t = some (a, r) → (f a).length + r.length < t.length)
    (h : m.replace f t = t) : m.Passes none t [] := by
  refine (passes_or_lt hf none t).resolve_right fun hlt ↦ ?_
  have hlt : (m.replace f t).length < t.length := hlt
  rw [h] at hlt
  exact absurd hlt (Nat.lt_irrefl _)

theorem shrinks_replace {f : α → Text}
    (hf : ∀ b t a r, m.find? b t = some (a, r) → (f a).length + r.length < t.length) :
    Shrinks (m.replace f) := fun t ↦
  (passes_or_lt hf none t).imp_left fun h ↦ h.replace_eq f

end Marker

/-! ## The steps of type erasure -/

namespace TypeSyntax

theorem shrinks_eraseAnnotations : Shrinks eraseAnnotations :=
  Marker.shrinks_replace fun _ _ _ _ ↦ length_find?_annotatedVariable_lt

theorem shrinks_eraseAssertionsOnce : Shrinks eraseAssertionsOnce :=
  Marker.shrinks_replace fun _ _ _ _ ↦ length_find?_assertion_lt

theorem eraseAssertions_of_eq (h : eraseAssertionsOnce t = t) : eraseAssertions t = t := by
  rw [eraseAssertions, h, if_neg (Nat.lt_irrefl _)]

theorem shrinks_eraseAssertions : Shrinks eraseAssertions := by
  intro t
  rcases shrinks_eraseAssertionsOnce t with h | h
  · exact .inl (eraseAssertions_of_eq h)
  · refine .inr ?_
    rw [eraseAssertions, if_pos h]
    exact (length_eraseAssertions_le _).trans_lt h

/-- A text that stays as it is has nothing that a round would take away. -/
theorem eraseAssertionsOnce_of_eq (h : eraseAssertions t = t) : eraseAssertionsOnce t = t := by
  refine (shrinks_eraseAssertionsOnce t).resolve_right fun hlt ↦ ?_
  rw [eraseAssertions, if_pos hlt] at h
  have hle := length_eraseAssertions_le (eraseAssertionsOnce t)
  rw [h] at hle
  omega

theorem shrinks_eraseExpressionTypes : Shrinks eraseExpressionTypes :=
  Marker.shrinks_render (shrinks_eraseAssertions.comp shrinks_eraseAnnotations) inert

/-- **A script that type erasure leaves as it is** stays as it is when declarations and signatures
lose their types. -/
theorem eraseSignatures_of_eraseTypes (h : eraseTypes t = t) :
    eraseSignatures (eraseDeclarations t) = t := by
  have hrender := Marker.shrinks_render shrinks_eraseExpressionTypes dependency
  have hlength : (eraseSignatures (eraseDeclarations t)).length ≤ t.length := by
    have hle := length_eraseSignaturesFrom_le [] [] (eraseDeclarations t)
    rw [List.length_nil, Nat.zero_add] at hle
    exact hle.trans (length_eraseDeclarations_le t)
  have heq := hrender.eq_of_length_le (w := eraseSignatures (eraseDeclarations t))
    (hlength.trans_eq (congrArg List.length h.symm))
  exact heq.symm.trans h

end TypeSyntax

end PluginPack
