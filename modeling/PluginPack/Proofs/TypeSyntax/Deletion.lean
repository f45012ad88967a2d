import PluginPack.Proofs.TypeSyntax.Length
import PluginPack.Script.Export

/-!
# Erasing types only deletes

White space aside, every step of type erasure writes what it reads, in the same order, less what it
takes away. The only character that a step writes of its own is the blank between a parameter and
its value. This is followed through cuts: a stretch or a part may be written anew as long as what is
written is what stood there before, with something left out.
-/

namespace PluginPack

open Text Script

namespace Text

/-- The characters of a text that are not white space. -/
def solid (t : Text) : Text := t.filter fun c ↦ !isWhite c

@[simp] theorem solid_append (t u : Text) : solid (t ++ u) = solid t ++ solid u :=
  List.filter_append t u

/-- The first text is what deleting characters leaves of the second, up to white space. -/
def Thins (u t : Text) : Prop := (solid u).Sublist (solid t)

namespace Thins

variable {a b t u v : Text}

theorem of_sublist (h : u.Sublist t) : Thins u t := h.filter _

theorem refl (t : Text) : Thins t t := List.Sublist.refl _

theorem trans (h : Thins u t) (h' : Thins t v) : Thins u v := List.Sublist.trans h h'

theorem append (h : Thins u t) (h' : Thins a b) : Thins (u ++ a) (t ++ b) := by
  unfold Thins
  rw [solid_append, solid_append]
  exact List.Sublist.append h h'

theorem cons (c : Char) (h : Thins u t) : Thins (c :: u) (c :: t) := (refl [c]).append h

/-- White space can be written anywhere. -/
theorem of_white (h : ∀ c ∈ u, isWhite c = true) (t : Text) : Thins u t := by
  have hnil : solid u = [] := List.filter_eq_nil_iff.mpr fun c hc ↦ by simp [h c hc]
  unfold Thins
  rw [hnil]
  exact List.nil_sublist _

end Thins

theorem trimEnd_sublist (t : Text) : (trimEnd t).Sublist t := by
  have h := (List.dropWhile_suffix (l := t.reverse) isWhite).sublist.reverse
  rwa [List.reverse_reverse] at h

end Text

variable {after before kept r t w : Text} {c : Char}

/-! ## Cuts -/

theorem Cut.thins_render {α : Type} {plain : Text → Text} {part : Part α → Text} {k : Cut (Part α)}
    (hplain : ∀ w, Thins (plain w) w) (hpart : ∀ p ∈ k.parts, Thins (part p) p.lexeme) :
    Thins (k.render plain part) (k.substitute Part.lexeme) := by
  obtain ⟨first, rest⟩ := k
  refine (hplain first).append ?_
  induction rest with
  | nil => exact .refl []
  | cons x rest ih =>
    have hx := hpart x.1 (by simp [parts])
    exact (hx.append (hplain x.2)).append (ih fun p hp ↦ hpart p (List.mem_cons_of_mem x.1 hp))

namespace Marker

variable {α : Type} {m : Marker α}

theorem thins_render {plain : Text → Text} {part : Part α → Text}
    (hplain : ∀ w, Thins (plain w) w)
    (hpart : ∀ p ∈ (m.cut t).parts, Thins (part p) p.lexeme) :
    Thins ((m.cut t).render plain part) t := by
  have h := Cut.thins_render hplain hpart
  rwa [cut, substitute_lexeme_cutFrom] at h

/-- Replacing parts only deletes when what is left of each one is a thinner form of it. -/
theorem thins_replace {f : α → Text}
    (hf : ∀ b w a r, m.find? b (w ++ r) = some (a, r) → Thins (f a) w) (t : Text) :
    Thins (m.replace f t) t := by
  rw [replace, Cut.substitute]
  refine thins_render (fun w ↦ .refl w) fun p hp ↦ ?_
  obtain ⟨b, u, r, hfind, rfl⟩ := exists_find?_of_mem_parts hp
  exact hf b _ p.value r hfind

theorem thins_erase (m : Marker α) (t : Text) : Thins (m.erase t) t :=
  thins_replace (fun _ w _ _ _ ↦ .of_sublist (List.nil_sublist w)) t

end Marker

/-! ## Import and export syntax -/

namespace Script

theorem thins_detachLocal (source : Text) : Thins (detachLocal source).code source := by
  refine Marker.thins_render (fun w ↦ .refl w) fun p _ ↦ ?_
  rw [keepForeign]
  split
  · exact .of_sublist (List.nil_sublist _)
  · exact .refl _

theorem thins_eraseExports (code : Text) : Thins (eraseExports code) code := by
  have hblank : ∀ (t : Text), ∀ c ∈ t.takeWhile isBlank, isWhite c = true := fun t c hc ↦
    isWhite_of_isBlank (List.mem_takeWhile_imp hc)
  have hdefault : Thins (exportDefault.replace id code) code := by
    refine Marker.thins_replace (fun b w a r h ↦ ?_) code
    obtain ⟨x, -, he⟩ := Option.map_eq_some_iff.mp (Marker.of_find?_ofLine h)
    cases he
    exact .of_white (hblank _) w
  have hkeyword : ∀ t, Thins (exportKeyword.replace id t) t := fun t ↦ by
    refine Marker.thins_replace (fun b w a r h ↦ ?_) t
    obtain ⟨x, -, he⟩ := Option.map_eq_some_iff.mp (Marker.of_find?_ofLine h)
    cases he
    exact .of_white (hblank _) w
  exact (hkeyword _).trans ((Marker.thins_erase _ _).trans hdefault)

end Script

namespace TypeSyntax

/-! ## Declarations, annotations and assertions -/

theorem thins_eraseDeclarations (t : Text) : Thins (eraseDeclarations t) t :=
  (Marker.thins_erase _ _).trans (Marker.thins_erase _ t)

theorem isPrefix_consumed {y : Text} (hy : y <:+ w ++ r) (hr : r <:+ y) :
    Marker.consumed (w ++ r) y <+: w := by
  obtain ⟨v, rfl⟩ := hr
  obtain ⟨x, hx⟩ := hy
  rw [← List.append_assoc] at hx
  obtain rfl := List.append_cancel_right hx
  rw [List.append_assoc, Marker.consumed_left]
  exact List.prefix_append x v

/-- What stays of an annotated variable is its declaration up to the name. -/
theorem thins_eraseAnnotations (t : Text) : Thins (eraseAnnotations t) t := by
  refine Marker.thins_replace (fun b w a r h ↦ ?_) t
  obtain ⟨y, v, hy, rfl, hcolon, hv⟩ :=
    exists_of_annotatedVariable? (annotatedVariable?_of_find? h)
  have hr : r <:+ y := (afterAnnotation?_suffix hv).trans
    ((hcolon ▸ List.suffix_cons ':' v : v <:+ trimStart y).trans (List.dropWhile_suffix _))
  exact .of_sublist (isPrefix_consumed hy hr).sublist

/-- What stays of an assertion is the last character of its operand. -/
theorem thins_eraseAssertionsOnce (t : Text) : Thins (eraseAssertionsOnce t) t := by
  refine Marker.thins_replace (fun b w a r h ↦ ?_) t
  obtain ⟨s, hsplit, hs, -⟩ := exists_of_find?_assertion h
  obtain ⟨u, rfl⟩ := (assertion?_suffix hs).1
  rw [← List.append_assoc, List.append_cancel_right_eq] at hsplit
  exact .of_sublist (hsplit ▸ List.sublist_append_left a u)

theorem thins_eraseAssertions (t : Text) : Thins (eraseAssertions t) t := by
  fun_induction eraseAssertions t with
  | case1 t hlt ih => exact ih.trans (thins_eraseAssertionsOnce t)
  | case2 t => exact .refl t

theorem thins_eraseExpressionTypes (t : Text) : Thins (eraseExpressionTypes t) t :=
  Marker.thins_render (fun w ↦ (thins_eraseAssertions _).trans (thins_eraseAnnotations w))
    fun p _ ↦ .refl p.lexeme

/-! ## Signatures -/

theorem dropOptional_sublist (t : Text) : (dropOptional t).Sublist t := by
  rw [dropOptional]
  split
  · exact (trimEnd_sublist _).trans ((List.dropLast_sublist _).trans (trimEnd_sublist t))
  · exact trimEnd_sublist t

theorem thins_eraseParameterType (p : Text) : Thins (eraseParameterType p) p := by
  rw [eraseParameterType]
  split
  · rename_i name type hname
    have hp := splitTopLevel?_append hname
    have hkept : Thins (dropOptional name) name := .of_sublist (dropOptional_sublist name)
    split
    · rename_i x value htype
      -- A blank comes in the place of the type.
      have hblank : Thins [' '] (':' :: x) := .of_white (by decide) _
      rw [← hp, ← splitTopLevel?_append htype]
      exact hkept.append (hblank.append (.refl value))
    · have htrailing : Thins (trailingWhite p) (':' :: type) :=
        .of_white (fun c hc ↦ List.mem_takeWhile_imp (List.mem_reverse.mp hc)) _
      have h := hkept.append htrailing
      rwa [hp] at h
  · exact .refl p

theorem thins_eraseParameterTypes (p : Text) : Thins (eraseParameterTypes p) p := by
  fun_induction eraseParameterTypes p with
  | case1 p param comma others hsplit _ ih =>
    rw [← splitTopLevel?_append hsplit]
    exact (thins_eraseParameterType param).append (ih.cons comma)
  | case2 p => exact thins_eraseParameterType p

theorem gap_white {x : Tail} (h : tail? t = some x) : ∀ c ∈ x.gap, isWhite c = true := by
  rw [tail?] at h
  split at h
  · cases h
    simp
  · cases h
    simp
  · obtain ⟨⟨type, follow⟩, -, h⟩ := Option.bind_eq_some_iff.mp h
    dsimp only at h
    split at h
    · cases h
    · cases h
      exact fun c hc ↦ List.mem_takeWhile_imp hc
  · cases h

/-- What stays of a signature stands between its parenthesis and the text behind it. -/
theorem thins_signature {x : Signature} (h : signature? before after = some x) :
    Thins (x.render ++ x.rest) ('(' :: after) := by
  obtain ⟨params, behind, tail, hclose, htail, rfl, -⟩ := exists_of_signature? h
  rw [← closeParen?_append hclose]
  have hbehind : Thins (tail.gap ++ behind.drop tail.width) behind := by
    have h := (Thins.of_white (gap_white htail) (behind.take tail.width)).append
      (.refl (behind.drop tail.width))
    rwa [List.take_append_drop] at h
  simpa [Signature.render] using
    ((thins_eraseParameterTypes params).append (hbehind.cons ')')).cons '('

theorem thins_eraseSignaturesFrom (before kept t : Text) :
    Thins (eraseSignaturesFrom before kept t) (kept.reverse ++ t) := by
  fun_induction eraseSignaturesFrom before kept t with
  | case1 before kept => rw [List.append_nil]; exact .refl _
  | case2 before kept c r lit rest hinert _ ih =>
    rw [← inert?_append hinert]
    simpa using ih
  | case3 before kept r x hx hlead _ _ ih =>
    have hlead : Thins (kept.drop x.lead).reverse kept.reverse :=
      .of_sublist (List.drop_sublist _ _).reverse
    rw [List.append_assoc]
    exact hlead.append (((Thins.refl x.render).append ih).trans (thins_signature hx))
  | case4 before kept r x _ _ _ ih => simpa using ih
  | case5 before kept r _ _ ih => simpa using ih
  | case6 before kept c r _ _ ih => simpa using ih

theorem thins_eraseSignatures (t : Text) : Thins (eraseSignatures t) t :=
  thins_eraseSignaturesFrom [] [] t

/-! ## Scripts -/

theorem thins_eraseTypes (code : Text) : Thins (eraseTypes code) code :=
  (Marker.thins_render thins_eraseExpressionTypes fun p _ ↦ .refl p.lexeme).trans
    ((thins_eraseSignatures _).trans (thins_eraseDeclarations code))

/-- **Erasing only deletes.** Up to white space, what is left of a script without its types is a
subsequence of the script, and so is what is left of it without its local dependencies and its
export syntax. -/
theorem erasure_only_deletes (code source : Text) :
    (solid (eraseTypes code)).Sublist (solid code) ∧
      (solid (eraseExports (detachLocal source).code)).Sublist (solid source) :=
  ⟨thins_eraseTypes code, (thins_eraseExports _).trans (thins_detachLocal source)⟩

end TypeSyntax

end PluginPack
