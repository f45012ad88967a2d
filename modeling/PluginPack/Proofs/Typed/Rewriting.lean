import PluginPack.Proofs.Typed.Parameter
import PluginPack.Proofs.Untyped.Signature

/-!
# Signatures inside types

The pass that erases the types of signatures goes over a whole script, so it also finds the function
types in the annotations of variables and takes their parameters for the parameters of an arrow. In
a type it erases the types of these parameters and keeps everything else. Calls are kept as long as
neither an arrow nor a brace nor a colon follows them.
-/

namespace PluginPack

open Text Script TypeSyntax

namespace Typed

variable {c : Char} {before kept r u u' v v' w w' : Text}

/-! ## Rewriting -/

/-- The pass over signatures makes `w'` of `w` when `r` follows and no type parameters stand in
front. Whatever is still to be written, is written in front of it. -/
def Rewrites (w w' r : Text) : Prop :=
  ∀ before kept, beforeTypeParameters? before = none →
    ∃ out kept', eraseSignaturesFrom before kept (w ++ r) =
        out ++ eraseSignaturesFrom (w.reverse ++ before) kept' r ∧
      out ++ kept'.reverse = kept.reverse ++ w'

/-- No type parameters are read in front of what stands behind the text. -/
def Guards (w : Text) : Prop := ∀ before, beforeTypeParameters? (w.reverse ++ before) = none

theorem guards_concat (w : Text) (hwhite : isWhite c = false) (hangle : c ≠ '>') :
    Guards (w ++ [c]) := by
  intro before
  rw [List.reverse_append, List.reverse_singleton, List.singleton_append, List.cons_append]
  exact beforeTypeParameters?_cons hwhite hangle _

theorem Guards.append (h : Guards v) (u : Text) : Guards (u ++ v) := by
  intro before
  rw [List.reverse_append, List.append_assoc]
  exact h _

/-- The tip of an arrow closes no type parameters. -/
theorem guards_arrow : Guards [' ', '=', '>', ' '] := fun _ ↦ rfl

theorem Rewrites.append (hu : Rewrites u u' (v ++ r)) (hv : Rewrites v v' r) (hguard : Guards u) :
    Rewrites (u ++ v) (u' ++ v') r := by
  intro before kept hbefore
  obtain ⟨out, kept', hfrom, hout⟩ := hu before kept hbefore
  obtain ⟨out', kept'', hfrom', hout'⟩ := hv (u.reverse ++ before) kept' (hguard before)
  refine ⟨out ++ out', kept'', ?_, ?_⟩
  · rw [List.append_assoc, hfrom, hfrom', List.append_assoc, List.reverse_append, List.append_assoc]
  · rw [List.append_assoc, hout', ← List.append_assoc, hout, List.append_assoc]

/-- Characters that begin no literal and open no parenthesis. -/
def Inert (w : Text) : Prop := ∀ c ∈ w, (∀ r, inert? (c :: r) = none) ∧ c ≠ '('

theorem Inert.rewrites (h : Inert w) (r : Text) : Rewrites w w r := by
  intro before kept _
  refine ⟨[], w.reverse ++ kept, ?_, ?_⟩
  · rw [Untyped.eraseSignaturesFrom_append h, List.nil_append]
  · rw [List.nil_append, List.reverse_append, List.reverse_reverse]

theorem inert_of_isPlain (hw : ∀ c ∈ w, Untyped.isPlain c = true) : Inert w := fun c hc ↦ by
  refine ⟨Untyped.inert?_of_isPlain (hw c hc), ?_⟩
  rintro rfl
  cases hw _ hc

theorem Inert.append (hu : Inert u) (hv : Inert v) : Inert (u ++ v) :=
  List.forall_mem_append.mpr ⟨hu, hv⟩

theorem inert_brackets (hw : ∀ c ∈ w, c ∈
    [')', '[', ']', '{', '}', '<', '>', ' ', '=', ',', ';', ':', '|', '&']) : Inert w := by
  intro c hc
  have hall : ∀ d ∈ [')', '[', ']', '{', '}', '<', '>', ' ', '=', ',', ';', ':', '|', '&'],
      (isQuote d = false ∧ d ≠ '/') ∧ d ≠ '(' := by decide
  obtain ⟨h, hparen⟩ := hall c (hw c hc)
  exact ⟨inert?_eq_none h.1 h.2, hparen⟩

/-- Inert text may be added at the end. -/
theorem Rewrites.append_inert (hu : Rewrites u u' (v ++ r)) (hv : Inert v) :
    Rewrites (u ++ v) (u' ++ v) r := by
  intro before kept hbefore
  obtain ⟨out, kept', hfrom, hout⟩ := hu before kept hbefore
  refine ⟨out, v.reverse ++ kept', ?_, ?_⟩
  · rw [List.append_assoc, hfrom, Untyped.eraseSignaturesFrom_append hv, List.reverse_append,
      List.append_assoc]
  · rw [List.reverse_append, List.reverse_reverse, ← List.append_assoc, hout, List.append_assoc]

/-- Text goes on behind marks that are no end of type parameters. -/
theorem Rewrites.behind (hu : Rewrites u u' (w ++ (v ++ r))) (hw : Inert w) (hguard : Guards w)
    (hv : Rewrites v v' r) : Rewrites (u ++ (w ++ v)) (u' ++ (w ++ v')) r := by
  have h := (hu.append_inert hw).append hv (hguard.append u)
  rwa [List.append_assoc, List.append_assoc] at h

/-- A whole text is rewritten. -/
theorem Rewrites.eraseSignatures_eq (h : Rewrites w w' []) : eraseSignatures w = w' := by
  obtain ⟨out, kept', hfrom, hout⟩ := h [] [] rfl
  rw [List.append_nil, eraseSignaturesFrom] at hfrom
  rw [eraseSignatures, hfrom, hout]
  rfl

/-! ## Parentheses -/

/-- Parameters in front of an arrow lose their types. -/
theorem Rewrites.arrow {p q : Char → Bool} {params params' : Text} (hparams : Nested q p params)
    (herase : eraseParameterTypes params = params')
    (hw : Rewrites w w' r) : Rewrites ('(' :: (params ++ ')' :: ' ' :: '=' :: '>' :: ' ' :: w))
      ('(' :: (params' ++ ')' :: ' ' :: '=' :: '>' :: ' ' :: w')) r := by
  have harrow : Rewrites ([' ', '=', '>', ' '] ++ w) ([' ', '=', '>', ' '] ++ w') r :=
    ((inert_brackets (by decide)).rewrites _).append hw guards_arrow
  intro before kept hbefore
  have hsignature : signature? before (params ++ ')' :: ([' ', '=', '>', ' '] ++ w ++ r)) =
      some ⟨0, params, [], [' ', '=', '>', ' '] ++ w ++ r⟩ := by
    have htail : tail? ([' ', '=', '>', ' '] ++ w ++ r) = some ⟨.arrow, [], 0⟩ := rfl
    rw [signature?, closeParen?_nested hparams, Option.bind_some]
    simp only [htail, hbefore, Option.bind_some, Option.getD_none, Nat.sub_self, true_or, if_true,
      List.drop_zero]
  have htext : '(' :: (params ++ ')' :: ' ' :: '=' :: '>' :: ' ' :: w) ++ r =
      '(' :: (params ++ ')' :: ([' ', '=', '>', ' '] ++ w ++ r)) := by simp
  have hconsumed : Marker.consumed ('(' :: (params ++ ')' :: ([' ', '=', '>', ' '] ++ w ++ r)))
      ([' ', '=', '>', ' '] ++ w ++ r) = '(' :: (params ++ [')']) := by
    rw [← Marker.consumed_left ('(' :: (params ++ [')'])) ([' ', '=', '>', ' '] ++ w ++ r)]
    simp
  obtain ⟨out, kept', hfrom, hout⟩ := harrow (('(' :: (params ++ [')'])).reverse ++ before) [] (by
    rw [← List.cons_append]
    exact guards_concat _ rfl (by decide) before)
  refine ⟨kept.reverse ++ '(' :: (params' ++ ')' :: out), kept', ?_, ?_⟩
  · rw [htext, Untyped.eraseSignaturesFrom_some hsignature (Nat.zero_le _), Signature.render,
      herase, hconsumed, hfrom]
    simp
  · rw [List.append_assoc, List.cons_append, List.append_assoc, List.cons_append, hout]
    simp

/-- Parentheses stay when nothing behind them makes them parameters. -/
theorem Rewrites.call {p q : Char → Bool} (hparams : Nested q p w)
    (hw : Rewrites w w' (')' :: r)) (htail : tail? r = none) :
    Rewrites ('(' :: (w ++ [')'])) ('(' :: (w' ++ [')'])) r := by
  intro before kept hbefore
  have hsignature : signature? before (w ++ ')' :: r) = none := by
    rw [signature?, closeParen?_nested hparams, Option.bind_some]
    simp only [htail, Option.bind_none]
  obtain ⟨out, kept', hfrom, hout⟩ := (hw.append_inert (v := [')']) (inert_brackets (by decide)))
    ('(' :: before) ('(' :: kept) (beforeTypeParameters?_cons rfl (by decide) before)
  refine ⟨out, kept', ?_, ?_⟩
  · have htext : '(' :: (w ++ [')']) ++ r = '(' :: (w ++ ')' :: r) := by simp
    rw [List.append_assoc, List.singleton_append] at hfrom
    rw [htext, Untyped.eraseSignaturesFrom_none hsignature, hfrom]
    simp
  · rw [hout]
    simp

/-! ## Types -/

namespace Tree

variable {k : Category}

/-- A field loses its type. -/
theorem erases_field (n : Name) (t : Tree .type) :
    Erases (n.text ++ ':' :: ' ' :: t.text) n.text := by
  have h := Parameter.erases ⟨false, .name n, some ⟨false, t⟩, none⟩
  simpa [Parameter.text, Parameter.erased, Parameter.binder, Parameter.annotationText,
    Parameter.valueText, Target.text] using h

theorem eraseParameterTypes_fields {ps : Tree (.fields .comma)} {lead : Text}
    (hlead : ∀ c ∈ lead, c = ' ') : eraseParameterTypes (lead ++ ps.text) = lead ++ ps.names := by
  suffices h : ∀ {k} (t : Tree k), k = .fields .comma → ∀ lead : Text, (∀ c ∈ lead, c = ' ') →
      eraseParameterTypes (lead ++ t.text) = lead ++ t.names from h ps rfl lead hlead
  clear hlead lead ps
  intro k t hk
  induction t with
  | noField =>
    intro lead hlead
    have hnone : ∀ w ∈ ([] : List Text), Erases (id w) (id w) := List.forall_mem_nil _
    simpa [text, write, names] using eraseParameterTypes_intercalate hnone hlead
  | field n t =>
    intro lead hlead
    exact (erases_field n t).last hlead
  | @fields s n t fs _ ih =>
    intro lead hlead
    cases hk
    have hmore := (erases_field n t).more hlead fs.text
    have hrest : eraseParameterTypes (' ' :: fs.text) = ' ' :: fs.names := ih rfl [' '] (by simp)
    rw [hrest] at hmore
    simpa [text, write, names, Separator.char] using hmore
  | _ => cases hk

theorem inert_name (n : Name) : Inert n.text :=
  inert_of_isPlain fun c hc ↦ isPlain_of_isOrdinary (isOrdinary_of_isPathChar (n.isPathChar c hc))

theorem inert_path (n : DottedName) : Inert n.text :=
  inert_of_isPlain fun c hc ↦ isPlain_of_isOrdinary (isOrdinary_of_isPathChar (n.isPathChar c hc))

/-- **In a type** the parameters of function types lose their types. -/
theorem rewrites {t : Tree k} (h : t.isCode = true) (r : Text) : Rewrites t.text t.bare r := by
  induction t generalizing r with
  | name n => exact (inert_path n).rewrites r
  | literal => cases h
  | array t ih => exact (ih h _).append_inert (inert_brackets (by decide))
  | generic n ts ih =>
    exact .behind (w := ['<']) ((inert_path n).rewrites _) (inert_brackets (by decide))
      (fun _ ↦ rfl) ((ih h _).append_inert (inert_brackets (by decide)))
  | joined j t u iht ihu =>
    rw [isCode, Bool.and_eq_true] at h
    refine .behind (w := [' ', j.sign, ' ']) (iht h.1 _) ?_ ?_ (ihu h.2 r)
    · cases j <;> exact inert_brackets (by decide)
    · cases j <;> exact fun _ ↦ rfl
  | group => cases h
  | function ps t _ iht =>
    rw [isCode, Bool.and_eq_true] at h
    have hnames : eraseParameterTypes ps.text = ps.names :=
      eraseParameterTypes_fields (List.forall_mem_nil _)
    exact .arrow ps.nested_anyMark hnames (iht h.2 r)
  | object ms isClosed ih =>
    have hend : Inert ((if isClosed then [';', ' '] else [' ']) ++ ['}']) := by
      cases isClosed <;> exact inert_brackets (by decide)
    have hinside := Rewrites.behind (u := []) (w := ['{', ' ']) (Inert.rewrites (by simp [Inert]) _)
      (inert_brackets (by decide)) (fun _ ↦ rfl) ((ih h _).append_inert (r := r) hend)
    simpa [text, bare, write] using hinside
  | argument t ih => exact ih h r
  | arguments t ts iht ihts =>
    rw [isCode, Bool.and_eq_true] at h
    exact .behind (w := [',', ' ']) (iht h.1 _) (inert_brackets (by decide)) (fun _ ↦ rfl)
      (ihts h.2 r)
  | noField => exact Inert.rewrites (w := []) (by simp [Inert]) r
  | field n t ih =>
    exact .behind (w := [':', ' ']) ((inert_name n).rewrites _) (inert_brackets (by decide))
      (fun _ ↦ rfl) (ih h r)
  | @fields s n t fs iht ihfs =>
    rw [isCode, Bool.and_eq_true] at h
    have hrest : Rewrites (t.text ++ ([s.char, ' '] ++ fs.text))
        (t.bare ++ ([s.char, ' '] ++ fs.bare)) r := by
      refine .behind (iht h.1 _) ?_ ?_ (ihfs h.2 r)
      · cases s <;> exact inert_brackets (by decide)
      · cases s <;> exact fun _ ↦ rfl
    exact .behind (w := [':', ' ']) ((inert_name n).rewrites _) (inert_brackets (by decide))
      (fun _ ↦ rfl) hrest

end Tree

end Typed

end PluginPack
