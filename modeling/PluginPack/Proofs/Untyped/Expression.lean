import PluginPack.Proofs.Untyped.Layout
import PluginPack.TypeSyntax.Erasure

/-!
# No annotations and assertions in scripts without types

The code between the string literals of a script without types is cut out of the script at the ends
of tokens. Nothing in it is read as the annotation of a variable, since no colon stands behind a
name that is declared, and nothing as an assertion, since no token is spelled `as`.
-/

namespace PluginPack

open Text Script TypeSyntax

namespace Untyped

variable {b : Option Char} {c : Char} {k last r s w : Text} {t u v : Token} {ts us : List Token}

/-! ## Annotations -/

/-- The words that declare variables. -/
def declarators : List Text := Kind.declarator.spellings

theorem isAlpha_of_mem_declarators (hk : k ∈ declarators) : ∀ c ∈ k, c.isAlpha = true :=
  (show ∀ k ∈ declarators, ∀ c ∈ k, c.isAlpha = true by decide) k hk

theorem ne_nil_of_mem_declarators (hk : k ∈ declarators) : k ≠ [] :=
  (show ∀ k ∈ declarators, k ≠ [] by decide) k hk

theorem exists_of_declarator? (h : declarator? s = some r) :
    ∃ k ∈ declarators, keyword? k s = some r := by
  rcases Option.or_eq_some_iff.mp h with h | ⟨-, h⟩
  · exact ⟨_, by decide, h⟩
  · rcases Option.or_eq_some_iff.mp h with h | ⟨-, h⟩
    · exact ⟨_, by decide, h⟩
    · exact ⟨_, by decide, h⟩

/-- Behind a word that ends like a declarator, and another word, no colon stands. -/
theorem kind_ne_colon (h : Laid (t :: u :: v :: ts)) (ht : t.kind.isWordlike = true)
    (htext : k <:+ t.text) (hk : k ∈ declarators) (hu : u.kind.isWordlike = true) :
    v.kind ≠ .colon := by
  -- A declarator or a name that is declared: the word behind it bears no colon.
  have hnames : ∀ i ∈ Kind.all, i = .name ∨ i = .binding ∨ i = .number ∨ i = .declarator →
      ∀ j ∈ Kind.all, j.isWordlike = true → follows i j = true → follows j .colon = false := by
    decide
  -- No other word ends like a declarator.
  have hothers : ∀ i ∈ Kind.all, i ≠ .declarator → ∀ s ∈ i.spellings, ∀ k ∈ declarators,
      ¬k <:+ s := by decide
  intro hv
  have hfollows := h.tail.adjacent.1
  rw [hv] at hfollows
  have hnot : ¬(t.kind = .name ∨ t.kind = .binding ∨ t.kind = .number ∨ t.kind = .declarator) := by
    intro hkind
    rw [hnames _ (Kind.mem_all _) hkind _ (Kind.mem_all _) hu h.adjacent.1] at hfollows
    cases hfollows
  simp only [not_or] at hnot
  obtain ⟨hname, hbinding, hnumber, hdeclarator⟩ := hnot
  rcases spells_iff.mp h.spells with ⟨hkind | hkind, -⟩ | ⟨hkind, -⟩ | ⟨hkind, -⟩ | hspells
  · exact hname hkind
  · exact hbinding hkind
  · exact hnumber hkind
  · rw [hkind] at ht
    cases ht
  · exact hothers _ (Kind.mem_all _) hdeclarator _ hspells k hk htext

/-- No colon is read behind a token that no colon follows. -/
theorem word?_behind (h : Laid ts) (hlast : ∀ c ∈ last, isWhite c = true)
    (hcolon : ∀ v ∈ ts.head?, v.kind ≠ .colon) :
    word? [':'] (trimStart (write ts ++ last)) = none := by
  rw [word?_eq_none_iff]
  rintro ⟨w, hw⟩
  cases ts with
  | nil =>
    rw [write_nil, List.nil_append, trimStart_of_white hlast] at hw
    cases hw
  | cons v ts =>
    rw [trimStart_write_cons h] at hw
    refine hcolon v rfl (kind_of_head?_colon h.spells ?_)
    obtain ⟨d, x, hd⟩ := List.exists_cons_of_ne_nil (ne_nil_of_spells h.spells)
    rw [hd, List.cons_append] at hw
    rw [hd, ← (List.cons.inj hw).1]
    rfl

/-- No colon is read behind the word that follows a declarator. -/
theorem word?_behind_declarator (h : Laid (t :: ts)) (hlast : ∀ c ∈ last, isWhite c = true)
    (hcode : ∀ u ∈ ts, u.kind ≠ .string) (ht : t.kind.isWordlike = true) (htext : k <:+ t.text)
    (hk : k ∈ declarators) (hr : white? (write ts ++ last) = some r)
    (hs : some? isNameChar r = some s) : word? [':'] (trimStart s) = none := by
  rcases white?_write h.tail hlast hr with ⟨-, rfl⟩ | ⟨u, us, rfl, rfl⟩
  · cases hs
  · have hne := ne_nil_of_spells h.tail.spells
    have hu : u.kind.isWordlike = true := by
      by_contra hnot
      have hstop : Stops isNameChar u.text := by
        intro c hc
        have hall : ∀ d ∈ symbols, isNameChar d = false := by decide
        exact hall c (head?_mem_symbols (by simpa using hnot) h.tail.spells c hc)
      rw [some?_eq_none (hstop.append hne)] at hs
      cases hs
    have hbehind : word? [':'] (trimStart (write us ++ last)) = none := by
      refine word?_behind h.tail.tail hlast ?_
      intro v hv
      obtain ⟨vs, rfl⟩ : ∃ vs, us = v :: vs := by
        cases us with
        | nil => cases hv
        | cons v' vs => exact ⟨vs, by rw [Option.mem_some.mp hv]⟩
      exact kind_ne_colon h ht htext hk hu
    obtain ⟨w, hw, hname, hstop, heq⟩ := exists_of_some?_eq_some hs
    rcases List.append_eq_append_iff.mp heq with ⟨a, rfl, hrest⟩ | ⟨a, ha, rfl⟩
    · -- The name does not go on behind its token.
      cases a with
      | nil => rwa [← List.nil_append s, ← hrest]
      | cons d a =>
        have hid := stops_isIdentifierChar h.tail hu hlast
        rw [hrest, List.cons_append, stops_cons,
          isIdentifierChar_of_isNameChar (hname d (by simp))] at hid
        cases hid
    · cases a with
      | nil => rwa [List.nil_append]
      | cons d a =>
        have hd : d ∈ u.text := by rw [ha]; simp
        have hclass := isIdentifierChar_or_of_spells hu h.tail.spells d hd
        rw [List.cons_append,
          trimStart_cons (isWhite_of_spells (hcode u (by simp)) h.tail.spells d hd),
          word?_eq_none_iff]
        intro hpre
        rw [← (List.cons_prefix_cons.mp hpre).1] at hclass
        exact absurd hclass (by decide)

theorem find?_annotatedVariable_eq_none (h : ∀ k ∈ declarators, ∀ r, keyword? k s = some r →
    ∀ w, some? isNameChar r = some w → word? [':'] (trimStart w) = none) :
    annotatedVariable.find? b s = none := by
  refine ite_eq_left_iff.mpr fun _ ↦ ?_
  cases hr : declarator? s with
  | none => rw [annotatedVariable?, hr, Option.bind_none]
  | some r =>
    obtain ⟨k, hk, hkey⟩ := exists_of_declarator? hr
    rw [annotatedVariable?, hr, Option.bind_some]
    cases hw : some? isNameChar r with
    | none => rfl
    | some w =>
      rw [Option.bind_some, h k hk r hkey w hw, Option.bind_none, Option.map_none]

/-- No annotation is found in code without string literals. -/
theorem passes_annotatedVariable (h : Laid ts) (hcode : ∀ t ∈ ts, t.kind ≠ .string)
    (hlast : ∀ c ∈ last, isWhite c = true) (b : Option Char) :
    annotatedVariable.Passes b (write ts ++ last) [] := by
  have hwhite : ∀ {b w r}, (∀ c ∈ w, isWhite c = true) → annotatedVariable.Passes b w r := by
    intro b w r hw x y hxy hy
    obtain ⟨c, y, rfl⟩ := List.exists_cons_of_ne_nil hy
    refine find?_annotatedVariable_eq_none fun k hk r hr ↦ ?_
    rw [List.cons_append, keyword?_of_isWhite (hw c (by rw [hxy]; simp))
      (ne_nil_of_mem_declarators hk) (isAlpha_of_mem_declarators hk)] at hr
    cases hr
  refine passes_write h hcode (fun hts _ ↦ hwhite hts.white) ?_ (hwhite hlast) b
  intro b t ts hts hcode x y hxy hy
  refine find?_annotatedVariable_eq_none fun k hk r hr w hw ↦ ?_
  obtain ⟨hword, rfl, hwhite⟩ := keyword?_text hts hlast (hcode t List.mem_cons_self)
    (isAlpha_of_mem_declarators hk) hxy hy hr
  exact word?_behind_declarator hts hlast (fun u hu ↦ hcode u (List.mem_cons_of_mem t hu)) hword
    ⟨x, hxy.symm⟩ hk hwhite hw

/-! ## Assertions -/

/-- No assertion is read from the white space that the text begins with. -/
theorem assertion?_write (h : Laid ts) (hcode : ∀ t ∈ ts, t.kind ≠ .string)
    (hlast : ∀ c ∈ last, isWhite c = true) : assertion? (write ts ++ last) = none := by
  cases hw : white? (write ts ++ last) with
  | none => rw [assertion?, hw, Option.bind_none]
  | some r =>
    have hkey : keyword? "as".toList r = none := by
      rcases white?_write h hlast hw with ⟨-, rfl⟩ | ⟨u, us, rfl, rfl⟩
      · rfl
      · rw [Option.eq_none_iff_forall_ne_some]
        intro s hs
        obtain ⟨-, htext, -⟩ := keyword?_text h hlast (hcode u List.mem_cons_self)
          (k := "as".toList) (by decide) (List.nil_append u.text).symm (ne_nil_of_spells h.spells)
          hs
        have hall : ∀ j ∈ Kind.all, j.spells "as".toList = false := by decide
        have hspells := h.spells
        rw [htext, hall _ (Kind.mem_all _)] at hspells
        cases hspells
    rw [assertion?, hw, Option.bind_some, hkey, Option.bind_none]

theorem assertion?_of_stops (h : Stops isWhite s) : assertion? s = none := by
  rw [assertion?, white?, some?_eq_none h, Option.bind_none]

/-- The white space in front of a token may be cut short. -/
theorem Laid.cut_gap (h : Laid (t :: ts)) {x y : Text} (hxy : t.gap = x ++ y) :
    Laid ({ t with gap := y } :: ts) := by
  refine ⟨⟨fun c hc ↦ h.white c ?_, h.spells⟩, h.2⟩
  rw [hxy]
  exact List.mem_append_right x hc

theorem find?_assertion_eq_none (hc : assertion? (c :: s) = none) (hs : assertion? s = none) :
    assertion.find? b (c :: s) = none := by
  have hfind : assertion.find? b (c :: s) = asserted? b (c :: s) := rfl
  rw [hfind, asserted?, hc, hs]
  simp

/-- No assertion is found in code without string literals. -/
theorem passes_assertion (h : Laid ts) (hcode : ∀ t ∈ ts, t.kind ≠ .string)
    (hlast : ∀ c ∈ last, isWhite c = true) (b : Option Char) :
    assertion.Passes b (write ts ++ last) [] := by
  refine passes_write h hcode ?_ ?_ ?_ b
  · intro b t ts hts hcode x y hxy hy
    -- A place in the white space is a shorter gap of the same token.
    have hgap : ∀ x y, t.gap = x ++ y →
        assertion? (y ++ (t.text ++ (write ts ++ last))) = none := by
      intro x y hxy
      have hnone := assertion?_write (hts.cut_gap hxy)
        (List.forall_mem_cons.mpr (List.forall_mem_cons.mp hcode)) hlast
      rwa [write_cons, List.append_assoc, List.append_assoc] at hnone
    obtain ⟨c, y, rfl⟩ := List.exists_cons_of_ne_nil hy
    refine find?_assertion_eq_none (hgap x _ hxy) (hgap (x ++ [c]) y ?_)
    rw [hxy, List.append_assoc, List.singleton_append]
  · intro b t ts hts hcode x y hxy hy
    have hblack : ∀ c ∈ y, isWhite c = false := by
      intro c hc
      refine isWhite_of_spells (hcode t List.mem_cons_self) hts.spells c ?_
      rw [hxy]
      exact List.mem_append_right x hc
    obtain ⟨c, y, rfl⟩ := List.exists_cons_of_ne_nil hy
    refine find?_assertion_eq_none (assertion?_of_stops ?_) ?_
    · exact stops_cons.mpr (hblack c List.mem_cons_self)
    · cases y with
      | nil =>
        exact assertion?_write hts.tail (fun u hu ↦ hcode u (List.mem_cons_of_mem t hu)) hlast
      | cons d y => exact assertion?_of_stops (stops_cons.mpr (hblack d (by simp)))
  · intro b x y hxy hy
    have hnone : ∀ y, (∀ c ∈ y, isWhite c = true) → assertion? y = none :=
      fun y hy ↦ (assertion?_write trivial (by simp) hy : assertion? (write [] ++ y) = none)
    have hwhite : ∀ c ∈ y, isWhite c = true := by
      intro c hc
      rw [hxy] at hlast
      exact hlast c (List.mem_append_right x hc)
    obtain ⟨c, y, rfl⟩ := List.exists_cons_of_ne_nil hy
    rw [List.append_nil]
    exact find?_assertion_eq_none (hnone _ hwhite)
      (hnone y fun d hd ↦ hwhite d (List.mem_cons_of_mem c hd))

/-! ## Code between string literals -/

/-- **No type is removed** from code without string literals. -/
theorem eraseAssertions_write (h : Laid ts) (hcode : ∀ t ∈ ts, t.kind ≠ .string)
    (hlast : ∀ c ∈ last, isWhite c = true) :
    eraseAssertions (eraseAnnotations (write ts ++ last)) = write ts ++ last := by
  have hunannotated : eraseAnnotations (write ts ++ last) = write ts ++ last :=
    (passes_annotatedVariable h hcode hlast none).replace_eq id
  have hassertion : eraseAssertionsOnce (write ts ++ last) = write ts ++ last :=
    (passes_assertion h hcode hlast none).replace_eq id
  rw [hunannotated, eraseAssertions, hassertion, if_neg (Nat.lt_irrefl _)]

/-! ## Whole scripts -/

/-- No literal begins in white space or in a token that is no string literal. -/
theorem passes_inert (h : t.IsSpelled) (ht : t.kind ≠ .string) (b : Option Char) (r : Text) :
    inert.Passes b (t.gap ++ t.text) r := by
  intro x y hxy hy
  obtain ⟨c, y, rfl⟩ := List.exists_cons_of_ne_nil hy
  have hc : c ∈ t.gap ++ t.text := by rw [hxy]; simp
  rcases List.mem_append.mp hc with hc | hc
  · exact inert?_of_isPlain (isPlain_of_isWhite (h.1 c hc)) _
  · exact inert?_of_spells ht h.2 hc _

theorem passes_inert_white (hw : ∀ c ∈ w, isWhite c = true) (b : Option Char) (r : Text) :
    inert.Passes b w r := by
  intro x y hxy hy
  obtain ⟨c, y, rfl⟩ := List.exists_cons_of_ne_nil hy
  exact inert?_of_isPlain (isPlain_of_isWhite (hw c (by rw [hxy]; simp))) _

theorem cutFrom_inert_string (h : t.kind = .string) (hs : t.IsSpelled) (r : Text) :
    inert.cutFrom b (t.text ++ r) =
      (inert.cutFrom t.text.getLast? r).mark ⟨t.text, t.text⟩ := by
  have hstring : isString t.text = true := by
    have hspells := hs.2
    rwa [h] at hspells
  have hfind : inert.find? b (t.text ++ r) = some (t.text, r) := inert?_append_of_isString hstring r
  rw [Marker.cutFrom_of_some _ hfind, Marker.consumed_left]

/-- What a function leaves alone between string literals, it leaves alone in the whole script. Here
`us` are the tokens since the last string literal. -/
theorem render_cutFrom_inert {f : Text → Text} (hlast : ∀ c ∈ last, isWhite c = true)
    (hf : ∀ us w, Laid us → (∀ u ∈ us, u.kind ≠ .string) → (∀ c ∈ w, isWhite c = true) →
      f (write us ++ w) = write us ++ w)
    (us : List Token) (h : Laid (us ++ ts)) (hcode : ∀ u ∈ us, u.kind ≠ .string) (b : Option Char) :
    ((inert.cutFrom b (write ts ++ last)).prepend (write us)).render f Part.lexeme =
      write us ++ (write ts ++ last) := by
  induction ts generalizing us b with
  | nil =>
    have hcut := (passes_inert_white hlast b []).cutFrom_append
    rw [List.append_nil] at hcut h
    rw [write_nil, List.nil_append, hcut, Marker.cutFrom_nil, Cut.prepend_prepend,
      Cut.render_prepend_empty, hf us last h hcode hlast]
  | cons t ts ih =>
    have ht := h.of_append
    by_cases hstring : t.kind = .string
    · have hrest := ih [] ht.tail (by simp) t.text.getLast?
      rw [write_nil, Cut.prepend_nil, List.nil_append] at hrest
      rw [write_cons, List.append_assoc, List.append_assoc,
        (passes_inert_white ht.white b _).cutFrom_append, cutFrom_inert_string hstring ht.1,
        Cut.prepend_prepend, Cut.render_prepend_mark, hrest,
        hf us t.gap h.left_of_append hcode ht.white, List.append_assoc]
    · have hrest := ih (us ++ [t]) (by rwa [List.append_assoc]) ?_
        ((t.gap ++ t.text).getLast?.or b)
      · rw [write_append, write_cons, write_nil, List.append_nil, List.append_assoc] at hrest
        rw [write_cons, List.append_assoc, List.append_assoc, ← List.append_assoc t.gap,
          (passes_inert ht.1 hstring b _).cutFrom_append, Cut.prepend_prepend, hrest]
      · intro u hu
        rcases List.mem_append.mp hu with hu | hu
        · exact hcode u hu
        · rwa [List.mem_singleton.mp hu]

/-- **No annotation and no assertion is removed** from a script without types. -/
theorem eraseExpressionTypes_write (h : Laid ts) (hlast : ∀ c ∈ last, isWhite c = true) :
    eraseExpressionTypes (write ts ++ last) = write ts ++ last :=
  render_cutFrom_inert (f := fun w ↦ eraseAssertions (eraseAnnotations w)) hlast
    (fun _ _ hus hcode hw ↦ eraseAssertions_write hus hcode hw) [] h (by simp) none

end Untyped

end PluginPack
