import PluginPack.Proofs.Script.Statement
import PluginPack.Proofs.TypeSyntax.Arrival
import PluginPack.Proofs.TypeSyntax.Operand

/-!
# Dependency statements that type erasure keeps

An import or a re-export that begins a line outside of types goes through all passes. Those over
declarations and signatures leave it alone. Then it is copied, if it is read as a dependency
statement with its whole line. Where it is not, because something follows it on its line or because
of how it is spaced, it is code like any other, and a name with `as` in its clause reads like an
assertion. It then stays from its keyword to the closing quote if its own text has nothing that the
last pass takes away.

What stands in front may be any text. It is asked that what the passes find there ends there, place
by place: a declaration, a literal, a comment, a signature, a statement, an annotation, and in every
round an assertion.
-/

namespace PluginPack

open Text Script

/-! ## Statements up to their specifiers -/

namespace Script.Statement

variable {s : Statement}

/-- The statement from its keyword to the closing quote of its specifier. -/
def body (s : Statement) : Text :=
  s.heading.keyword ++ (s.gap ++ (s.heading.text ++ s.opening :: (s.specifier ++ [s.closing])))

theorem text_eq_body (s : Statement) : s.text = s.indent ++ (s.body ++ s.tail) := by
  simp [text, body]

/-- The statement's literals and comments are closed, no parenthesis stands in its code, and what
follows it on its line, if anything, begins with a semicolon. -/
structure IsDelimited (s : Statement) : Prop where
  indent : ∀ c ∈ s.indent, isBlank c = true
  code : TypeSyntax.IsFlat (s.gap ++ s.heading.text)
  literal : Untyped.isString (s.opening :: (s.specifier ++ [s.closing])) = true
  line : '\n' ∉ s.tail
  tail : ∀ c ∈ (trimStart s.tail).head?, c = ';'

end Script.Statement

namespace TypeSyntax

variable {a h p r t u v w x : Text} {n : Nat} {s : Statement}

/-! ## Outside of types -/

/-- Removes declarations and the types of signatures. -/
def eraseDeclaredTypes (code : Text) : Text := eraseSignatures (eraseDeclarations code)

/-- Nothing that is read in a text as a declaration, a literal, a comment, a signature or a
dependency statement reaches over the beginning of its suffix `r`, and no declaration begins in the
first `n` characters of the suffix. -/
structure IsOutside (n : Nat) (t r : Text) : Prop where
  interfaces : interfaceDeclaration.Clears n t r
  aliases : aliasDeclaration.Clears n (interfaceDeclaration.erase t) (interfaceDeclaration.erase r)
  signatures : scansTo (eraseDeclarations r).length [] [] (eraseDeclarations t) = true
  dependencies : dependency.Clears 0 (eraseDeclaredTypes t) (eraseDeclaredTypes r)

instance (n : Nat) (t r : Text) : Decidable (IsOutside n t r) :=
  decidable_of_iff (interfaceDeclaration.Clears n t r ∧
      aliasDeclaration.Clears n (interfaceDeclaration.erase t) (interfaceDeclaration.erase r) ∧
      scansTo (eraseDeclarations r).length [] [] (eraseDeclarations t) = true ∧
      dependency.Clears 0 (eraseDeclaredTypes t) (eraseDeclaredTypes r))
    ⟨fun ⟨h₁, h₂, h₃, h₄⟩ ↦ ⟨h₁, h₂, h₃, h₄⟩, fun ⟨h₁, h₂, h₃, h₄⟩ ↦ ⟨h₁, h₂, h₃, h₄⟩⟩

theorem suffix_of_map {f : Text → Option Text} {b : Unit}
    (hf : ∀ {t r}, f t = some r → r <:+ t ∧ r.length < t.length)
    (h : (f t).map ((), ·) = some (b, r)) : r <:+ t ∧ r.length < t.length := by
  obtain ⟨u, hu, he⟩ := Option.map_eq_some_iff.mp h
  cases he
  exact hf hu

theorem isLinewise_interfaceDeclaration : interfaceDeclaration.IsLinewise :=
  ⟨_, suffix_of_map interface?_suffix, rfl⟩

theorem isLinewise_aliasDeclaration : aliasDeclaration.IsLinewise :=
  ⟨_, suffix_of_map alias?_suffix, rfl⟩

theorem eq_nil_of_length_append_le (h : (w ++ (x ++ v)).length ≤ (w ++ (x ++ u)).length)
    (hu : u = []) : v = [] := by
  subst hu
  simp only [List.length_append, List.length_nil] at h
  exact List.eq_nil_of_length_eq_zero (by omega)

/-- **A statement outside of types** stays when declarations and the types of signatures are
removed, a line still begins with it, and what follows it is treated as if it stood alone. -/
theorem IsOutside.exists_eraseDeclaredTypes
    (h : IsOutside w.length (a ++ (w ++ (x ++ u))) (w ++ (x ++ u)))
    (ha : Marker.beginsLine a.getLast? = true) (hw : IsFlat w)
    (hquote : ∃ q ∈ w.getLast?, isQuote q = true) (hx : ∀ c ∈ x, isCloser c = true)
    (hends : ';' ∈ x ∨ '\n' ∈ x ∨ u = []) (hline : '\n' ∉ x.dropLast) :
    ∃ p v, eraseDeclaredTypes (a ++ (w ++ (x ++ u))) = p ++ (w ++ (x ++ v)) ∧
      eraseDeclaredTypes (w ++ (x ++ u)) = w ++ (x ++ v) ∧
      Marker.beginsLine p.getLast? = true ∧ (u = [] → v = []) := by
  have hlast : Marker.beginsLine w.getLast? = false := by
    obtain ⟨q, hlast, hq⟩ := hquote
    rw [Option.mem_def.mp hlast, Marker.beginsLine, Option.all_some, beq_eq_false_iff_ne]
    rintro rfl
    cases hq
  obtain ⟨hinterfaces, haliases, hsignatures, -⟩ := h
  obtain ⟨a₁, u₁, ht₁, hr₁, ha₁⟩ :=
    hinterfaces.exists_erase_line isLinewise_interfaceDeclaration ha hlast hline
  rw [ht₁, hr₁] at haliases
  obtain ⟨a₂, u₂, ht₂, hr₂, ha₂⟩ :=
    haliases.exists_erase_line isLinewise_aliasDeclaration ha₁ hlast hline
  have ht : eraseDeclarations (a ++ (w ++ (x ++ u))) = a₂ ++ (w ++ (x ++ u₂)) := by
    rw [eraseDeclarations, ht₁, ht₂]
  have hr : eraseDeclarations (w ++ (x ++ u)) = w ++ (x ++ u₂) := by
    rw [eraseDeclarations, hr₁, hr₂]
  rw [ht, hr] at hsignatures
  have hnil : u = [] → u₂ = [] := eq_nil_of_length_append_le (hr ▸ length_eraseDeclarations_le _)
  obtain ⟨out, kept, hout, hbegins⟩ := arrivesAt_of_scansTo (d := none) hsignatures fun _ ↦ rfl
  obtain ⟨v, hv⟩ := hw.exists_eraseSignaturesFrom hquote hx
    (hends.imp_right (Or.imp_right hnil))
  have hstand : eraseDeclaredTypes (w ++ (x ++ u)) = w ++ (x ++ v) := by
    rw [eraseDeclaredTypes, hr, eraseSignatures, hv]
    rfl
  refine ⟨out ++ kept.reverse, v, ?_, hstand, ?_, fun hu ↦ ?_⟩
  · rw [eraseDeclaredTypes, ht, eraseSignatures, hout, hv, List.append_assoc]
  · rw [Option.or_none] at hbegins
    exact hbegins (by rwa [List.head?_nil, Option.or_none])
  · refine eq_nil_of_length_append_le (w := w) (x := x) (u := u₂) ?_ (hnil hu)
    have hle := length_eraseSignaturesFrom_le [] [] (w ++ (x ++ u₂))
    rwa [hv [] [], List.length_nil, Nat.zero_add] at hle

/-! ## Outside of annotations and assertions -/

/-- A marker that finds nothing at the beginning of a text finds nothing there behind a character
either. -/
theorem passes_of_none {α : Type} {m : Marker α} (b : Option Char)
    (hm : ∀ t, m.find? none t = none → m.find? b t = none) (h : m.Passes none w r) :
    m.Passes b w r := by
  intro x y hxy hy
  have hfind := h x y hxy hy
  rcases List.eq_nil_or_concat x with rfl | ⟨x, c, rfl⟩
  · exact hm _ hfind
  · rwa [List.concat_eq_append, List.getLast?_concat] at hfind ⊢

theorem find?_annotatedVariable_of_none (b : Option Char) (t : Text)
    (h : annotatedVariable.find? none t = none) : annotatedVariable.find? b t = none := by
  have hnone : annotatedVariable? t = none := h
  exact ite_eq_left_iff.mpr fun _ ↦ hnone

theorem find?_assertion_of_none (b : Option Char) (t : Text) (h : assertion.find? none t = none) :
    assertion.find? b t = none := by
  cases t with
  | nil => rfl
  | cons c t =>
    have h : (if endsOperand c then (assertion? t).map ([c], ·)
      else (assertion? (c :: t)).map ([], ·)) = none := h
    show (if endsOperand c then (assertion? t).map ([c], ·)
      else if b.isNone then (assertion? (c :: t)).map ([], ·) else none) = none
    split at h <;> simp_all

/-- Text that a pass leaves as it is stays behind a place that no part reaches over. -/
theorem exists_replace_append {m : Marker Text}
    (hm : ∀ b t, m.find? none t = none → m.find? b t = none)
    (hlt : ∀ b t a r, m.find? b t = some (a, r) → a.length + r.length < t.length)
    (hclear : m.Clears 0 (w ++ h) h) (hh : m.replace id h = h) :
    ∃ w', m.replace id (w ++ h) = w' ++ h := by
  obtain ⟨front, hfront, -⟩ := hclear.exists_reaches
  have hpass := passes_of_none _ (hm w.getLast?) (Marker.passes_of_replace_eq (f := id) hlt hh)
  refine ⟨front.substitute fun p ↦ p.value, ?_⟩
  rw [Marker.replace, Marker.cut, hfront.cutFrom_append, Option.or_none, Cut.substitute_append,
    hpass.substitute_eq]
  rfl

theorem exists_eraseAssertions_append
    (hclear : ∀ n ≤ (w ++ h).length, assertion.Clears 0 (eraseAssertionsOnce^[n] (w ++ h)) h)
    (hh : eraseAssertionsOnce h = h) : ∃ w', eraseAssertions (w ++ h) = w' ++ h := by
  induction hn : w.length using Nat.strongRecOn generalizing w with
  | ind n ih =>
    subst hn
    obtain ⟨w', honce⟩ : ∃ w', eraseAssertionsOnce (w ++ h) = w' ++ h :=
      exists_replace_append find?_assertion_of_none (fun _ _ _ _ ↦ length_find?_assertion_lt)
        (hclear 0 (Nat.zero_le _)) hh
    rw [eraseAssertions, honce]
    split
    · rename_i hlt
      refine ih w'.length (by simpa using hlt) (fun n hle ↦ ?_) rfl
      have hnext := hclear (n + 1) (by omega)
      rwa [Function.iterate_succ_apply, honce] at hnext
    · exact ⟨w, rfl⟩

/-- **Code that the expression passes leave as it is** stays behind a place that nothing reaches
over. -/
theorem exists_eraseFromStretch_append (hannotations : annotatedVariable.Clears 0 (w ++ h) h)
    (hassertions : ∀ n ≤ (w ++ h).length,
      assertion.Clears 0 (eraseAssertionsOnce^[n] (eraseAnnotations (w ++ h))) h)
    (hh : eraseFromStretch h = h) : ∃ w', eraseFromStretch (w ++ h) = w' ++ h := by
  obtain ⟨hvariable, hassertion⟩ :=
    Shrinks.eq_of_comp shrinks_eraseAssertions shrinks_eraseAnnotations hh
  obtain ⟨w', hw'⟩ : ∃ w', eraseAnnotations (w ++ h) = w' ++ h :=
    exists_replace_append find?_annotatedVariable_of_none
      (fun _ _ _ _ ↦ length_find?_annotatedVariable_lt) hannotations hvariable
  have hle := shrinks_eraseAnnotations.length_le (w ++ h)
  rw [eraseFromStretch, hw']
  rw [hw'] at hassertions hle
  exact exists_eraseAssertions_append (fun n hn ↦ hassertions n (hn.trans hle))
    (eraseAssertionsOnce_of_eq hassertion)

/-- A literal or comment is found in the same way behind every character. -/
theorem cutFrom_inert (b : Option Char) (t : Text) : inert.cutFrom b t = inert.cut t := by
  rw [Marker.cut]
  cases t with
  | nil => rw [Marker.cutFrom_nil, Marker.cutFrom_nil]
  | cons c t =>
    cases hfind : inert.find? none (c :: t) with
    | none =>
      have hfind' : inert.find? b (c :: t) = none := hfind
      rw [Marker.cutFrom_of_none _ hfind, Marker.cutFrom_of_none _ hfind']
    | some q =>
      have hfind' : inert.find? b (c :: t) = some q := hfind
      rw [Marker.cutFrom_of_some _ hfind, Marker.cutFrom_of_some _ hfind']

/-- What follows a closed text is cut as if it stood alone. -/
theorem IsLexed.cut_append (h : IsLexed w) (r : Text) :
    inert.cut (w ++ r) = (inert.cut w).append (inert.cut r) := by
  rw [Marker.cut, Marker.cut]
  generalize (none : Option Char) = b
  induction h generalizing b with
  | nil => rw [Marker.cutFrom_nil, List.nil_append, cutFrom_inert]; rfl
  | @code c w hc _ ih =>
    have hnone : inert.find? b (c :: (w ++ r)) = none := hc r
    have hnone' : inert.find? b (c :: w) = none := by
      have hnil := hc []
      rwa [List.append_nil] at hnil
    rw [List.cons_append, Marker.cutFrom_of_none _ hnone, Marker.cutFrom_of_none _ hnone', ih,
      Cut.push_append]
  | @literal l w hl _ ih =>
    have hsome : inert.find? b (l ++ (w ++ r)) = some (l, w ++ r) := hl r
    have hsome' : inert.find? b (l ++ w) = some (l, w) := by
      have hnil := hl []
      rwa [List.append_nil] at hnil
    rw [List.append_assoc, Marker.cutFrom_of_some _ hsome, Marker.cutFrom_of_some _ hsome',
      Marker.consumed_left, Marker.consumed_left, ih, Cut.mark_append]

/-- In a stretch `t` of text nothing that is read as a literal or a comment reaches over the
beginning of its suffix `r`, and in the code that leads to the first code of the suffix no
annotation and, in no round, an assertion reaches over the beginning of that code. -/
structure ClearsExpressions (t r : Text) : Prop where
  literals : inert.Clears 0 t r
  annotations : ∀ v ∈ (inert.cut t).stretches, (inert.cut r).first <:+ v →
    annotatedVariable.Clears 0 v (inert.cut r).first
  assertions : ∀ v ∈ (inert.cut t).stretches, (inert.cut r).first <:+ v → ∀ n ≤ v.length,
    assertion.Clears 0 (eraseAssertionsOnce^[n] (eraseAnnotations v)) (inert.cut r).first

instance (t r : Text) : Decidable (ClearsExpressions t r) :=
  decidable_of_iff (inert.Clears 0 t r ∧
      (∀ v ∈ (inert.cut t).stretches, (inert.cut r).first <:+ v →
        annotatedVariable.Clears 0 v (inert.cut r).first) ∧
      ∀ v ∈ (inert.cut t).stretches, (inert.cut r).first <:+ v → ∀ n ≤ v.length,
        assertion.Clears 0 (eraseAssertionsOnce^[n] (eraseAnnotations v)) (inert.cut r).first)
    ⟨fun ⟨h₁, h₂, h₃⟩ ↦ ⟨h₁, h₂, h₃⟩, fun ⟨h₁, h₂, h₃⟩ ↦ ⟨h₁, h₂, h₃⟩⟩

theorem eraseFromStretch_nil : eraseFromStretch [] = [] := by decide +kernel

/-- **Text that ends in a literal** and stays as it is stays behind a place that nothing reaches
over. -/
theorem ClearsExpressions.exists_eraseExpressionTypes {l : Text}
    (hclear : ClearsExpressions (w ++ (v ++ (l ++ r))) (v ++ (l ++ r))) (hv : IsLexed v)
    (hl : ∀ r, inert? (l ++ r) = some (l, r)) (hkept : eraseExpressionTypes (v ++ l) = v ++ l) :
    ∃ front back, eraseExpressionTypes (w ++ (v ++ (l ++ r))) = front ++ (v ++ l) ++ back := by
  have hmark (r : Text) : inert.cut (l ++ r) = (inert.cut r).mark ⟨l, l⟩ := by
    have hsome : inert.find? none (l ++ r) = some (l, r) := hl r
    rw [Marker.cut, Marker.cutFrom_of_some _ hsome, Marker.consumed_left, cutFrom_inert]
  have hcut (r : Text) : inert.cut (v ++ (l ++ r)) =
      (inert.cut v).append ((inert.cut r).mark ⟨l, l⟩) := by
    rw [hv.cut_append, hmark]
  have hfirst : (inert.cut (v ++ (l ++ r))).first = (inert.cut v).first := by
    rw [hcut, Cut.first_append_mark]
  -- The text in front of the literal stays as it is on its own.
  have hsame : (inert.cut v).render eraseFromStretch Part.lexeme = v := by
    have hrender : (inert.cut (v ++ (l ++ []))).render eraseFromStretch Part.lexeme = v ++ l := by
      rw [List.append_nil]
      exact hkept
    have hnil : (inert.cut []).render eraseFromStretch Part.lexeme = [] := by
      rw [Marker.cut, Marker.cutFrom_nil]
      exact (List.append_nil _).trans eraseFromStretch_nil
    rw [hcut, Cut.render_append_mark, hnil, List.append_nil] at hrender
    exact List.append_cancel_right hrender
  have hstretch : eraseFromStretch (inert.cut v).first = (inert.cut v).first := by
    refine Cut.eq_of_render_eq (shrinks_eraseAssertions.comp shrinks_eraseAnnotations) ?_
    rw [Marker.cut, inert.substitute_lexeme_cutFrom]
    exact hsame
  obtain ⟨out, x, hout, hmem⟩ := hclear.literals.exists_render_append (cutFrom_inert _ _)
    eraseFromStretch Part.lexeme
  have hannotations := hclear.annotations _ hmem (List.suffix_append _ _)
  have hassertions := hclear.assertions _ hmem (List.suffix_append _ _)
  rw [hfirst] at hannotations hassertions
  obtain ⟨x', hx'⟩ := exists_eraseFromStretch_append hannotations hassertions hstretch
  have hfront : ((inert.cut v).prepend x).render eraseFromStretch Part.lexeme = x' ++ v := by
    have hrest := hsame
    rw [Cut.render, hstretch] at hrest
    rw [Cut.render, Cut.prepend, hx', List.append_assoc, hrest]
  refine ⟨out ++ x', (inert.cut r).render eraseFromStretch Part.lexeme, ?_⟩
  have hwhole : eraseExpressionTypes (w ++ (v ++ (l ++ r))) =
      out ++ ((inert.cut (v ++ (l ++ r))).prepend x).render eraseFromStretch Part.lexeme := hout
  rw [hwhole, hcut, Cut.append_prepend, Cut.render_append_mark, hfront]
  simp only [List.append_assoc]

/-! ## Statements -/

/-- The text `w` at the beginning of `r` belongs to no dependency statement that is found there, has
no annotation and no assertion of its own, and none that is found in front of it in `t` reaches
into it. -/
structure IsUnasserted (w t r : Text) : Prop where
  plain : w <+: (dependency.cut r).first
  kept : eraseExpressionTypes w = w
  clear : ∀ v ∈ (dependency.cut t).stretches, (dependency.cut r).first <:+ v →
    ClearsExpressions v (dependency.cut r).first

instance (w t r : Text) : Decidable (IsUnasserted w t r) :=
  decidable_of_iff (w <+: (dependency.cut r).first ∧ eraseExpressionTypes w = w ∧
      ∀ v ∈ (dependency.cut t).stretches, (dependency.cut r).first <:+ v →
        ClearsExpressions v (dependency.cut r).first)
    ⟨fun ⟨h₁, h₂, h₃⟩ ↦ ⟨h₁, h₂, h₃⟩, fun ⟨h₁, h₂, h₃⟩ ↦ ⟨h₁, h₂, h₃⟩⟩

theorem exists_closers {y z : Text} (hy : '\n' ∉ y) (htail : ∀ c ∈ (trimStart y).head?, c = ';')
    (hz : ∀ c ∈ z.head?, c = '\n') :
    ∃ x u, y ++ z = x ++ u ∧ (∀ c ∈ x, isCloser c = true) ∧ (';' ∈ x ∨ '\n' ∈ x ∨ u = []) ∧
      '\n' ∉ x.dropLast := by
  have hwhite : ∀ c ∈ y.takeWhile isWhite, isCloser c = true := fun c hc ↦ by
    rw [isCloser, List.mem_takeWhile_imp hc, Bool.true_or]
  have hline : '\n' ∉ y.takeWhile isWhite := fun h ↦ hy ((List.takeWhile_prefix _).subset h)
  have hsplit : y = y.takeWhile isWhite ++ trimStart y := List.takeWhile_append_dropWhile.symm
  cases hrest : trimStart y with
  | cons c y' =>
    rw [hrest] at htail hsplit
    obtain rfl : c = ';' := htail c rfl
    refine ⟨y.takeWhile isWhite ++ [';'], y' ++ z, ?_, ?_, .inl (by simp), by simpa⟩
    · conv_lhs => rw [hsplit]
      simp
    · exact List.forall_mem_append.mpr ⟨hwhite, by decide⟩
  | nil =>
    rw [hrest, List.append_nil] at hsplit
    rw [← hsplit] at hwhite
    cases z with
    | nil => exact ⟨y, [], rfl, hwhite, .inr (.inr rfl), fun h ↦ hy (List.mem_of_mem_dropLast h)⟩
    | cons d z =>
      obtain rfl : d = '\n' := hz d rfl
      refine ⟨y ++ ['\n'], z, by simp, ?_, .inr (.inl (by simp)), by simpa⟩
      exact List.forall_mem_append.mpr ⟨hwhite, by decide⟩

theorem isCloser_of_isClosing {y : Text} (h : IsClosing y) : ∀ c ∈ y, isCloser c = true := by
  obtain ⟨b, s, z, rfl, hb, hz, hs⟩ := exists_closing_split y
  have hblank {t : Text} (ht : ∀ c ∈ t, isBlank c = true) : ∀ c ∈ t, isCloser c = true :=
    fun c hc ↦ by rw [isCloser, isWhite_of_isBlank (ht c hc), Bool.true_or]
  refine List.forall_mem_append.mpr ⟨hblank hb, List.forall_mem_append.mpr ⟨?_, ?_⟩⟩
  · rcases hs with ⟨rfl, -⟩ | ⟨b', rfl, hb'⟩
    · exact fun _ hc ↦ absurd hc List.not_mem_nil
    · exact List.forall_mem_cons.mpr ⟨by decide, hblank hb'⟩
  · rcases (isClosing_iff hb hz hs).mp h with rfl | rfl
    · exact fun _ hc ↦ absurd hc List.not_mem_nil
    · decide

section Statement

variable {before after : Text} (hs : s.IsDelimited)

include hs

/-- The statement up to its specifier. -/
theorem isFlat_front :
    IsFlat (s.indent ++ (s.heading.keyword ++ (s.gap ++ s.heading.text))) := by
  have himport : IsFlat "import".toList := IsCode.isFlat (by decide) (by decide)
  have hexport : IsFlat "export".toList := IsCode.isFlat (by decide) (by decide)
  have hkeyword : IsFlat s.heading.keyword := by
    cases s.heading with
    | reexports => exact hexport
    | _ => exact himport
  have hindent : IsFlat s.indent := isFlat_of_isCloser fun c hc ↦ by
    rw [isCloser, isWhite_of_isBlank (hs.indent c hc), Bool.true_or]
  exact hindent.append (hkeyword.append hs.code)

theorem isFlat_indent_body : IsFlat (s.indent ++ s.body) := by
  have hflat := (isFlat_front hs).append (isFlat_of_isString hs.literal)
  simpa [Statement.body] using hflat

theorem getLast?_indent_body : ∃ q ∈ (s.indent ++ s.body).getLast?, isQuote q = true := by
  have hlast : (s.indent ++ s.body).getLast? =
      (s.opening :: (s.specifier ++ [s.closing])).getLast? := by
    rw [← List.getLast?_append_of_ne_nil
      (s.indent ++ (s.heading.keyword ++ (s.gap ++ s.heading.text))) (List.cons_ne_nil _ _)]
    simp [Statement.body]
  rw [hlast]
  rcases Untyped.getLast?_of_isString hs.literal with h | h
  · exact ⟨'"', h, by decide⟩
  · exact ⟨'\'', h, by decide⟩

/-- A statement that is read as a dependency statement is copied with its whole line. -/
theorem text_isInfix_of_isRead (hread : s.IsRead)
    (hbefore : Marker.beginsLine before.getLast? = true) (hafter : ∀ c ∈ after.head?, c = '\n')
    (hout : IsOutside (s.indent ++ s.body).length (before ++ (s.text ++ after)) (s.text ++ after)) :
    s.text <:+: eraseTypes (before ++ (s.text ++ after)) := by
  obtain ⟨e, u, rfl, he⟩ : ∃ e u, after = e ++ u ∧ (e = ['\n'] ∨ e = [] ∧ u = []) := by
    cases after with
    | nil => exact ⟨[], [], rfl, .inr ⟨rfl, rfl⟩⟩
    | cons c u => exact ⟨['\n'], u, by rw [hafter c rfl]; rfl, .inl rfl⟩
  have hclosers : ∀ c ∈ s.tail ++ e, isCloser c = true := by
    refine List.forall_mem_append.mpr ⟨isCloser_of_isClosing hread.tail.2, ?_⟩
    rcases he with rfl | ⟨rfl, -⟩ <;> decide
  have hends : ';' ∈ s.tail ++ e ∨ '\n' ∈ s.tail ++ e ∨ u = [] := by
    rcases he with rfl | ⟨-, hu⟩
    · exact .inr (.inl (by simp))
    · exact .inr (.inr hu)
  have hline : '\n' ∉ (s.tail ++ e).dropLast := by
    rcases he with rfl | ⟨rfl, -⟩
    · simpa using hs.line
    · rw [List.append_nil]
      exact fun h ↦ hs.line (List.mem_of_mem_dropLast h)
  have htext (u : Text) : s.text ++ (e ++ u) = s.indent ++ s.body ++ (s.tail ++ e ++ u) := by
    simp [Statement.text_eq_body]
  rw [htext u] at hout ⊢
  obtain ⟨p, v, ht, hr, hp, hnil⟩ := hout.exists_eraseDeclaredTypes hbefore (isFlat_indent_body hs)
    (getLast?_indent_body hs) hclosers hends hline
  have hdependencies := hout.dependencies
  rw [ht, hr, ← htext v] at hdependencies
  have hfind : dependency.find? none (s.text ++ (e ++ v)) = some (s.specifier, v) := by
    rw [dependency, Marker.find?_ofLine rfl]
    refine Statement.dependency?_text_append hread ?_
    rcases he with rfl | ⟨rfl, hu⟩
    · exact .inl rfl
    · exact .inr ⟨hnil hu, hnil hu⟩
  obtain ⟨out, x, hout', -⟩ := hdependencies.exists_render_append
    (Marker.cutFrom_ofLine_eq_cut hp _) eraseExpressionTypes Part.lexeme
  rw [eraseTypes, ← eraseDeclaredTypes, ht, ← htext v, hout', Marker.cut,
    Marker.cutFrom_of_some _ hfind, Cut.render_prepend_mark, ← List.append_assoc (s.text),
    Marker.consumed_left]
  refine ⟨out ++ eraseExpressionTypes x, ?_, ?_⟩
  · exact e ++ (dependency.cutFrom (s.text ++ e).getLast? v).render eraseExpressionTypes
      Part.lexeme
  · simp

/-- A statement in which nothing is read stays up to its specifier. -/
theorem isInfix_of_isUnasserted
    (hbefore : Marker.beginsLine before.getLast? = true) (hafter : ∀ c ∈ after.head?, c = '\n')
    (hout : IsOutside (s.indent ++ s.body).length (before ++ (s.text ++ after)) (s.text ++ after))
    (hkept : IsUnasserted (s.indent ++ s.body)
      (eraseDeclaredTypes (before ++ (s.text ++ after))) (eraseDeclaredTypes (s.text ++ after))) :
    s.indent ++ s.body <:+: eraseTypes (before ++ (s.text ++ after)) := by
  obtain ⟨x, u, hx, hclosers, hends, hline⟩ := exists_closers hs.line hs.tail hafter
  have htext : s.text ++ after = s.indent ++ s.body ++ (x ++ u) := by
    rw [Statement.text_eq_body, ← hx]
    simp only [List.append_assoc]
  rw [htext] at hout hkept ⊢
  obtain ⟨p, v, ht, hr, hp, -⟩ := hout.exists_eraseDeclaredTypes hbefore (isFlat_indent_body hs)
    (getLast?_indent_body hs) hclosers hends hline
  have hdependencies := hout.dependencies
  rw [ht, hr] at hdependencies hkept
  obtain ⟨out, y, hout', hmem⟩ := hdependencies.exists_render_append
    (Marker.cutFrom_ofLine_eq_cut hp _) eraseExpressionTypes Part.lexeme
  have hclear := hkept.clear _ hmem (List.suffix_append _ _)
  have hsame := hkept.kept
  obtain ⟨z, hz⟩ := hkept.plain
  have hsplit : s.indent ++ s.body = s.indent ++ (s.heading.keyword ++ (s.gap ++ s.heading.text)) ++
      s.opening :: (s.specifier ++ [s.closing]) := by simp [Statement.body]
  rw [← hz, hsplit, List.append_assoc] at hclear
  rw [hsplit] at hsame
  obtain ⟨front, back, hstretch⟩ := hclear.exists_eraseExpressionTypes (isFlat_front hs).isLexed
    (Untyped.inert?_append_of_isString hs.literal) hsame
  have hinfix : s.indent ++ s.body <:+:
      eraseExpressionTypes (y ++ (dependency.cut (s.indent ++ s.body ++ (x ++ v))).first) := by
    rw [← hz, hsplit, List.append_assoc _ _ z, hstretch]
    exact List.infix_append _ _ _
  rw [eraseTypes, ← eraseDeclaredTypes, ht, hout']
  exact hinfix.trans ((List.prefix_append _ _).isInfix.trans (List.suffix_append out _).isInfix)

end Statement

/-- **Package imports.** A statement that begins a line outside of types stays from its keyword to
the closing quote of its specifier, if it is read as a dependency statement or else if no assertion
is read in it. -/
theorem body_isInfix_eraseTypes (hs : s.IsDelimited) {before after : Text}
    (hbefore : Marker.beginsLine before.getLast? = true) (hafter : ∀ c ∈ after.head?, c = '\n')
    (hout : IsOutside (s.indent ++ s.body).length (before ++ (s.text ++ after)) (s.text ++ after))
    (hkept : s.IsRead ∨ IsUnasserted (s.indent ++ s.body)
      (eraseDeclaredTypes (before ++ (s.text ++ after))) (eraseDeclaredTypes (s.text ++ after))) :
    s.body <:+: eraseTypes (before ++ (s.text ++ after)) := by
  have hbody : s.body <:+: s.indent ++ s.body := (List.suffix_append _ _).isInfix
  rcases hkept with hread | hkept
  · refine List.IsInfix.trans ?_ (text_isInfix_of_isRead hs hread hbefore hafter hout)
    rw [Statement.text_eq_body]
    exact List.infix_append' _ _ _
  · exact hbody.trans (isInfix_of_isUnasserted hs hbefore hafter hout hkept)

/-- Typed code in front of an import. -/
def typedFront : Text :=
  "type Id = string;\nfunction id(a: Id): Id \x7b\n  return a as Id;\n\x7d\n".toList

/-- An import of names on lines of their own. -/
def listing : Statement where
  indent := []
  gap := [' ']
  heading :=
    .imports (.clause none (.binding (.names "\n  a as b,\n  type C,\n".toList)) [' '] [' '])
  opening := '"'
  specifier := "pkg".toList
  closing := '"'
  tail := [';']

/-- An import that another statement follows on its line. -/
def followed : Statement where
  indent := []
  gap := [' ']
  heading :=
    .imports (.clause none (.both ['d'] [] [' '] (.all [' '] [' '] "ns".toList)) [' '] [' '])
  opening := '"'
  specifier := "it's".toList
  closing := '"'
  tail := "; run(d as Id);".toList

theorem body_isInfix_eraseTypes_typed :
    listing.body <:+: eraseTypes (typedFront ++ (listing.text ++ ['\n'])) ∧
      followed.body <:+: eraseTypes (typedFront ++ (followed.text ++ ['\n'])) := by
  have hbefore : Marker.beginsLine typedFront.getLast? = true := by decide +kernel
  have hafter : ∀ c ∈ ['\n'].head?, c = '\n' := by simp
  refine ⟨body_isInfix_eraseTypes ?_ hbefore hafter (by decide +kernel)
      (.inl (by decide +kernel)),
    body_isInfix_eraseTypes ?_ hbefore hafter (by decide +kernel)
      (.inr (by decide +kernel))⟩
  · exact ⟨by decide, IsCode.isFlat (by decide) (by decide), by decide, by decide,
      fun _ hc ↦ Option.some.inj (hc.symm.trans rfl)⟩
  · exact ⟨by decide, IsCode.isFlat (by decide) (by decide), by decide, by decide,
      fun _ hc ↦ Option.some.inj (hc.symm.trans rfl)⟩

/-- An import that a comment follows on its line. -/
def commented : Statement where
  indent := []
  gap := [' ']
  heading := .imports (.clause none (.binding (.names " a as b ".toList)) [' '] [' '])
  opening := '"'
  specifier := "pkg".toList
  closing := '"'
  tail := "; // note".toList

/-- An import that does not end its line loses what reads like an assertion in its clause. -/
theorem not_forall_import_kept :
    ¬∀ (s : Statement) (before after : Text), s.IsDelimited →
      Marker.beginsLine before.getLast? = true → (∀ c ∈ after.head?, c = '\n') →
      IsOutside (s.indent ++ s.body).length (before ++ (s.text ++ after)) (s.text ++ after) →
      s.body <:+: eraseTypes (before ++ (s.text ++ after)) := by
  intro h
  have hdelimited : commented.IsDelimited :=
    ⟨by decide, IsCode.isFlat (by decide) (by decide), by decide, by decide,
      fun _ hc ↦ Option.some.inj (hc.symm.trans rfl)⟩
  have hcommented := h commented [] ['\n'] hdelimited rfl (by simp) (by decide +kernel)
  exact absurd hcommented (by decide +kernel)

end TypeSyntax

end PluginPack
