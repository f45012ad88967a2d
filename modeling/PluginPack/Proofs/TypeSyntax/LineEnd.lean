import PluginPack.Proofs.TypeSyntax.LineEnd.Signature

/-!
# Type erasure and line ends

A script with other line ends is erased alike, up to the carriage returns. In two ways the line ends
make a difference. A backslash before a line end takes only the carriage return into its literal,
and the literal ends there; this is excluded. And a line comment, or a literal whose closing quote
is missing, takes the carriage return at the end of its line in: when an assertion on the next line
takes the newline away, the carriage return stays.
-/

namespace PluginPack

open Text Script

variable {α : Type} {P Q : Prop} {q : Part α × Text} {r t t' u u' w : Text}

/-! ## Texts with line ends of their own -/

namespace Text

/-- A text `u` that is `t` but for carriage returns. If `P` holds these are in front of the newlines
and nowhere else, and otherwise they are too many. -/
structure Respells (P : Prop) (u t : Text) : Prop where
  filter : u.filter (· ≠ '\r') = t
  eq_crlf : P → u = crlf t
  stray : ¬P → t.count '\n' < u.count '\r'

theorem Respells.not_mem (h : Respells P u t) : '\r' ∉ t := by
  rw [← h.filter]
  simp

theorem respells_crlf (h : '\r' ∉ t) : Respells True (crlf t) t :=
  ⟨filter_crlf h, fun _ ↦ rfl, fun hfalse ↦ absurd trivial hfalse⟩

/-- A carriage return that no newline follows is one too many. -/
theorem respells_stray (ht : '\r' ∉ t) (hu : '\r' ∉ u) :
    Respells False (crlf t ++ ['\r'] ++ crlf u) (t ++ u) where
  filter := by
    rw [List.filter_append, List.filter_append, filter_crlf ht, filter_crlf hu]
    simp
  eq_crlf h := h.elim
  stray _ := by
    simp only [List.count_append, count_return_crlf ht, count_return_crlf hu,
      List.count_singleton_self]
    omega

theorem Respells.congr (h : Respells P u t) (hiff : P ↔ Q) : Respells Q u t :=
  ⟨h.filter, fun hq ↦ h.eq_crlf (hiff.mpr hq), fun hq ↦ h.stray (mt hiff.mp hq)⟩

theorem Respells.eq_crlf_iff (h : Respells P u t) : u = crlf t ↔ P := by
  refine ⟨fun hu ↦ by_contra fun hp ↦ ?_, h.eq_crlf⟩
  have hlt := h.stray hp
  rw [hu, count_return_crlf h.not_mem] at hlt
  exact absurd hlt (Nat.lt_irrefl _)

theorem Respells.count_le (h : Respells P u t) : t.count '\n' ≤ u.count '\r' := by
  by_cases hp : P
  · rw [h.eq_crlf hp, count_return_crlf h.not_mem]
  · exact (h.stray hp).le

theorem Respells.append (h : Respells P u t) (h' : Respells Q u' t') :
    Respells (P ∧ Q) (u ++ u') (t ++ t') where
  filter := by rw [List.filter_append, h.filter, h'.filter]
  eq_crlf := fun ⟨hp, hq⟩ ↦ by rw [h.eq_crlf hp, h'.eq_crlf hq, crlf_append]
  stray hpq := by
    rw [List.count_append, List.count_append]
    have hle := h.count_le
    have hle' := h'.count_le
    by_cases hp : P
    · have hlt := h'.stray fun hq ↦ hpq ⟨hp, hq⟩
      omega
    · have hlt := h.stray hp
      omega

/-- A text put together from pieces is right exactly when all its pieces are. -/
theorem respells_flatMap {l : List α} {f g : α → Text} {p : α → Prop}
    (h : ∀ a ∈ l, Respells (p a) (f a) (g a)) :
    Respells (∀ a ∈ l, p a) (l.flatMap f) (l.flatMap g) := by
  induction l with
  | nil => exact (respells_crlf (t := []) (by simp)).congr (by simp)
  | cons a l ih =>
    rw [List.flatMap_cons, List.flatMap_cons]
    refine ((h a List.mem_cons_self).append
      (ih fun b hb ↦ h b (List.mem_cons_of_mem a hb))).congr ?_
    rw [List.forall_mem_cons]

end Text

/-! ## Literals and comments of a text -/

namespace Script

/-- A literal or comment with the code behind it, in the text with other line ends. -/
def stretchCrlf (q : Part Text × Text) : Part Text × Text :=
  let p := inertCrlf (q.1.lexeme, q.2)
  (⟨p.1, p.1⟩, p.2)

theorem cutFrom_inert_of_some {l : Text} (hl : inert? t = some (l, r)) (b : Option Char) :
    inert.cutFrom b t = (inert.cutFrom l.getLast? r).mark ⟨l, l⟩ := by
  have hfind : inert.find? b t = some (l, r) := hl
  obtain rfl := inert?_append hl
  rw [Marker.cutFrom_of_some _ hfind, Marker.consumed_left]

theorem cutFrom_inert_cons {c : Char} (hnone : inert? (c :: t) = none) (b : Option Char) :
    inert.cutFrom b (c :: t) = (inert.cutFrom (some c) t).push c :=
  Marker.cutFrom_of_none _ hnone

theorem head?_first_inert (b : Option Char) (t : Text) :
    (inert.cutFrom b t).first.head? = some '\n' ↔ t.head? = some '\n' := by
  cases t with
  | nil => rw [Marker.cutFrom_nil]; rfl
  | cons c t =>
    cases hl : inert? (c :: t) with
    | none => rw [cutFrom_inert_cons hl]; rfl
    | some q =>
      rw [cutFrom_inert_of_some hl]
      refine iff_of_false (fun h ↦ by cases h) fun hc ↦ ?_
      rw [Option.some.inj hc, inert?_eq_none (by decide) (by decide)] at hl
      cases hl

theorem cutFrom_inert_congr (b b' : Option Char) (t : Text) :
    inert.cutFrom b t = inert.cutFrom b' t := by
  cases t with
  | nil => rw [Marker.cutFrom_nil, Marker.cutFrom_nil]
  | cons c t =>
    cases hl : inert? (c :: t) with
    | none => rw [cutFrom_inert_cons hl, cutFrom_inert_cons hl]
    | some q => rw [cutFrom_inert_of_some hl, cutFrom_inert_of_some hl]

/-- A carriage return in front of a newline belongs to no literal and no comment. -/
theorem cutFrom_inert_crlfRest {b : Option Char} {first : Text} {rest : List (Part Text × Text)}
    (hfirst : first.head? = some '\n' ↔ t.head? = some '\n')
    (h : inert.cutFrom b (crlf t) = ⟨crlf first, rest⟩) (b' : Option Char) :
    inert.cutFrom b' (crlfRest t) = ⟨crlfRest first, rest⟩ := by
  by_cases ht : t.head? = some '\n'
  · obtain ⟨v, rfl⟩ := List.head?_eq_some_iff.mp (hfirst.mpr ht)
    obtain ⟨u, rfl⟩ := List.head?_eq_some_iff.mp ht
    rw [crlf_newline, cutFrom_inert_cons (inert?_return _), crlf_newline] at h
    rw [crlfRest_newline, crlfRest_newline, cutFrom_inert_congr b' (some '\r')]
    obtain ⟨hpush, hrest⟩ := Cut.mk.inj h
    exact congrArg₂ Cut.mk (List.cons.inj hpush).2 hrest
  · rw [crlfRest_eq ht, crlfRest_eq (mt hfirst.mp ht), cutFrom_inert_congr b' b, h]

/-- Literals, comments and stretches of code are the same in a text with other line ends. -/
theorem cutFrom_inert_crlf (h : IsUnbroken t) (b b' : Option Char) :
    inert.cutFrom b (crlf t) =
      ⟨crlf (inert.cutFrom b' t).first, (inert.cutFrom b' t).rest.map stretchCrlf⟩ := by
  induction hn : t.length using Nat.strongRecOn generalizing b b' t with
  | ind n ih =>
    subst hn
    cases t with
    | nil =>
      rw [crlf_nil, Marker.cutFrom_nil, Marker.cutFrom_nil]
      rfl
    | cons c t =>
      have hcrlf := inert?_crlf (h _ (List.suffix_refl _))
      cases hl : inert? (c :: t) with
      | none =>
        rw [hl] at hcrlf
        have htail (b : Option Char) := ih t.length (Nat.lt_succ_self _)
          (h.of_suffix (List.suffix_cons c t)) b (some c) rfl
        rw [cutFrom_inert_cons hl]
        by_cases hc : c = '\n'
        · subst hc
          rw [crlf_newline, cutFrom_inert_cons (inert?_return _),
            cutFrom_inert_cons (inert?_eq_none (by decide) (by decide) _), htail]
          rfl
        · rw [crlf_cons hc] at hcrlf ⊢
          rw [cutFrom_inert_cons hcrlf, htail, Cut.push, Cut.push, crlf_cons hc]
      | some q =>
        obtain ⟨l, r⟩ := q
        rw [hl, Option.map_some] at hcrlf
        have hrest := ih r.length (inert?_length_lt hl) (h.of_suffix ⟨l, inert?_append hl⟩) none
          l.getLast? rfl
        have hfirst := head?_first_inert l.getLast? r
        by_cases hopen : IsOpen l
        · have hlit (x : Text) : inertCrlf (l, x) = (crlf l ++ returnBefore x, crlfRest x) :=
            if_pos hopen
          have hreturn : returnBefore (inert.cutFrom l.getLast? r).first = returnBefore r := by
            simp only [returnBefore, hfirst]
          rw [hlit] at hcrlf
          rw [cutFrom_inert_of_some hl, cutFrom_inert_of_some hcrlf,
            cutFrom_inert_crlfRest hfirst hrest, Cut.mark, Cut.mark, List.map_cons, stretchCrlf,
            hlit, hreturn]
          rfl
        · have hlit (x : Text) : inertCrlf (l, x) = (crlf l, crlf x) := if_neg hopen
          rw [hlit] at hcrlf
          rw [cutFrom_inert_of_some hl, cutFrom_inert_of_some hcrlf, cutFrom_inert_congr _ none,
            hrest, Cut.mark, Cut.mark, List.map_cons, stretchCrlf, hlit]
          rfl

end Script

/-! ## Stretches -/

namespace Cut

variable {k : Cut (Part α)}

theorem first_isInfix (k : Cut (Part α)) : k.first <:+: k.substitute Part.lexeme :=
  (List.prefix_append _ _).isInfix

theorem append_isInfix (h : q ∈ k.rest) : q.1.lexeme ++ q.2 <:+: k.substitute Part.lexeme := by
  obtain ⟨a, b, hrest⟩ := List.append_of_mem h
  refine ⟨k.first ++ a.flatMap fun q ↦ q.1.lexeme ++ q.2, b.flatMap fun q ↦ q.1.lexeme ++ q.2, ?_⟩
  simp [substitute, render, hrest]

/-- What is written of a cut respells what is written of another, piece by piece. -/
theorem respells_render {f f' : Text → Text} {part : Part α × Text → Part α × Text}
    {p : Part α × Text → Prop} {first : Text} (hfirst : Respells P (f' first) (f k.first))
    (hrest : ∀ q ∈ k.rest,
      Respells (p q) ((part q).1.lexeme ++ f' (part q).2) (q.1.lexeme ++ f q.2)) :
    Respells (P ∧ ∀ q ∈ k.rest, p q) (render f' Part.lexeme ⟨first, k.rest.map part⟩)
      (k.render f Part.lexeme) := by
  rw [render, render, List.flatMap_map]
  exact hfirst.append (respells_flatMap hrest)

end Cut

namespace TypeSyntax

/-- Behind a literal or comment that is left open at the end of its line, no assertion takes the
line end away. -/
def KeepsLineEnd (q : Part Text × Text) : Prop :=
  IsOpen q.1.lexeme → q.2.head? = some '\n' → ¬BeginsAsserted (eraseAnnotations q.2)

theorem respells_stretch {q : Part Text × Text} (hl : '\r' ∉ q.1.lexeme) (hy : '\r' ∉ q.2) :
    Respells (KeepsLineEnd q) ((stretchCrlf q).1.lexeme ++ eraseFromStretch (stretchCrlf q).2)
      (q.1.lexeme ++ eraseFromStretch q.2) := by
  obtain ⟨⟨l, v⟩, y⟩ := q
  have hleft : '\r' ∉ eraseFromStretch y := fun hmem ↦ hy (eraseFromStretch_subset y hmem)
  have hwhole : '\r' ∉ l ++ eraseFromStretch y := by
    rw [List.mem_append, not_or]
    exact ⟨hl, hleft⟩
  by_cases hopen : IsOpen l ∧ y.head? = some '\n'
  · obtain ⟨hopen, hline⟩ := hopen
    obtain ⟨z, rfl⟩ := List.head?_eq_some_iff.mp hline
    have hstretch : stretchCrlf (⟨l, v⟩, '\n' :: z) =
        (⟨crlf l ++ ['\r'], crlf l ++ ['\r']⟩, '\n' :: crlf z) := by
      simp [stretchCrlf, inertCrlf, hopen]
    obtain ⟨hbegins, hnot⟩ :=
      eraseFromStretch_newline_crlf fun hmem ↦ hy (List.mem_cons_of_mem _ hmem)
    rw [hstretch]
    by_cases hb : BeginsAsserted (eraseAnnotations ('\n' :: z))
    · rw [hbegins hb]
      exact (respells_stray hl hleft).congr (iff_of_false id fun h ↦ h hopen rfl hb)
    · rw [List.append_assoc, List.singleton_append, hnot hb, ← crlf_append]
      exact (respells_crlf hwhole).congr (iff_of_true trivial fun _ _ ↦ hb)
  · have hstretch : stretchCrlf (⟨l, v⟩, y) = (⟨crlf l, crlf l⟩, crlf y) := by
      by_cases hl : IsOpen l
      · have hline : y.head? ≠ some '\n' := fun hline ↦ hopen ⟨hl, hline⟩
        simp [stretchCrlf, inertCrlf, hl, returnBefore_eq_nil hline, crlfRest_eq hline]
      · simp [stretchCrlf, inertCrlf, hl]
    rw [hstretch, eraseFromStretch_crlf hy, ← crlf_append]
    exact (respells_crlf hwhole).congr (iff_of_true trivial fun hl hline ↦ absurd ⟨hl, hline⟩ hopen)

/-- **Annotations and assertions of a text with other line ends.** -/
theorem respells_eraseExpressionTypes (h : '\r' ∉ t) (hunbroken : IsUnbroken t) :
    Respells (∀ q ∈ (inert.cut t).rest, KeepsLineEnd q) (eraseExpressionTypes (crlf t))
      (eraseExpressionTypes t) := by
  have hpiece : ∀ w, w <:+: (inert.cut t).substitute Part.lexeme → '\r' ∉ w := by
    intro w hw hmem
    rw [Marker.cut, Marker.substitute_lexeme_cutFrom] at hw
    exact h (hw.subset hmem)
  have hfirst := hpiece _ (inert.cut t).first_isInfix
  have hcut : inert.cut (crlf t) = ⟨crlf (inert.cut t).first, (inert.cut t).rest.map stretchCrlf⟩ :=
    cutFrom_inert_crlf hunbroken none none
  have hrender : Respells (True ∧ ∀ q ∈ (inert.cut t).rest, KeepsLineEnd q)
      ((inert.cut (crlf t)).render eraseFromStretch Part.lexeme)
      ((inert.cut t).render eraseFromStretch Part.lexeme) := by
    rw [hcut]
    refine Cut.respells_render ?_ fun q hq ↦ ?_
    · rw [eraseFromStretch_crlf hfirst]
      exact respells_crlf fun hmem ↦ hfirst (eraseFromStretch_subset _ hmem)
    · have hq := hpiece _ (Cut.append_isInfix hq)
      rw [List.mem_append, not_or] at hq
      exact respells_stretch hq.1 hq.2
  exact hrender.congr (iff_of_eq (true_and _))

/-! ## Scripts -/

/-- In no stretch between dependency statements does an assertion take away the line end of a line
comment or of a literal without its closing quote. -/
def KeepsLineEnds (t : Text) : Prop :=
  ∀ w ∈ (dependency.cut t).stretches, ∀ q ∈ (inert.cut w).rest, KeepsLineEnd q

theorem respells_eraseTypes (h : '\r' ∉ t) (hcode : IsUnbroken t)
    (hdeclared : IsUnbroken (eraseDeclaredTypes t)) :
    Respells (KeepsLineEnds (eraseDeclaredTypes t)) (eraseTypes (crlf t)) (eraseTypes t) := by
  have hreturn := not_mem_eraseDeclaredTypes h
  have herase : eraseTypes t = (dependency.cut (eraseDeclaredTypes t)).render eraseExpressionTypes
      Part.lexeme := rfl
  have hcrlf : eraseTypes (crlf t) =
      ((dependency.cut (eraseDeclaredTypes t)).crlf id).render eraseExpressionTypes
        Part.lexeme := by
    have hcut := isSteady_dependency.cutFrom_crlf (b := none) hreturn
    rw [← eraseDeclaredTypes_crlf h hcode] at hcut
    rw [Marker.cut, ← hcut]
    rfl
  generalize eraseDeclaredTypes t = s at *
  have hwhole : (dependency.cut s).substitute Part.lexeme = s :=
    Marker.substitute_lexeme_cutFrom dependency none s
  have hstretch : ∀ w, w <:+: s →
      Respells (∀ q ∈ (inert.cut w).rest, KeepsLineEnd q) (eraseExpressionTypes (crlf w))
        (eraseExpressionTypes w) := fun w hw ↦
    respells_eraseExpressionTypes (fun hmem ↦ hreturn (hw.subset hmem)) (hdeclared.of_infix hw)
  have hrest : ∀ q ∈ (dependency.cut s).rest, Respells (∀ p ∈ (inert.cut q.2).rest, KeepsLineEnd p)
      (crlf q.1.lexeme ++ eraseExpressionTypes (crlf q.2))
      (q.1.lexeme ++ eraseExpressionTypes q.2) := by
    intro q hq
    have hpiece : q.1.lexeme ++ q.2 <:+: s := hwhole ▸ Cut.append_isInfix hq
    have hlexeme : '\r' ∉ q.1.lexeme := fun hmem ↦
      hreturn (hpiece.subset (List.mem_append_left _ hmem))
    have hq := (respells_crlf hlexeme).append
      (hstretch q.2 ((List.suffix_append _ _).isInfix.trans hpiece))
    exact hq.congr (iff_of_eq (true_and _))
  have hfirst : (dependency.cut s).first <:+: s := by
    have hinfix := (dependency.cut s).first_isInfix
    rwa [hwhole] at hinfix
  have hrender : Respells ((∀ q ∈ (inert.cut (dependency.cut s).first).rest, KeepsLineEnd q) ∧
      ∀ q ∈ (dependency.cut s).rest, ∀ p ∈ (inert.cut q.2).rest, KeepsLineEnd p)
      (eraseTypes (crlf t)) (eraseTypes t) := by
    rw [hcrlf, herase]
    exact Cut.respells_render (hstretch _ hfirst) hrest
  refine hrender.congr ?_
  rw [KeepsLineEnds, Cut.stretches, List.forall_mem_cons, List.forall_mem_map]

/-- **Type erasure and line ends.** When no string literal goes on behind its line, a script with
other line ends is erased alike, up to the carriage returns. These come out with their newlines
exactly when no assertion takes away the line end of a line comment or of an unfinished literal. -/
theorem eraseTypes_crlf (h : '\r' ∉ t) (hcode : IsUnbroken t)
    (hdeclared : IsUnbroken (eraseDeclaredTypes t)) :
    (eraseTypes (crlf t)).filter (· ≠ '\r') = eraseTypes t ∧
      (eraseTypes (crlf t) = crlf (eraseTypes t) ↔ KeepsLineEnds (eraseDeclaredTypes t)) :=
  have hrespells := respells_eraseTypes h hcode hdeclared
  ⟨hrespells.filter, hrespells.eq_crlf_iff⟩

/-- A declaration, a signature, an annotation and an assertion, with a comment and a template
literal over the ends of their lines. -/
def annotated : Text :=
  "type A = B;\nconst f = (a: A): B => a as B; // b\nexport const t: T = \x60\n\x60 as U;\n".toList

/-- An assertion on the line after a line comment. -/
def wrapped : Text := "f(x) // y\n  as T;\n".toList

theorem eraseTypes_crlf_comment :
    (∀ t ∈ [annotated, wrapped],
        '\r' ∉ t ∧ IsUnbroken t ∧ IsUnbroken (eraseDeclaredTypes t) ∧
          (eraseTypes (crlf t)).filter (· ≠ '\r') = eraseTypes t) ∧
      KeepsLineEnds (eraseDeclaredTypes annotated) ∧
      ¬KeepsLineEnds (eraseDeclaredTypes wrapped) ∧
      eraseTypes (crlf wrapped) = "f(x) // y\r;\r\n".toList := by
  have hread : ∀ t ∈ [annotated, wrapped],
      '\r' ∉ t ∧ IsUnbroken t ∧ IsUnbroken (eraseDeclaredTypes t) := by decide +kernel
  have hannotated := hread annotated List.mem_cons_self
  have hwrapped := hread wrapped (by simp)
  refine ⟨fun t ht ↦ ?_, ?_, fun h ↦ ?_, by decide +kernel⟩
  · obtain ⟨h, hcode, hdeclared⟩ := hread t ht
    exact ⟨h, hcode, hdeclared, (eraseTypes_crlf h hcode hdeclared).1⟩
  · exact (eraseTypes_crlf hannotated.1 hannotated.2.1 hannotated.2.2).2.mp (by decide +kernel)
  · have hcrlf := (eraseTypes_crlf hwrapped.1 hwrapped.2.1 hwrapped.2.2).2.mpr h
    exact absurd hcrlf (by decide +kernel)

/-- A backslash that takes a newline into its literal does not take a carriage return and a newline
in, and what stands on the next line loses its types. -/
theorem not_forall_eraseTypes_crlf :
    ¬∀ t : Text, '\r' ∉ t → eraseTypes (crlf t) = crlf (eraseTypes t) := by
  intro h
  exact absurd (h "s = \"\\\nx as T\";\n".toList (by decide)) (by decide +kernel)

end TypeSyntax

end PluginPack
