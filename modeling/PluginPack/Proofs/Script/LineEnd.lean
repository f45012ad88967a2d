import PluginPack.Proofs.Script.KeptLiteral
import PluginPack.Proofs.Text.LineEnd
import PluginPack.Proofs.Untyped.Bracket

/-!
# Literals and line ends

A literal or comment that ends at the end of its line takes in the carriage return that is written
there, and one that is closed on its line does not. Otherwise literals and comments are found alike,
unless a backslash takes a newline into a string literal: with other line ends it takes the carriage
return, and the literal ends. Dependency statements, and what stands in brackets, are then found
alike.
-/

namespace PluginPack

open Text

namespace Script

variable {q c : Char} {d : Nat} {l r t u w x y : Text}

/-! ## String literals -/

/-- A string literal that begins with the quote `q` goes on behind the text. -/
def ReadsOver (q : Char) (x : Text) : Prop :=
  ∀ u, splitQuoted q (x ++ u) = (x ++ (splitQuoted q u).1, (splitQuoted q u).2)

/-- A character that begins no escape is no backslash. -/
theorem ne_backslash (hlast : c = '\\' → r = [] → False)
    (hescape : ∀ e s, c = '\\' → r = e :: s → False) : c ≠ '\\' := by
  rintro rfl
  cases r with
  | nil => exact hlast rfl rfl
  | cons e s => exact hescape e s rfl rfl

theorem ReadsOver.append (hx : ReadsOver q x) (hy : ReadsOver q y) : ReadsOver q (x ++ y) := by
  intro u
  rw [List.append_assoc, hx, hy, List.append_assoc]

theorem readsOver_char (hescape : c ≠ '\\') (hline : c = '\n' → q = '\x60') (hq : c ≠ q) :
    ReadsOver q [c] := by
  intro u
  rw [List.singleton_append, splitQuoted, if_neg fun h ↦ h.2 (hline h.1), if_neg hq]
  · rfl
  · exact fun h ↦ absurd h hescape
  · exact fun _ _ h ↦ absurd h hescape

theorem splitQuoted_newline (hq : q ≠ '\x60') (t : Text) :
    splitQuoted q ('\n' :: t) = ([], '\n' :: t) := by
  rw [splitQuoted, if_pos ⟨rfl, hq⟩]
  · exact fun h ↦ absurd h (by decide)
  · exact fun _ _ h ↦ absurd h (by decide)

theorem readsOver_escape (q c : Char) : ReadsOver q ['\\', c] := fun _ ↦ rfl

/-- How a literal that is read as `w`, with `r` behind it, is read in the text with other line ends:
either alike, and then it is closed or nothing follows, or it ends with its line and takes in the
carriage return. -/
def IsReadAlike (q : Char) (w r : Text) (p : Text × Text) : Prop :=
  (p = (crlf w, crlf r) ∧ (r = [] ∨ splitQuoted q (w ++ ['\r']) = (w, ['\r']))) ∨
    ∃ r', r = '\n' :: r' ∧ p = (crlf w ++ ['\r'], '\n' :: crlf r') ∧
      splitQuoted q (w ++ ['\r']) = (w ++ ['\r'], [])

theorem IsReadAlike.prepend (hx : ReadsOver q x) (hcrlf : ReadsOver q (crlf x))
    (h : IsReadAlike q w r (splitQuoted q (crlf t))) :
    IsReadAlike q (x ++ w) r (splitQuoted q (crlf (x ++ t))) := by
  rw [crlf_append, hcrlf]
  rcases h with ⟨hp, hclosed⟩ | ⟨r', hr, hp, hopen⟩
  · refine .inl ⟨by rw [hp, crlf_append], hclosed.imp_right fun hclosed ↦ ?_⟩
    rw [List.append_assoc, hx, hclosed]
  · refine .inr ⟨r', hr, by rw [hp, crlf_append, List.append_assoc], ?_⟩
    rw [List.append_assoc, hx, hopen]

theorem isReadAlike_splitQuoted (hq : isQuote q = true)
    (h : q = '\x60' ∨ '\n' ∉ (splitQuoted q t).1) :
    IsReadAlike q (splitQuoted q t).1 (splitQuoted q t).2 (splitQuoted q (crlf t)) := by
  have hquote : q ≠ '\\' ∧ q ≠ '\n' ∧ q ≠ '\r' := by
    refine ⟨?_, ?_, ?_⟩ <;> rintro rfl <;> cases hq
  have hreturn : ReadsOver q ['\r'] :=
    readsOver_char (by decide) (fun h ↦ absurd h (by decide)) hquote.2.2.symm
  -- In a template literal a newline is a character like others.
  have hline : q = '\x60' → ReadsOver q ['\n'] := fun hq ↦
    readsOver_char (by decide) (fun _ ↦ hq) hquote.2.1.symm
  fun_induction splitQuoted q t with
  | case1 => exact .inl ⟨rfl, .inl rfl⟩
  | case2 => exact .inl ⟨rfl, .inl rfl⟩
  | case3 c r p ih =>
    have hnext : IsReadAlike q p.1 p.2 (splitQuoted q (crlf r)) :=
      ih (h.imp_right fun h hmem ↦ h (List.mem_cons_of_mem _ (List.mem_cons_of_mem _ hmem)))
    refine hnext.prepend (readsOver_escape q c) ?_
    by_cases hc : c = '\n'
    · subst hc
      rcases h with h | h
      · exact (readsOver_escape q '\r').append (hline h)
      · exact absurd (List.mem_cons_of_mem _ List.mem_cons_self) h
    · rw [crlf_cons (by decide), crlf_cons hc]
      exact readsOver_escape q c
  | case4 c r hescape _ hc =>
    obtain ⟨rfl, hstring⟩ := hc
    refine .inr ⟨r, rfl, ?_, hreturn []⟩
    have hread := hreturn ('\n' :: crlf r)
    rwa [splitQuoted_newline hstring] at hread
  | case5 r _ _ _ =>
    refine .inl ⟨?_, .inr (splitQuoted_self hquote.1 hquote.2.1)⟩
    rw [crlf_cons hquote.2.1, splitQuoted_self hquote.1 hquote.2.1, crlf_cons hquote.2.1]
    rfl
  | case6 c r hlast hescape hplain hc p ih =>
    have hback : c ≠ '\\' := ne_backslash hlast hescape
    have hchar : ReadsOver q [c] :=
      readsOver_char hback (fun h ↦ by_contra fun hq ↦ hplain ⟨h, hq⟩) hc
    have hnext : IsReadAlike q p.1 p.2 (splitQuoted q (crlf r)) :=
      ih (h.imp_right fun h hmem ↦ h (List.mem_cons_of_mem _ hmem))
    refine hnext.prepend hchar ?_
    by_cases hn : c = '\n'
    · subst hn
      exact hreturn.append hchar
    · rw [crlf_cons hn]
      exact hchar

/-- A longer text is read at least as far. -/
theorem splitQuoted_isPrefix (q : Char) (t u : Text) :
    (splitQuoted q t).1 <+: (splitQuoted q (t ++ u)).1 := by
  fun_induction splitQuoted q t with
  | case1 => exact List.nil_prefix
  | case2 =>
    cases u with
    | nil => exact List.prefix_refl _
    | cons c u => exact List.prefix_append ['\\'] (c :: (splitQuoted q u).1)
  | case3 c r p ih => exact (List.prefix_append_right_inj ['\\', c]).mpr ih
  | case4 => exact List.nil_prefix
  | case5 r hlast hescape hline =>
    have hback : q ≠ '\\' := ne_backslash hlast hescape
    rw [List.cons_append, splitQuoted, if_neg hline, if_pos rfl]
    · exact fun h ↦ absurd h hback
    · exact fun _ _ h ↦ absurd h hback
  | case6 c r hlast hescape hline hq p ih =>
    have hback : c ≠ '\\' := ne_backslash hlast hescape
    rw [List.cons_append, splitQuoted, if_neg hline, if_neg hq]
    · exact (List.prefix_append_right_inj [c]).mpr ih
    · exact fun h ↦ absurd h hback
    · exact fun _ _ h ↦ absurd h hback

theorem newline_mem_splitQuoted (hq : q ≠ '\x60') (hl : '\n' ∉ l)
    (h : '\n' ∈ (splitQuoted q (l ++ '\n' :: x)).1) : '\n' ∈ (splitQuoted q (l ++ ['\n'])).1 := by
  fun_induction splitQuoted q l with
  | case1 =>
    rw [List.nil_append, splitQuoted_newline hq] at h
    exact absurd h List.not_mem_nil
  | case2 => exact List.mem_cons_of_mem _ List.mem_cons_self
  | case3 c r p ih =>
    rw [List.mem_cons, List.mem_cons, not_or, not_or] at hl
    have hnext : '\n' ∈ '\\' :: c :: (splitQuoted q (r ++ '\n' :: x)).1 := h
    have hmem : '\n' ∈ (splitQuoted q (r ++ '\n' :: x)).1 := by simpa [hl.2.1] using hnext
    exact List.mem_cons_of_mem _ (List.mem_cons_of_mem _ (ih hl.2.2 hmem))
  | case4 c r _ _ hc => exact absurd (List.mem_cons.mpr (.inl hc.1.symm)) hl
  | case5 r hlast hescape hline =>
    have hback : q ≠ '\\' := ne_backslash hlast hescape
    have hquote : q ≠ '\n' := fun h ↦ hline ⟨h, hq⟩
    rw [List.cons_append, splitQuoted_self hback hquote] at h
    exact absurd (List.mem_singleton.mp h) hquote.symm
  | case6 c r hlast hescape hline hc p ih =>
    have hback : c ≠ '\\' := ne_backslash hlast hescape
    have hnewline : c ≠ '\n' := fun h ↦ hline ⟨h, hq⟩
    rw [List.cons_append, splitQuoted_cons hback hnewline hc] at h ⊢
    rw [List.mem_cons, not_or] at hl
    exact List.mem_cons_of_mem c (ih hl.2 ((List.mem_cons.mp h).resolve_left hnewline.symm))

/-! ## Literals that go on behind their line -/

/-- Whether a text begins with a string literal into which a backslash takes a newline. -/
def RunsOn : Text → Prop
  | [] => False
  | q :: u => (q = '"' ∨ q = '\'') ∧ '\n' ∈ (splitQuoted q u).1

instance : DecidablePred RunsOn
  | [] => .isFalse id
  | q :: u => inferInstanceAs (Decidable ((q = '"' ∨ q = '\'') ∧ '\n' ∈ (splitQuoted q u).1))

theorem RunsOn.append (h : RunsOn t) (u : Text) : RunsOn (t ++ u) := by
  cases t with
  | nil => exact absurd h id
  | cons q t => exact ⟨h.1, (splitQuoted_isPrefix q t u).subset h.2⟩

/-- Whether a literal goes on behind its line is seen from the line. -/
theorem RunsOn.line (h : RunsOn (l ++ '\n' :: x)) (hl : '\n' ∉ l) : RunsOn (l ++ ['\n']) := by
  cases l with
  | nil => exact absurd h.1 (by decide)
  | cons q l =>
    refine ⟨h.1, newline_mem_splitQuoted ?_ (fun hmem ↦ hl (List.mem_cons_of_mem q hmem)) h.2⟩
    rintro rfl
    exact absurd h.1 (by decide)

/-- No string literal goes on behind its line, from whatever quote mark it is read. -/
def IsUnbroken (t : Text) : Prop := ∀ u, u <:+ t → ¬RunsOn u

instance (t : Text) : Decidable (IsUnbroken t) :=
  decidable_of_iff (∀ u ∈ t.tails, ¬RunsOn u) (by simp [IsUnbroken])

theorem isUnbroken_nil : IsUnbroken [] := by
  intro u hu
  rw [List.suffix_nil.mp hu]
  exact id

theorem IsUnbroken.of_suffix (h : IsUnbroken t) (hu : u <:+ t) : IsUnbroken u :=
  fun v hv ↦ h v (hv.trans hu)

theorem IsUnbroken.of_infix (h : IsUnbroken t) (hu : u <:+: t) : IsUnbroken u := by
  obtain ⟨a, b, rfl⟩ := hu
  rintro v ⟨w, rfl⟩ hruns
  exact h (v ++ b) ⟨a ++ w, by simp only [List.append_assoc]⟩ (hruns.append b)

/-! ## Literals and comments -/

/-- Whether a literal or comment goes on with whatever comes next on its line: it is a line comment,
or its closing mark is missing. -/
def IsOpen (l : Text) : Prop := inert? (l ++ ['\r']) = some (l ++ ['\r'], [])

instance (l : Text) : Decidable (IsOpen l) := inferInstanceAs (Decidable (_ = _))

theorem not_isOpen (h : inert? (l ++ ['\r']) = some (l, ['\r'])) : ¬IsOpen l := by
  rw [IsOpen, h]
  simp

/-- A literal or comment with the text behind it, with other line ends. An open one that ends with
its line takes in the carriage return. -/
def inertCrlf (p : Text × Text) : Text × Text :=
  if IsOpen p.1 then (crlf p.1 ++ returnBefore p.2, crlfRest p.2) else (crlf p.1, crlf p.2)

theorem inertCrlf_append (p : Text × Text) :
    (inertCrlf p).1 ++ (inertCrlf p).2 = crlf (p.1 ++ p.2) := by
  rw [inertCrlf]
  split_ifs
  · rw [List.append_assoc, returnBefore_append_crlfRest, crlf_append]
  · rw [crlf_append]

theorem inertCrlf_nil (l : Text) : inertCrlf (l, []) = (crlf l, []) := by
  rw [inertCrlf]
  split_ifs
  · simp [crlfRest]
  · rfl

theorem inertCrlf_of_closed (h : inert? (l ++ ['\r']) = some (l, ['\r'])) (r : Text) :
    inertCrlf (l, r) = (crlf l, crlf r) := if_neg (not_isOpen h)

theorem inert?_lineComment_crlf (r : Text) :
    inert? ('/' :: '/' :: crlf r) = (inert? ('/' :: '/' :: r)).map inertCrlf := by
  have hopen : IsOpen ('/' :: '/' :: r.takeWhile (· != '\n')) := by
    have hall : ∀ c ∈ r.takeWhile (· != '\n') ++ ['\r'], (c != '\n') = true := by
      intro c hc
      rcases List.mem_append.mp hc with hc | hc
      · exact List.all_eq_true.mp List.all_takeWhile c hc
      · rw [List.mem_singleton.mp hc]
        decide
    have htake := takeWhile_append_eq hall (stops_nil (p := (· != '\n')))
    have hdrop := dropWhile_append_eq hall (stops_nil (p := (· != '\n')))
    rw [List.append_nil] at htake hdrop
    simp only [IsOpen, List.cons_append, inert?, htake, hdrop]
  simp only [inert?, Option.map_some, inertCrlf, if_pos hopen]
  rw [takeWhile_crlf_of_line rfl rfl, dropWhile_crlf_of_line rfl rfl, crlf_cons (by decide),
    crlf_cons (by decide)]
  rfl

theorem inert?_blockComment_crlf (r : Text) :
    inert? ('/' :: '*' :: crlf r) = (inert? ('/' :: '*' :: r)).map inertCrlf := by
  have hcut := cutAt?_crlf (w := ['*', '/']) (by decide) (by decide) (by decide) r
  cases hr : cutAt? ['*', '/'] r with
  | none =>
    rw [hr] at hcut
    simp only [inert?, splitBlockComment, hr, hcut, Option.map_none, Option.map_some, inertCrlf_nil]
    rw [crlf_cons (by decide), crlf_cons (by decide)]
  | some p =>
    obtain ⟨body, r'⟩ := p
    rw [hr] at hcut
    obtain ⟨-, hbody⟩ := (cutAt?_eq_some_iff (c := '*') (w := ['/']) (by decide)).mp hr
    have hclosed : inert? ('/' :: '*' :: (body ++ ['*', '/']) ++ ['\r']) =
        some ('/' :: '*' :: (body ++ ['*', '/']), ['\r']) := by
      have hmark := cutAt?_append (c := '*') (w := ['/']) (by decide) hbody ['\r']
      simp only [inert?, splitBlockComment, List.cons_append, List.append_assoc, List.nil_append,
        hmark] at hmark ⊢
    simp only [inert?, splitBlockComment, hr, hcut, Option.map_some, Prod.map_apply]
    rw [inertCrlf_of_closed hclosed, crlf_cons (by decide), crlf_cons (by decide), crlf_append]
    rfl

theorem inert?_quoted_crlf (hq : isQuote q = true) (h : ¬RunsOn (q :: t)) :
    inert? (q :: crlf t) = (inert? (q :: t)).map inertCrlf := by
  have hline : crlf (q :: (splitQuoted q t).1) = q :: crlf (splitQuoted q t).1 :=
    crlf_cons (ne_newline_of_class hq rfl) _
  have hread : IsReadAlike q (splitQuoted q t).1 (splitQuoted q t).2 (splitQuoted q (crlf t)) := by
    refine isReadAlike_splitQuoted hq (or_iff_not_imp_left.mpr fun htemplate hmem ↦ h ⟨?_, hmem⟩)
    exact (or_assoc.mpr (eq_of_isQuote hq)).resolve_right htemplate
  rw [inert?_of_isQuote hq, inert?_of_isQuote hq, Option.map_some]
  rcases hread with ⟨hsplit, hend⟩ | ⟨r', hr, hsplit, hopen⟩
  · rw [hsplit]
    rcases hend with hnil | hclosed
    · rw [hnil, inertCrlf_nil, hline]
      rfl
    · rw [inertCrlf_of_closed (by rw [List.cons_append, inert?_of_isQuote hq, hclosed]), hline]
  · have hopen : IsOpen (q :: (splitQuoted q t).1) := by
      rw [IsOpen, List.cons_append, inert?_of_isQuote hq, hopen]
    rw [hsplit, hr, inertCrlf, if_pos hopen, hline]
    rfl

/-- Literals and comments are found alike in the text with other line ends. -/
theorem inert?_crlf (h : ¬RunsOn t) : inert? (crlf t) = (inert? t).map inertCrlf := by
  cases t with
  | nil => rfl
  | cons c t =>
    by_cases hq : isQuote c = true
    · rw [crlf_cons (ne_newline_of_class hq rfl), inert?_quoted_crlf hq h]
    · rw [Bool.not_eq_true] at hq
      by_cases hslash : c = '/'
      · subst hslash
        rw [crlf_cons (by decide)]
        cases t with
        | nil => rfl
        | cons d t =>
          by_cases hline : d = '/'
          · subst hline
            exact inert?_lineComment_crlf t
          by_cases hblock : d = '*'
          · subst hblock
            exact inert?_blockComment_crlf t
          have hnone {e : Char} (hne : e ≠ '/' ∧ e ≠ '*') (u : Text) :
              inert? ('/' :: e :: u) = none := by
            simp [inert?, hne.1, hne.2, isQuote]
          rw [hnone ⟨hline, hblock⟩]
          by_cases hd : d = '\n'
          · subst hd
            exact hnone (by decide) _
          · rw [crlf_cons hd]
            exact hnone ⟨hline, hblock⟩ _
      · rw [inert?_eq_none hq hslash]
        by_cases hc : c = '\n'
        · subst hc
          exact inert?_eq_none (by decide) (by decide) _
        · rw [crlf_cons hc]
          exact inert?_eq_none hq hslash _

theorem inert?_return (t : Text) : inert? ('\r' :: t) = none :=
  inert?_eq_none (by decide) (by decide) t

/-- A search that passes over literals and comments, and over carriage returns, comes behind one
alike in the text with other line ends. -/
theorem attach_inert_crlf {β : Type} {f : Text → Option (Text × β)}
    (hinert : ∀ w r, inert? (w ++ r) = some (w, r) → f (w ++ r) = Untyped.attach w (f r))
    (hreturn : ∀ r, f ('\r' :: r) = Untyped.attach ['\r'] (f r)) (h : ¬RunsOn t)
    (hl : inert? t = some (l, r)) : f (crlf t) = Untyped.attach (crlf l) (f (crlf r)) := by
  have hcrlf := inert?_crlf h
  have happend := inertCrlf_append (l, r)
  rw [hl, Option.map_some] at hcrlf
  rw [inert?_append hl] at happend
  rw [← happend, hinert _ _ (by rw [happend, hcrlf]), inertCrlf]
  split_ifs
  · rw [← returnBefore_append_crlfRest r, ← Untyped.attach_attach]
    congr 1
    by_cases hr : r.head? = some '\n'
    · obtain ⟨u, rfl⟩ := List.head?_eq_some_iff.mp hr
      exact (hreturn _).symm
    · rw [returnBefore_eq_nil hr, Untyped.attach_nil, List.nil_append]
  · rfl

theorem inert?_cons_crlf (h : ¬RunsOn (c :: t)) (hnone : inert? (c :: t) = none) (hc : c ≠ '\n') :
    inert? (c :: crlf t) = none := by
  rw [← crlf_cons hc, inert?_crlf h, hnone, Option.map_none]

/-! ## Brackets -/

theorem attach_map_crlf {β β' : Type} {g : β → β'} (w : Text) (x : Option (Text × β)) :
    (Untyped.attach w x).map (Prod.map crlf g) =
      Untyped.attach (crlf w) (x.map (Prod.map crlf g)) := by
  cases x <;> simp [Untyped.attach]

theorem attach_cons_map_crlf {β β' : Type} {g : β → β'} (hc : c ≠ '\n') (x : Option (Text × β)) :
    (Untyped.attach [c] x).map (Prod.map crlf g) =
      Untyped.attach [c] (x.map (Prod.map crlf g)) := by
  rw [attach_map_crlf, crlf_cons hc, crlf_nil]

theorem splitClosing?_return (d : Nat) (r : Text) :
    splitClosing? d ('\r' :: r) = Untyped.attach ['\r'] (splitClosing? d r) :=
  Untyped.splitClosing?_cons (inert?_return r) rfl rfl

theorem splitClosing?_crlf (h : IsUnbroken t) (d : Nat) :
    splitClosing? d (crlf t) = (splitClosing? d t).map (Prod.map crlf crlf) := by
  fun_induction splitClosing? d t with
  | case1 d => rw [crlf_nil, splitClosing?, Option.map_none]
  | case2 d c s l r hl _ ih =>
    have hr : IsUnbroken r := h.of_suffix ⟨l, inert?_append hl⟩
    rw [attach_inert_crlf (fun _ _ ↦ Untyped.splitClosing?_inert) (splitClosing?_return d)
      (h _ (List.suffix_refl _)) hl, ih hr, ← attach_map_crlf]
    rfl
  | case3 d c s hnone hopening ih =>
    have hc := ne_newline_of_class hopening rfl
    rw [crlf_cons hc, Untyped.splitClosing?_opening
      (inert?_cons_crlf (h _ (List.suffix_refl _)) hnone hc) hopening,
      ih (h.of_suffix (List.suffix_cons c s)), ← attach_cons_map_crlf hc]
    rfl
  | case4 d c s hnone hopening hclosing hd =>
    have hc := ne_newline_of_class hclosing rfl
    rw [crlf_cons hc, Untyped.splitClosing?_closing
      (inert?_cons_crlf (h _ (List.suffix_refl _)) hnone hc) (by simpa using hopening) hclosing,
      if_pos hd, Option.map_some, Prod.map_apply, crlf_cons hc]
    rfl
  | case5 d c s hnone hopening hclosing hd ih =>
    have hc := ne_newline_of_class hclosing rfl
    rw [crlf_cons hc, Untyped.splitClosing?_closing
      (inert?_cons_crlf (h _ (List.suffix_refl _)) hnone hc) (by simpa using hopening) hclosing,
      if_neg hd, ih (h.of_suffix (List.suffix_cons c s)), ← attach_cons_map_crlf hc]
    rfl
  | case6 d c s hnone hopening hclosing ih =>
    have hs := ih (h.of_suffix (List.suffix_cons c s))
    have hopening : isOpening c = false := by simpa using hopening
    have hclosing : isClosing c = false := by simpa using hclosing
    by_cases hc : c = '\n'
    · subst hc
      rw [crlf_newline, splitClosing?_return, Untyped.splitClosing?_cons
        (inert?_eq_none (by decide) (by decide) _) hopening hclosing, hs,
        Untyped.attach_attach]
      exact (attach_map_crlf ['\n'] _).symm
    · rw [crlf_cons hc, Untyped.splitClosing?_cons
        (inert?_cons_crlf (h _ (List.suffix_refl _)) hnone hc) hopening hclosing, hs,
        ← attach_cons_map_crlf hc]
      rfl

theorem closeParen?_crlf (h : IsUnbroken t) :
    closeParen? (crlf t) = (closeParen? t).map (Prod.map crlf crlf) := by
  rw [closeParen?, splitClosing?_crlf h, closeParen?]
  rcases splitClosing? 1 t with _ | ⟨inside, behind⟩
  · rfl
  rcases behind with _ | ⟨c, r⟩
  · rfl
  by_cases hc : c = '\n'
  · subst hc
    rfl
  · rw [Option.map_some, Prod.map_apply, crlf_cons hc]
    by_cases hparen : c = ')'
    · subst hparen
      rfl
    · simp [hparen]

/-! ## Dependency statements -/

theorem specifier?_crlf (t : Text) :
    specifier? (crlf t) = (specifier? t).map (Prod.map id crlf) := by
  rcases t with _ | ⟨c, r⟩
  · rfl
  by_cases hc : c = '\n'
  · subst hc
    rfl
  rw [crlf_cons hc, specifier?, takeWhile_crlf_of_line rfl rfl, dropWhile_crlf_of_line rfl rfl,
    specifier?]
  split_ifs
  · have hname : '\n' ∉ r.takeWhile isSpecifierChar := fun hmem ↦
      absurd (List.all_eq_true.mp List.all_takeWhile _ hmem) (by decide)
    rw [crlf_eq_self hname]
    rcases r.dropWhile isSpecifierChar with _ | ⟨q, rest⟩
    · rw [returnBefore_nil, List.append_nil]
      cases r.takeWhile isSpecifierChar <;> rfl
    · by_cases hq : q = '\n'
      · subst hq
        cases r.takeWhile isSpecifierChar <;> rfl
      · rw [crlfRest_cons hq, returnBefore_eq_nil (by simpa using hq), List.append_nil]
        cases r.takeWhile isSpecifierChar with
        | nil => rfl
        | cons d name =>
          simp only
          split_ifs <;> rfl
  · rfl

theorem namespaceBinding?_crlf (t : Text) :
    namespaceBinding? (crlf t) = (namespaceBinding? t).map crlf := by
  rw [namespaceBinding?, word?_crlf (by decide) (by decide), namespaceBinding?]
  refine bind_map_of_forall fun r _ ↦ ?_
  rw [white?_crlf]
  refine bind_map_of_forall fun r _ ↦ ?_
  rw [keyword?_crlf (by decide) (by decide)]
  exact bind_map_of_forall fun r _ ↦ some?_crlf rfl r

theorem binding?_crlf (t : Text) : binding? (crlf t) = (binding? t).map crlf := by
  rw [binding?, braces?_crlf, namespaceBinding?_crlf, ← Option.map_or, binding?]

theorem secondBinding?_crlf (t : Text) : secondBinding? (crlf t) = (secondBinding? t).map crlf := by
  rw [secondBinding?, trimStart_crlf, word?_crlf (by decide) (by decide), secondBinding?]
  refine bind_map_of_forall fun r _ ↦ ?_
  rw [trimStart_crlf, binding?_crlf]

theorem importClause?_crlf (t : Text) : importClause? (crlf t) = (importClause? t).map crlf := by
  rw [importClause?, binding?_crlf, some?_crlf rfl, ← Option.map_or, importClause?, Option.map_map,
    Option.map_map]
  exact congrArg (Option.map · _) (funext fun r ↦ optionally_crlf (secondBinding?_crlf r))

theorem fromSpecifier?_crlf (t : Text) :
    fromSpecifier? (crlf t) = (fromSpecifier? t).map (Prod.map id crlf) := by
  rw [fromSpecifier?, keyword?_crlf (by decide) (by decide), fromSpecifier?]
  exact bind_map_of_forall fun r _ ↦ specifier?_crlf r

theorem closeStatement?_crlf {p : Text × Text} (h : '\r' ∉ p.2) :
    closeStatement? (Prod.map id crlf p) = (closeStatement? p).map (Prod.map id crlf) := by
  rw [closeStatement?, Prod.map_snd, closeLine?_crlf h, closeStatement?, Option.map_map,
    Option.map_map]
  rfl

theorem importBody?_crlf (h : '\r' ∉ t) :
    importBody? (crlf t) = (importBody? t).map (Prod.map id crlf) := by
  have hclause : ((importClause? (crlf t)).bind fun r ↦ (white? r).bind fromSpecifier?) =
      ((importClause? t).bind fun r ↦ (white? r).bind fromSpecifier?).map (Prod.map id crlf) := by
    rw [importClause?_crlf]
    refine bind_map_of_forall fun r _ ↦ ?_
    rw [white?_crlf]
    exact bind_map_of_forall fun r _ ↦ fromSpecifier?_crlf r
  rw [importBody?, hclause, specifier?_crlf, ← Option.map_or, importBody?]
  refine bind_map_of_forall fun p hp ↦ closeStatement?_crlf fun hmem ↦ h ?_
  rcases Option.or_eq_some_iff.mp hp with hp | ⟨-, hp⟩
  · obtain ⟨r, hr, hp⟩ := Option.bind_eq_some_iff.mp hp
    obtain ⟨u, hu, hp⟩ := Option.bind_eq_some_iff.mp hp
    exact ((fromSpecifier?_suffix hp).trans <| (white?_suffix hu).trans
      (importClause?_suffix hr)).subset hmem
  · exact (specifier?_suffix hp).subset hmem

theorem importStatement?_crlf (h : '\r' ∉ t) :
    importStatement? (crlf t) = (importStatement? t).map (Prod.map id crlf) := by
  rw [importStatement?, keyword?_crlf (by decide) (by decide), importStatement?]
  refine bind_map_of_forall fun r hr ↦ ?_
  have hr : '\r' ∉ r := fun hmem ↦ h ((keyword?_suffix hr).subset hmem)
  rw [keyword?_crlf (by decide) (by decide), importBody?_crlf hr,
    bind_map_of_forall fun u hu ↦ importBody?_crlf fun hmem ↦ hr ((keyword?_suffix hu).subset hmem),
    ← Option.map_or]

theorem reexportSource?_crlf (h : '\r' ∉ t) :
    reexportSource? (crlf t) = (reexportSource? t).map (Prod.map id crlf) := by
  rw [reexportSource?, trimStart_crlf, fromSpecifier?_crlf, reexportSource?]
  exact bind_map_of_forall fun p hp ↦ closeStatement?_crlf fun hmem ↦
    h (((fromSpecifier?_suffix hp).trans (List.dropWhile_suffix _)).subset hmem)

theorem reexportAll?_crlf (h : '\r' ∉ t) :
    reexportAll? (crlf t) = (reexportAll? t).map (Prod.map id crlf) := by
  have has : (white? (crlf t)).bind (keyword? "as".toList) =
      ((white? t).bind (keyword? "as".toList)).map crlf := by
    rw [white?_crlf]
    exact bind_map_of_forall fun r _ ↦ keyword?_crlf (by decide) (by decide) r
  rw [reexportAll?, has, reexportAll?]
  cases hr : (white? t).bind (keyword? "as".toList) with
  | none => exact reexportSource?_crlf h
  | some r =>
    obtain ⟨u, hu, hkeyword⟩ := Option.bind_eq_some_iff.mp hr
    have hreturn (k : Nat) : '\r' ∉ r.drop k := fun hmem ↦
      h (((List.drop_suffix k r).trans ((keyword?_suffix hkeyword).trans (white?_suffix hu))).subset
        hmem)
    -- The name holds no newline, so that it has the same characters in both texts.
    have hname : '\n' ∉ r.takeWhile isNameChar := fun hmem ↦
      absurd (List.all_eq_true.mp List.all_takeWhile _ hmem) (by decide)
    have htake : (crlf r).takeWhile isNameChar = r.takeWhile isNameChar := by
      rw [takeWhile_crlf rfl, crlf_eq_self hname]
    have hdrop {k : Nat} (hk : k ≤ (r.takeWhile isNameChar).length) :
        (crlf r).drop k = crlf (r.drop k) := by
      have htaken : r.take k <+: r.takeWhile isNameChar :=
        List.prefix_of_prefix_length_le (List.take_prefix k r) (List.takeWhile_prefix _)
          ((List.length_take_le k r).trans hk)
      have hlength : (r.take k).length = k :=
        List.length_take_of_le (hk.trans (List.takeWhile_prefix _).length_le)
      have hself := drop_crlf k r
      rwa [crlf_eq_self fun hmem ↦ hname (htaken.subset hmem), hlength] at hself
    simp only [Option.map_some, htake, hdrop le_rfl, hdrop (Nat.sub_le _ 4),
      reexportSource?_crlf (hreturn _)]
    split_ifs
    · rfl
    · rw [Option.or_none, Option.or_none]
    · rw [Option.map_or]

theorem reexportStatement?_crlf (h : '\r' ∉ t) :
    reexportStatement? (crlf t) = (reexportStatement? t).map (Prod.map id crlf) := by
  rw [reexportStatement?, keyword?_crlf (by decide) (by decide), reexportStatement?]
  refine bind_map_of_forall fun r hr ↦ ?_
  have hsuffix : optionally (keyword? "type".toList) r <:+ t :=
    (optionally_suffix (fun {_ _} (h : keyword? "type".toList _ = _) ↦ keyword?_suffix h) r).trans
      (keyword?_suffix hr)
  dsimp only
  rw [optionally_crlf (keyword?_crlf (by decide) (by decide) r),
    word?_crlf (by decide) (by decide), braces?_crlf,
    bind_map_of_forall fun u hu ↦
      reexportAll?_crlf fun hmem ↦ h (((word?_suffix hu).trans hsuffix).subset hmem),
    bind_map_of_forall fun u hu ↦
      reexportSource?_crlf fun hmem ↦ h (((braces?_suffix hu).trans hsuffix).subset hmem),
    ← Option.map_or]

theorem dependency?_crlf (h : '\r' ∉ t) :
    dependency? (crlf t) = (dependency? t).map (Prod.map id crlf) := by
  have hblank : '\r' ∉ t.dropWhile isBlank := fun hmem ↦ h ((List.dropWhile_suffix _).subset hmem)
  rw [dependency?, dropWhile_crlf rfl, importStatement?_crlf hblank, reexportStatement?_crlf hblank,
    ← Option.map_or, dependency?]

theorem isSteady_dependency : dependency.IsSteady id := Marker.isSteady_ofLine dependency?_crlf

end Script

end PluginPack
