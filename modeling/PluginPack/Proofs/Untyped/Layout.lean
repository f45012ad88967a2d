import PluginPack.Proofs.Script.Passage
import PluginPack.Proofs.Untyped.Token

/-!
# Tokens in a row

Which kinds of tokens stand next to each other in a script without types, and what the steps of a
pass read in such a script: a keyword is found only where a whole token is spelled like it, and the
white space behind a token ends at the next one.
-/

namespace PluginPack

open Text Script

/-! ## Markers that find nothing -/

namespace Marker

variable {α : Type} {m : Marker α} {b : Option Char} {c : Char} {r t v w : Text}

/-- No part begins anywhere in the text `w`, which stands between `b` and `r`. -/
def Passes (m : Marker α) (b : Option Char) (w r : Text) : Prop :=
  ∀ x y : Text, w = x ++ y → y ≠ [] → m.find? (x.getLast?.or b) (y ++ r) = none

theorem Passes.append (hw : m.Passes b w (v ++ r)) (hv : m.Passes (w.getLast?.or b) v r) :
    m.Passes b (w ++ v) r := by
  intro x y h hy
  rcases List.append_eq_append_iff.mp h with ⟨x', rfl, rfl⟩ | ⟨y', rfl, rfl⟩
  · rw [List.getLast?_append, Option.or_assoc]
    exact hv x' y rfl hy
  · by_cases hy' : y' = []
    · subst hy'
      rw [List.append_nil] at hv
      exact hv [] v rfl hy
    · rw [List.append_assoc]
      exact hw x y' rfl hy'

theorem Passes.of_cons (h : m.Passes b (c :: w) r) : m.Passes (some c) w r := by
  intro x y hxy hy
  have hfind := h (c :: x) y (congrArg (c :: ·) hxy) hy
  rwa [← List.singleton_append (l := x), List.getLast?_append, Option.or_assoc] at hfind

theorem Passes.cons (hc : m.find? b (c :: (w ++ r)) = none) (hw : m.Passes (some c) w r) :
    m.Passes b (c :: w) r := by
  refine Passes.append (w := [c]) (fun x y hxy hy ↦ ?_) hw
  rcases List.append_eq_singleton_iff.mp hxy.symm with ⟨rfl, rfl⟩ | ⟨rfl, rfl⟩
  · exact hc
  · exact absurd rfl hy

theorem Passes.left (h : m.Passes b (v ++ w) r) : m.Passes b v (w ++ r) := by
  rintro x y rfl hy
  rw [← List.append_assoc]
  exact h x (y ++ w) (List.append_assoc ..) fun hnil ↦ hy (List.append_eq_nil_iff.mp hnil).1

/-- What is passed over stays plain text. -/
theorem Passes.cutFrom_append (h : m.Passes b w r) :
    m.cutFrom b (w ++ r) = (m.cutFrom (w.getLast?.or b) r).prepend w := by
  induction w generalizing b with
  | nil => rfl
  | cons c w ih =>
    have hnone : m.find? b (c :: (w ++ r)) = none := h [] (c :: w) rfl (List.cons_ne_nil c w)
    rw [List.cons_append, cutFrom_of_none m hnone, ih h.of_cons, Cut.push_prepend,
      ← List.singleton_append (l := w), List.getLast?_append, Option.or_assoc]
    rfl

/-- A text that is passed over is left as it is. -/
theorem Passes.substitute_eq (h : m.Passes b t []) (f : Part α → Text) :
    (m.cutFrom b t).substitute f = t := by
  have hcut := h.cutFrom_append
  rw [List.append_nil, cutFrom_nil] at hcut
  rw [hcut, Cut.substitute_prepend, Cut.substitute_empty, List.append_nil]

/-- There is no part in a text that is passed over. -/
theorem Passes.cut_eq (h : m.Passes none t []) : m.cut t = ⟨t, []⟩ := by
  have hcut := h.cutFrom_append
  rw [List.append_nil] at hcut
  rw [cut, hcut, cutFrom_nil, Cut.prepend, Cut.empty, List.append_nil]

/-- Nothing is replaced in a text that is passed over. -/
theorem Passes.replace_eq (h : m.Passes none t []) (f : α → Text) : m.replace f t = t := by
  rw [replace, h.cut_eq, Cut.substitute, Cut.render]
  exact List.append_nil t

end Marker

namespace Untyped

/-! ## Neighbours -/

/-- Whether a token of the second kind may stand behind one of the first. -/
def follows (j k : Kind) : Bool :=
  (k != .opening .condition || j == .control) &&
    match j with
    | .name | .number => !k.isWordlike
    | .binding => k == .of || (!k.isWordlike && k != .colon)
    | .declarator => k == .binding || k == .opening .square || k == .opening .brace
    | .of => k != .colon && k != .equals && k != .arrow
    | .equals => k != .equals && k != .arrow
    | .colon => k != .arrow
    | .closing .params => k == .arrow || k == .opening .brace
    | .closing .condition => k != .arrow && k != .colon
    | .closing .call => k != .arrow && k != .opening .brace
    | _ => true

/-- White space sets off words from each other. -/
def Adjacent (t u : Token) : Prop :=
  follows t.kind u.kind = true ∧
    (t.kind.isWordlike = true → u.kind.isWordlike = true → u.gap ≠ [])

instance (t u : Token) : Decidable (Adjacent t u) := inferInstanceAs (Decidable (_ ∧ _))

/-- Well spelled tokens that may stand next to each other in this order. -/
def Laid : List Token → Prop
  | [] => True
  | t :: ts => t.IsSpelled ∧ (∀ u ∈ ts.head?, Adjacent t u) ∧ Laid ts

variable {c : Char} {k last r x y : Text} {t u : Token} {ts us : List Token}

theorem Laid.tail (h : Laid (t :: ts)) : Laid ts := h.2.2

theorem Laid.spells (h : Laid (t :: ts)) : t.kind.spells t.text = true := h.1.2

theorem Laid.white (h : Laid (t :: ts)) : ∀ c ∈ t.gap, isWhite c = true := h.1.1

theorem Laid.adjacent (h : Laid (t :: u :: ts)) : Adjacent t u := h.2.1 u rfl

theorem Laid.isSpelled (h : Laid ts) : ∀ t ∈ ts, t.IsSpelled := by
  induction ts with
  | nil => simp
  | cons t ts ih => exact List.forall_mem_cons.mpr ⟨h.1, ih h.tail⟩

theorem Laid.of_append (h : Laid (ts ++ us)) : Laid us := by
  induction ts with
  | nil => exact h
  | cons t ts ih => exact ih h.tail

theorem Laid.left_of_append (h : Laid (ts ++ us)) : Laid ts := by
  induction ts with
  | nil => exact trivial
  | cons t ts ih =>
    refine ⟨h.1, ?_, ih h.tail⟩
    intro u hu
    cases ts with
    | nil => cases hu
    | cons v ts => exact h.2.1 u hu

/-- A pass over a laid-out script goes from token to token. -/
theorem passes_write {α : Type} {m : Marker α} {p : Token → Prop} (hlaid : Laid ts)
    (hp : ∀ t ∈ ts, p t)
    (hgap : ∀ {b t ts}, Laid (t :: ts) → (∀ u ∈ t :: ts, p u) →
      m.Passes b t.gap (t.text ++ (write ts ++ last)))
    (htext : ∀ {b t ts}, Laid (t :: ts) → (∀ u ∈ t :: ts, p u) →
      m.Passes b t.text (write ts ++ last))
    (hend : ∀ {b}, m.Passes b last []) (b : Option Char) : m.Passes b (write ts ++ last) [] := by
  induction ts generalizing b with
  | nil => exact hend
  | cons t ts ih =>
    rw [write_cons, List.append_assoc, List.append_assoc]
    refine Marker.Passes.append ?_ (Marker.Passes.append ?_ ?_)
    · rw [List.append_nil]
      exact hgap hlaid hp
    · rw [List.append_nil]
      exact htext hlaid hp
    · exact ih hlaid.tail (fun u hu ↦ hp u (List.mem_cons_of_mem t hu)) _

/-! ## Behind a token -/

theorem stops_of_spells {p : Char → Bool} (hu : u.IsSpelled)
    (hword : u.kind.isWordlike = true → u.gap ≠ []) (hwhite : ∀ c, isWhite c = true → p c = false)
    (hsymbol : ∀ c ∈ symbols, p c = false) (r : Text) : Stops p (u.gap ++ (u.text ++ r)) := by
  by_cases hgap : u.gap = []
  · have hsym := head?_mem_symbols (by simpa using fun h ↦ hword h hgap) hu.2
    rw [hgap, List.nil_append]
    exact Stops.append (fun c hc ↦ hsymbol c (hsym c hc)) (ne_nil_of_spells hu.2)
  · exact Stops.append (fun c hc ↦ hwhite c (hu.1 c (List.mem_of_mem_head? hc))) hgap

theorem stops_of_white {p : Char → Bool} (hlast : ∀ c ∈ last, isWhite c = true)
    (hwhite : ∀ c, isWhite c = true → p c = false) : Stops p last :=
  fun c hc ↦ hwhite c (hlast c (List.mem_of_mem_head? hc))

/-- No word goes on behind its token. -/
theorem stops_isIdentifierChar (h : Laid (t :: ts)) (ht : t.kind.isWordlike = true)
    (hlast : ∀ c ∈ last, isWhite c = true) : Stops isIdentifierChar (write ts ++ last) := by
  have hwhite : ∀ c, isWhite c = true → isIdentifierChar c = false := by
    intro c hc
    by_contra hid
    rw [isWhite_of_isIdentifierChar (by simpa using hid)] at hc
    cases hc
  cases ts with
  | nil => exact stops_of_white hlast hwhite
  | cons u us =>
    rw [write_cons, List.append_assoc, List.append_assoc]
    exact stops_of_spells h.tail.1 (h.adjacent.2 ht) hwhite
      (fun c hc ↦ isIdentifierChar_of_mem_symbols hc) _

theorem stops_isWhite_text (h : Laid (t :: ts)) (r : Text) : Stops isWhite (t.text ++ r) :=
  (stops_isWhite_of_spells h.spells).append (ne_nil_of_spells h.spells)

theorem trimStart_write_cons (h : Laid (t :: ts)) (r : Text) :
    trimStart (write (t :: ts) ++ r) = t.text ++ (write ts ++ r) := by
  rw [write_cons, List.append_assoc, List.append_assoc]
  exact dropWhile_append_eq h.white (stops_isWhite_text h _)

theorem trimStart_of_white (hlast : ∀ c ∈ last, isWhite c = true) : trimStart last = [] := by
  have hnil := dropWhile_append_eq hlast (stops_nil (p := isWhite))
  rwa [List.append_nil] at hnil

/-- White space ends at the next token. -/
theorem white?_write (h : Laid ts) (hlast : ∀ c ∈ last, isWhite c = true)
    (hr : white? (write ts ++ last) = some r) :
    (ts = [] ∧ r = []) ∨ ∃ u us, ts = u :: us ∧ r = u.text ++ (write us ++ last) := by
  obtain ⟨w, -, hw, hstop, heq⟩ := exists_of_some?_eq_some hr
  have htrim : trimStart (write ts ++ last) = r := by
    rw [heq]
    exact dropWhile_append_eq hw hstop
  cases ts with
  | nil =>
    exact .inl ⟨rfl, htrim.symm.trans (trimStart_of_white hlast)⟩
  | cons u us => exact .inr ⟨u, us, rfl, htrim.symm.trans (trimStart_write_cons h last)⟩

/-! ## Keywords -/

theorem isAlpha_of_mem_symbols (h : c ∈ symbols) : c.isAlpha = false :=
  (show ∀ d ∈ symbols, d.isAlpha = false by decide) c h

/-- **Keywords are whole words.** A keyword that is read somewhere in a token is what is left of the
token there. -/
theorem keyword?_text (h : Laid (t :: ts)) (hlast : ∀ c ∈ last, isWhite c = true)
    (hstring : t.kind ≠ .string) (hk : ∀ c ∈ k, c.isAlpha = true) (hxy : t.text = x ++ y)
    (hy : y ≠ []) (hr : keyword? k (y ++ (write ts ++ last)) = some r) :
    t.kind.isWordlike = true ∧ y = k ∧ white? (write ts ++ last) = some r := by
  obtain ⟨w, hw, hwhite, hstop, heq⟩ := exists_of_keyword?_eq_some hr
  have hblack : ∀ c ∈ y, isWhite c = false := by
    intro c hc
    refine isWhite_of_spells hstring h.spells c ?_
    rw [hxy]
    exact List.mem_append_right x hc
  -- A letter of the keyword in the token tells that the token is a word.
  have hword : ∀ c ∈ y, c ∈ k → t.kind.isWordlike = true := by
    intro c hcy hck
    by_contra hnot
    have hsym := mem_symbols_of_spells (by simpa using hnot) hstring h.spells c
      (by rw [hxy]; exact List.mem_append_right x hcy)
    have halpha := hk c hck
    rw [isAlpha_of_mem_symbols hsym] at halpha
    cases halpha
  obtain ⟨c, y', rfl⟩ := List.exists_cons_of_ne_nil hy
  rcases List.append_eq_append_iff.mp heq with ⟨a, rfl, hrest⟩ | ⟨a, ha, hrest⟩
  · have ht := hword c List.mem_cons_self (List.mem_append_left a List.mem_cons_self)
    cases a with
    | nil =>
      rw [List.append_nil, hrest, List.nil_append]
      exact ⟨ht, rfl, some?_append hw hwhite hstop⟩
    | cons d a =>
      have hstop := stops_isIdentifierChar h ht hlast
      rw [hrest, List.cons_append, stops_cons,
        isIdentifierChar_of_isAlpha (hk d (by simp))] at hstop
      cases hstop
  · cases a with
    | nil =>
      rw [List.append_nil] at ha
      rw [List.nil_append] at hrest
      subst ha
      rw [← hrest]
      exact ⟨hword c List.mem_cons_self List.mem_cons_self, rfl, some?_append hw hwhite hstop⟩
    | cons d a =>
      obtain ⟨e, w, rfl⟩ := List.exists_cons_of_ne_nil hw
      have hde : e = d := (List.cons.inj hrest).1
      have hwhite := hwhite e List.mem_cons_self
      rw [hde, hblack d (by rw [ha]; simp)] at hwhite
      cases hwhite

/-- No keyword is read where white space stands. -/
theorem keyword?_of_isWhite (hc : isWhite c = true) (hk : k ≠ [])
    (hkwhite : ∀ c ∈ k, c.isAlpha = true)
    (r : Text) : keyword? k (c :: r) = none := by
  refine keyword?_eq_none fun hpre ↦ ?_
  obtain ⟨d, k, rfl⟩ := List.exists_cons_of_ne_nil hk
  rw [(List.cons_prefix_cons.mp hpre).1] at hkwhite
  have hid := isIdentifierChar_of_isAlpha (hkwhite c List.mem_cons_self)
  rw [isWhite_of_isIdentifierChar hid] at hc
  cases hc

end Untyped

end PluginPack
