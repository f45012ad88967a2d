import PluginPack.Proofs.Untyped.Grammar
import PluginPack.TypeSyntax.Parameter

/-!
# Brackets of scripts without types

The steps that look for the end of a bracket, or for a character outside brackets, read what is
derived as one piece: a group is passed over together with its brackets, since its inside closes
all that it opens.
-/

namespace PluginPack

open Text Script TypeSyntax

namespace Untyped

/-! ## Reading on behind a text -/

variable {β : Type}

/-- What is found behind a text, with the text in front of what was read. -/
def attach (w : Text) (x : Option (Text × β)) : Option (Text × β) := x.map fun p ↦ (w ++ p.1, p.2)

@[simp] theorem attach_nil (x : Option (Text × β)) : attach [] x = x := by
  cases x <;> rfl

@[simp] theorem attach_none (w : Text) : attach w (none : Option (Text × β)) = none := rfl

@[simp] theorem attach_some (w v : Text) (b : β) : attach w (some (v, b)) = some (w ++ v, b) := rfl

theorem attach_attach (v w : Text) (x : Option (Text × β)) :
    attach w (attach v x) = attach (w ++ v) x := by
  rw [attach, attach, Option.map_map]
  simp only [attach, Function.comp_def, List.append_assoc]

/-- What is passed over one character after the other is passed over. -/
theorem eq_attach_of_forall {f : Text → Option (Text × β)} {w : Text}
    (h : ∀ c ∈ w, ∀ r, f (c :: r) = attach [c] (f r)) (r : Text) : f (w ++ r) = attach w (f r) := by
  induction w with
  | nil => rw [List.nil_append, attach_nil]
  | cons c w ih =>
    rw [List.cons_append, h c List.mem_cons_self, ih fun d hd ↦ h d (List.mem_cons_of_mem c hd),
      attach_attach, List.singleton_append]

/-! ## The end of a bracket -/

variable {c : Char} {d : Nat} {k : Kind} {last r w : Text} {t : Token} {is : List Item}
  {ts us : List Token}

theorem exists_cons_of_inert? {p : Text × Text} (h : inert? w = some p) : ∃ c r, w = c :: r := by
  cases w with
  | nil => cases h
  | cons c r => exact ⟨c, r, rfl⟩

/-- The search at a character of the code itself. -/
theorem splitClosing?_code (hinert : inert? (c :: r) = none) :
    splitClosing? d (c :: r) =
      if isOpening c then attach [c] (splitClosing? (d + 1) r)
      else if isClosing c then
        if d ≤ 1 then some ([], c :: r) else attach [c] (splitClosing? (d - 1) r)
      else attach [c] (splitClosing? d r) := by
  rw [splitClosing?]
  split
  · rename_i h
    rw [hinert] at h
    cases h
  · rfl

theorem splitClosing?_cons (hinert : inert? (c :: r) = none) (hopening : isOpening c = false)
    (hclosing : isClosing c = false) :
    splitClosing? d (c :: r) = attach [c] (splitClosing? d r) := by
  rw [splitClosing?_code hinert, if_neg (by simp [hopening]), if_neg (by simp [hclosing])]

theorem splitClosing?_opening (hinert : inert? (c :: r) = none) (hopening : isOpening c = true) :
    splitClosing? d (c :: r) = attach [c] (splitClosing? (d + 1) r) := by
  rw [splitClosing?_code hinert, if_pos hopening]

theorem splitClosing?_closing (hinert : inert? (c :: r) = none) (hopening : isOpening c = false)
    (hclosing : isClosing c = true) :
    splitClosing? d (c :: r) =
      if d ≤ 1 then some ([], c :: r) else attach [c] (splitClosing? (d - 1) r) := by
  rw [splitClosing?_code hinert, if_neg (by simp [hopening]), if_pos hclosing]

theorem splitClosing?_inert (hinert : inert? (w ++ r) = some (w, r)) :
    splitClosing? d (w ++ r) = attach w (splitClosing? d r) := by
  obtain ⟨c, s, hw⟩ := exists_cons_of_inert? hinert
  rw [hw] at hinert ⊢
  rw [splitClosing?]
  split
  · rename_i h
    rw [hinert] at h
    cases h
    rfl
  · rename_i h
    rw [hinert] at h
    cases h

theorem isOpening_of_spells (hstring : k ≠ .string) (hk : k.isBracket = false)
    (h : k.spells w = true) : ∀ c ∈ w, isOpening c = false ∧ isClosing c = false := by
  by_cases hplain : k.isPlain = true
  · intro c hc
    have hc := isPlain_of_spells hplain h c hc
    exact ⟨isOpening_of_isPlain hc, isClosing_of_isPlain hc⟩
  · have hall : ∀ k ∈ Kind.all, k ≠ .string → k.isBracket = false → k.isPlain = false →
        k = .arrow := by decide
    obtain rfl := hall k k.mem_all hstring hk (by simpa using hplain)
    have harrow : w ∈ Kind.arrow.spellings := by simpa [Kind.spells] using h
    exact (show ∀ w ∈ Kind.arrow.spellings, ∀ c ∈ w, isOpening c = false ∧ isClosing c = false by
      decide) w harrow

theorem splitClosing?_white (hw : ∀ c ∈ w, isWhite c = true) (r : Text) :
    splitClosing? d (w ++ r) = attach w (splitClosing? d r) := by
  refine eq_attach_of_forall (fun c hc r ↦ ?_) r
  have hplain := isPlain_of_isWhite (hw c hc)
  exact splitClosing?_cons (inert?_of_isPlain hplain r) (isOpening_of_isPlain hplain)
    (isClosing_of_isPlain hplain)

theorem splitClosing?_token (ht : t.IsSpelled) (hk : t.kind.isBracket = false) (r : Text) :
    splitClosing? d (t.text ++ r) = attach t.text (splitClosing? d r) := by
  by_cases hstring : t.kind = .string
  · have hspells := ht.2
    rw [hstring] at hspells
    exact splitClosing?_inert (inert?_append_of_isString hspells r)
  · refine eq_attach_of_forall (fun c hc r ↦ ?_) r
    obtain ⟨hopening, hclosing⟩ := isOpening_of_spells hstring hk ht.2 c hc
    exact splitClosing?_cons (inert?_of_spells hstring ht.2 hc r) hopening hclosing

/-! ### Brackets -/

theorem isOpening_opening (b : Bracket) : isOpening b.opening = true := by cases b <;> rfl

theorem isOpening_closing (b : Bracket) : isOpening b.closing = false := by cases b <;> rfl

theorem isClosing_closing (b : Bracket) : isClosing b.closing = true := by cases b <;> rfl

theorem inert?_opening (b : Bracket) (r : Text) : inert? (b.opening :: r) = none := by
  cases b <;> exact inert?_eq_none (by decide) (by decide) r

theorem inert?_closing (b : Bracket) (r : Text) : inert? (b.closing :: r) = none := by
  cases b <;> exact inert?_eq_none (by decide) (by decide) r

theorem write_group {b : Bracket} {o c : Token} (hos : o.IsSpelled) (ho : o.kind = .opening b)
    (hcs : c.IsSpelled) (hc : c.kind = .closing b) (us ts : List Token) :
    write (o :: (us ++ c :: ts)) =
      o.gap ++ b.opening :: (write us ++ (c.gap ++ b.closing :: write ts)) := by
  rw [write_cons, write_append, write_cons, text_of_opening hos.2 ho, text_of_closing hcs.2 hc]
  rfl

/-- **Groups are passed over.** What is derived closes all brackets that it opens. -/
theorem splitClosing?_write (h : Derives is ts) (hproper : ∀ i ∈ is, i.isProper = true)
    (hts : ∀ t ∈ ts, t.IsSpelled) (d : Nat) (r : Text) :
    splitClosing? (d + 1) (write ts ++ r) = attach (write ts) (splitClosing? (d + 1) r) := by
  induction h generalizing d r with
  | nil => rw [write_nil, List.nil_append, attach_nil]
  | @token _ _ t _ _ hk _ h ih =>
    obtain ⟨ht, hts⟩ := List.forall_mem_cons.mp hts
    obtain ⟨hi, hproper⟩ := List.forall_mem_cons.mp hproper
    have hbracket : t.kind.isBracket = false := by
      rw [hk]
      simpa [Item.isProper] using hi
    rw [write_cons, List.append_assoc, List.append_assoc, splitClosing?_white ht.1,
      splitClosing?_token ht hbracket, ih hproper hts, attach_attach, attach_attach,
      List.append_assoc]
  | symbol hmem hsymbol h ihsymbol ih =>
    obtain ⟨hus, hts⟩ := List.forall_mem_append.mp hts
    obtain ⟨-, hproper⟩ := List.forall_mem_cons.mp hproper
    rw [write_append, List.append_assoc, ihsymbol (isProper_of_mem_productions hmem) hus,
      ih hproper hts, attach_attach]
  | @group b s o c _ us ts ho hc hsymbol h ihsymbol ih =>
    obtain ⟨hospelled, hrest⟩ := List.forall_mem_cons.mp hts
    obtain ⟨hus, hrest⟩ := List.forall_mem_append.mp hrest
    obtain ⟨hcspelled, hts⟩ := List.forall_mem_cons.mp hrest
    obtain ⟨-, hproper⟩ := List.forall_mem_cons.mp hproper
    have hinside : ∀ i ∈ [Item.symbol s], i.isProper = true := by simp [Item.isProper]
    rw [write_group hospelled ho hcspelled hc, List.append_assoc, List.cons_append,
      List.append_assoc, List.append_assoc, List.cons_append, splitClosing?_white hospelled.1,
      splitClosing?_opening (inert?_opening b _) (isOpening_opening b),
      ihsymbol hinside hus, splitClosing?_white hcspelled.1,
      splitClosing?_closing (inert?_closing b _) (isOpening_closing b) (isClosing_closing b),
      if_neg (by omega), Nat.add_sub_cancel, ih hproper hts]
    simp only [attach_attach, List.cons_append, List.nil_append]

/-- A parenthesis is closed behind all that the search passes over. -/
theorem closeParen?_of_attach
    (h : splitClosing? 1 (w ++ ')' :: r) = attach w (splitClosing? 1 (')' :: r))) :
    closeParen? (w ++ ')' :: r) = some (w, r) := by
  rw [splitClosing?_closing rfl rfl rfl, if_pos le_rfl, attach_some, List.append_nil] at h
  rw [closeParen?, h]
  rfl

/-- The parenthesis that closes a group is found. -/
theorem closeParen?_write {s : Symbol} (h : Derives [.symbol s] us) (hus : ∀ t ∈ us, t.IsSpelled)
    (hw : ∀ c ∈ w, isWhite c = true) (r : Text) :
    closeParen? (write us ++ (w ++ ')' :: r)) = some (write us ++ w, r) := by
  rw [← List.append_assoc]
  refine closeParen?_of_attach ?_
  rw [List.append_assoc, splitClosing?_write h (by simp [Item.isProper]) hus 0,
    splitClosing?_white hw, attach_attach]

/-! ## Characters outside brackets -/

variable {p : Char → Bool}

/-- The search at a character of the code itself. -/
theorem splitTopLevel?_code (hinert : inert? (c :: r) = none) :
    splitTopLevel? p d (c :: r) =
      if c = '=' ∧ (r.head? = some '>' ∨ r.head? = some '=') then
        attach (c :: r.take 1) (splitTopLevel? p d r.tail)
      else if opensNesting c then attach [c] (splitTopLevel? p (d + 1) r)
      else if closesNesting c then attach [c] (splitTopLevel? p (d - 1) r)
      else if p c && d == 0 then some ([], c :: r)
      else attach [c] (splitTopLevel? p d r) := by
  rw [splitTopLevel?]
  split
  · rename_i h
    rw [hinert] at h
    cases h
  · rfl

theorem splitTopLevel?_cons (hinert : inert? (c :: r) = none)
    (hequals : ¬(c = '=' ∧ (r.head? = some '>' ∨ r.head? = some '=')))
    (hopens : opensNesting c = false) (hcloses : closesNesting c = false)
    (hp : (p c && d == 0) = false) :
    splitTopLevel? p d (c :: r) = attach [c] (splitTopLevel? p d r) := by
  rw [splitTopLevel?_code hinert, if_neg hequals, if_neg (by simp [hopens]),
    if_neg (by simp [hcloses]), if_neg (by simp [hp])]

theorem splitTopLevel?_found (hinert : inert? (c :: r) = none)
    (hequals : ¬(c = '=' ∧ (r.head? = some '>' ∨ r.head? = some '=')))
    (hopens : opensNesting c = false) (hcloses : closesNesting c = false) (hp : p c = true) :
    splitTopLevel? p 0 (c :: r) = some ([], c :: r) := by
  rw [splitTopLevel?_code hinert, if_neg hequals, if_neg (by simp [hopens]),
    if_neg (by simp [hcloses]), if_pos (by simp [hp])]

theorem splitTopLevel?_equals (h : c = '>' ∨ c = '=') :
    splitTopLevel? p d ('=' :: c :: r) = attach ['=', c] (splitTopLevel? p d r) := by
  rw [splitTopLevel?_code rfl, if_pos ⟨rfl, by rcases h with rfl | rfl <;> simp⟩]
  rfl

theorem splitTopLevel?_opens (hinert : inert? (c :: r) = none) (hc : c ≠ '=')
    (hopens : opensNesting c = true) :
    splitTopLevel? p d (c :: r) = attach [c] (splitTopLevel? p (d + 1) r) := by
  rw [splitTopLevel?_code hinert, if_neg fun h ↦ hc h.1, if_pos hopens]

theorem splitTopLevel?_closes (hinert : inert? (c :: r) = none) (hc : c ≠ '=')
    (hopens : opensNesting c = false) (hcloses : closesNesting c = true) :
    splitTopLevel? p d (c :: r) = attach [c] (splitTopLevel? p (d - 1) r) := by
  rw [splitTopLevel?_code hinert, if_neg fun h ↦ hc h.1, if_neg (by simp [hopens]), if_pos hcloses]

theorem splitTopLevel?_inert (hinert : inert? (w ++ r) = some (w, r)) :
    splitTopLevel? p d (w ++ r) = attach w (splitTopLevel? p d r) := by
  obtain ⟨c, s, hw⟩ := exists_cons_of_inert? hinert
  rw [hw] at hinert ⊢
  rw [splitTopLevel?]
  split
  · rename_i h
    rw [hinert] at h
    cases h
    rfl
  · rename_i h
    rw [hinert] at h
    cases h

theorem opensNesting_of_isPlain (h : isPlain c = true) : opensNesting c = false := by
  rw [opensNesting, isOpening_of_isPlain h, Bool.false_or, beq_eq_false_iff_ne]
  rintro rfl
  cases h

theorem closesNesting_of_isPlain (h : isPlain c = true) : closesNesting c = false := by
  rw [closesNesting, isClosing_of_isPlain h, Bool.false_or, beq_eq_false_iff_ne]
  rintro rfl
  cases h

/-- Plain characters are passed over unless they are looked for. -/
theorem splitTopLevel?_plain (hw : ∀ c ∈ w, isPlain c = true ∧ c ≠ '=')
    (hp : d = 0 → ∀ c ∈ w, p c = false) (r : Text) :
    splitTopLevel? p d (w ++ r) = attach w (splitTopLevel? p d r) := by
  refine eq_attach_of_forall (fun c hc r ↦ ?_) r
  obtain ⟨hplain, hequals⟩ := hw c hc
  refine splitTopLevel?_cons (inert?_of_isPlain hplain r) (fun h ↦ hequals h.1)
    (opensNesting_of_isPlain hplain) (closesNesting_of_isPlain hplain) ?_
  by_cases hd : d = 0
  · rw [hp hd c hc, Bool.false_and]
  · rw [beq_eq_false_iff_ne.mpr hd, Bool.and_false]

theorem splitTopLevel?_white (hw : ∀ c ∈ w, isWhite c = true) (hp : d = 0 → ∀ c ∈ w, p c = false)
    (r : Text) : splitTopLevel? p d (w ++ r) = attach w (splitTopLevel? p d r) := by
  refine splitTopLevel?_plain (fun c hc ↦ ⟨isPlain_of_isWhite (hw c hc), ?_⟩) hp r
  rintro rfl
  cases hw _ hc

/-- An equals sign is not read as half an operator when neither another one nor the tip of an arrow
stands behind it. -/
def StopsEquals (r : Text) : Prop := ¬(r.head? = some '>' ∨ r.head? = some '=')

theorem splitTopLevel?_single_equals (hp : d = 0 → p '=' = false) (hstop : StopsEquals r) :
    splitTopLevel? p d ('=' :: r) = attach ['='] (splitTopLevel? p d r) := by
  refine splitTopLevel?_cons (inert?_eq_none (by decide) (by decide) r) (fun h ↦ hstop h.2)
    (by decide) (by decide) ?_
  by_cases hd : d = 0
  · rw [hp hd, Bool.false_and]
  · rw [beq_eq_false_iff_ne.mpr hd, Bool.and_false]

/-- An operator with equals signs at its end is passed over, two of these at a time. -/
theorem splitTopLevel?_spelled_equals (h : w ∈ Kind.equals.spellings)
    (hp : d = 0 → ∀ c ∈ w, p c = false) (hstop : StopsEquals r) :
    splitTopLevel? p d (w ++ r) = attach w (splitTopLevel? p d r) := by
  have hall : ∀ w ∈ Kind.equals.spellings,
      (∀ c ∈ w.takeWhile (· != '='), isPlain c = true ∧ c ≠ '=') ∧
        w.dropWhile (· != '=') ∈ ["=".toList, "==".toList, "===".toList] := by decide
  obtain ⟨hplain, htail⟩ := hall w h
  have hw := List.takeWhile_append_dropWhile (p := (· != '=')) (l := w)
  rw [← hw] at hp ⊢
  generalize List.takeWhile (· != '=') w = x at *
  generalize List.dropWhile (· != '=') w = y at *
  have hsingle : '=' ∈ y → d = 0 → p '=' = false :=
    fun hy hd ↦ hp hd '=' (List.mem_append_right x hy)
  rw [List.append_assoc,
    splitTopLevel?_plain hplain (fun hd c hc ↦ hp hd c (List.mem_append_left y hc)),
    ← attach_attach]
  congr 1
  simp only [List.mem_cons, List.not_mem_nil, or_false] at htail
  rcases htail with rfl | rfl | rfl
  · exact splitTopLevel?_single_equals (hsingle (by decide)) hstop
  · exact splitTopLevel?_equals (.inr rfl)
  · have hone := splitTopLevel?_single_equals (hsingle (by decide)) hstop
    have htwo := splitTopLevel?_equals (p := p) (d := d) (r := '=' :: r) (.inr rfl : '=' = '>' ∨ _)
    rw [hone, attach_attach] at htwo
    exact htwo

theorem ne_equals_of_spells (hk : k ≠ .equals) (hplain : k.isPlain = true)
    (h : k.spells w = true) : ∀ c ∈ w, c ≠ '=' := by
  rintro c hc rfl
  rcases spells_iff.mp h with ⟨-, h⟩ | ⟨-, h⟩ | ⟨rfl, -⟩ | h
  · exact absurd (all_of_isIdentifier h _ hc) (by decide)
  · exact absurd (all_of_isNumber h _ hc) (by decide)
  · cases hplain
  · have hall : ∀ k ∈ Kind.all, k ≠ .equals → k.isPlain = true → ∀ w ∈ k.spellings, '=' ∉ w := by
      decide
    exact hall k k.mem_all hk hplain w h hc

/-- A token that is no bracket is passed over. -/
theorem splitTopLevel?_token (ht : t.IsSpelled) (hk : t.kind.isBracket = false)
    (hp : d = 0 → t.kind ≠ .string → ∀ c ∈ t.text, p c = false)
    (hstop : t.kind = .equals → StopsEquals r) :
    splitTopLevel? p d (t.text ++ r) = attach t.text (splitTopLevel? p d r) := by
  have hspells := ht.2
  by_cases hstring : t.kind = .string
  · rw [hstring] at hspells
    exact splitTopLevel?_inert (inert?_append_of_isString hspells r)
  · by_cases hequals : t.kind = .equals
    · rw [hequals] at hspells
      exact splitTopLevel?_spelled_equals (by simpa [Kind.spells] using hspells)
        (fun hd ↦ hp hd hstring) (hstop hequals)
    · by_cases hplain : t.kind.isPlain = true
      · exact splitTopLevel?_plain (fun c hc ↦ ⟨isPlain_of_spells hplain hspells c hc,
          ne_equals_of_spells hequals hplain hspells c hc⟩) (fun hd ↦ hp hd hstring) r
      · have hall : ∀ k ∈ Kind.all, k ≠ .string → k.isBracket = false → k.isPlain = false →
            k = .arrow := by decide
        rw [text_of_arrow ht.2 (hall _ (Kind.mem_all _) hstring hk (by simpa using hplain))]
        exact splitTopLevel?_equals (.inl rfl)

/-- Behind an equals sign neither another one nor an arrow stands. -/
theorem stopsEquals_of_laid (h : Laid (t :: ts)) (ht : t.kind = .equals)
    (hlast : ∀ c ∈ last, isWhite c = true) : StopsEquals (write ts ++ last) := by
  have hwhite : ∀ w : Text, (∀ c ∈ w, isWhite c = true) → w ≠ [] → ∀ r, StopsEquals (w ++ r) := by
    rintro w hw hne r
    obtain ⟨c, w, rfl⟩ := List.exists_cons_of_ne_nil hne
    have hc := hw c List.mem_cons_self
    rintro (heq | heq) <;> cases heq <;> cases hc
  cases ts with
  | nil =>
    rw [write_nil, List.nil_append]
    by_cases hnil : last = []
    · rw [hnil]
      simp [StopsEquals]
    · have hstop := hwhite last hlast hnil []
      rwa [List.append_nil] at hstop
  | cons u ts =>
    rw [write_cons, List.append_assoc, List.append_assoc]
    by_cases hgap : u.gap = []
    · rw [hgap, List.nil_append]
      have hfollows := h.adjacent.1
      rw [ht] at hfollows
      obtain ⟨c, w, hc⟩ := List.exists_cons_of_ne_nil (ne_nil_of_spells h.tail.spells)
      have hall : ∀ k ∈ Kind.all, ∀ s ∈ k.spellings,
          s.head? = some '>' ∨ s.head? = some '=' → follows .equals k = false := by decide
      intro hhead
      have hhead' : u.text.head? = some '>' ∨ u.text.head? = some '=' := by
        rw [hc] at hhead ⊢
        exact hhead
      have hmem : u.text ∈ u.kind.spellings := by
        rcases hhead' with hhead | hhead
        · exact mem_spellings_of_head? h.tail.spells hhead (by decide) (by decide) (by decide)
        · exact mem_spellings_of_head? h.tail.spells hhead (by decide) (by decide) (by decide)
      rw [hall _ (Kind.mem_all _) _ hmem hhead'] at hfollows
      cases hfollows
    · exact hwhite u.gap h.tail.white hgap _

/-! ### Tokens outside brackets -/

/-- An item that puts no token but those of some kinds, and no symbol but some, outside brackets. -/
def Item.stays (q : Kind → Bool) (ss : List Symbol) : Item → Bool
  | token k _ => q k
  | symbol s => ss.contains s
  | group _ _ => true

/-- **Characters outside brackets.** What is derived is passed over in brackets, and outside of them
when no token there holds a character that is looked for. -/
theorem splitTopLevel?_write (q : Kind → Bool) (ss : List Symbol)
    (hss : ∀ s ∈ ss, ∀ is ∈ productions s, ∀ i ∈ is, i.stays q ss = true)
    (hq : ∀ t : Token, t.IsSpelled → q t.kind = true → t.kind ≠ .string → ∀ c ∈ t.text, p c = false)
    (hwhite : ∀ c, isWhite c = true → p c = false) (hlast : ∀ c ∈ last, isWhite c = true)
    (h : Derives is ts) (hproper : ∀ i ∈ is, i.isProper = true) (d : Nat) (us : List Token)
    (hlaid : Laid (ts ++ us)) (hd : d = 0 → ∀ i ∈ is, i.stays q ss = true) :
    splitTopLevel? p d (write ts ++ (write us ++ last)) =
      attach (write ts) (splitTopLevel? p d (write us ++ last)) := by
  have hgap : ∀ {t : Token} (d : Nat) (r : Text), t.IsSpelled →
      splitTopLevel? p d (t.gap ++ r) = attach t.gap (splitTopLevel? p d r) :=
    fun d r ht ↦ splitTopLevel?_white ht.1 (fun _ c hc ↦ hwhite c (ht.1 c hc)) r
  induction h generalizing d us with
  | nil => rw [write_nil, List.nil_append, attach_nil]
  | @token _ _ t _ ts hk _ h ih =>
    obtain ⟨hi, hproper⟩ := List.forall_mem_cons.mp hproper
    have hbracket : t.kind.isBracket = false := by
      rw [hk]
      simpa [Item.isProper] using hi
    have htoken : splitTopLevel? p d (t.text ++ (write ts ++ (write us ++ last))) =
        attach t.text (splitTopLevel? p d (write ts ++ (write us ++ last))) := by
      refine splitTopLevel?_token hlaid.1 hbracket ?_ ?_
      · intro hzero
        refine hq t hlaid.1 ?_
        rw [hk]
        exact hd hzero _ List.mem_cons_self
      · intro hequals
        rw [← List.append_assoc, ← write_append]
        exact stopsEquals_of_laid hlaid hequals hlast
    rw [write_cons, List.append_assoc, List.append_assoc, hgap d _ hlaid.1, htoken,
      ih hproper d us hlaid.tail fun hzero i hi ↦ hd hzero i (List.mem_cons_of_mem _ hi),
      attach_attach, attach_attach, List.append_assoc]
  | @symbol s _ _ vs ts hmem hsymbol h ihsymbol ih =>
    obtain ⟨-, hproper⟩ := List.forall_mem_cons.mp hproper
    rw [List.append_assoc] at hlaid
    have hrest := ih hproper d us hlaid.of_append
      fun hzero i hi ↦ hd hzero i (List.mem_cons_of_mem _ hi)
    have hs : d = 0 → s ∈ ss := by
      intro hzero
      have hstays := hd hzero _ List.mem_cons_self
      simpa [Item.stays] using hstays
    have hinside := ihsymbol (isProper_of_mem_productions hmem) d (ts ++ us) hlaid
      fun hzero ↦ hss s (hs hzero) _ hmem
    rw [write_append, List.append_assoc] at hinside
    rw [write_append, List.append_assoc, hinside, hrest, attach_attach]
  | @group b s o c _ vs ts ho hc hsymbol h ihsymbol ih =>
    rw [List.cons_append, List.append_assoc, List.cons_append] at hlaid
    have hos := hlaid.1
    have hcs := hlaid.tail.of_append.1
    obtain ⟨-, hproper⟩ := List.forall_mem_cons.mp hproper
    have hinside := ihsymbol (by simp [Item.isProper]) (d + 1) (c :: (ts ++ us)) hlaid.tail
      fun hzero ↦ absurd hzero (Nat.succ_ne_zero d)
    have hbehind := ih hproper d us hlaid.tail.of_append.tail
      fun hzero i hi ↦ hd hzero i (List.mem_cons_of_mem _ hi)
    rw [write_cons, write_append, text_of_closing hcs.2 hc] at hinside
    simp only [List.append_assoc, List.cons_append, List.nil_append] at hinside
    rw [write_group hos ho hcs hc, List.append_assoc, List.cons_append, List.append_assoc,
      List.append_assoc, List.cons_append, hgap d _ hos,
      splitTopLevel?_opens (inert?_opening b _) (by cases b <;> decide) (by cases b <;> rfl),
      hinside, hgap (d + 1) _ hcs,
      splitTopLevel?_closes (inert?_closing b _) (by cases b <;> decide) (by cases b <;> rfl)
        (by cases b <;> rfl), Nat.add_sub_cancel, hbehind]
    simp only [attach_attach, List.cons_append, List.nil_append]

end Untyped

end PluginPack
