import PluginPack.Proofs.Untyped.Bracket
import PluginPack.TypeSyntax.Signature

/-!
# Behind a closing parenthesis

What a script without types is taken for behind a closing parenthesis: an arrow and a brace are
read as what they are, and a colon is read as the beginning of a return type. The type goes on over
all that might stand in a type, so a colon of a conditional or of a `case` may lead to an arrow or a
brace further on.
-/

namespace PluginPack

open Text Script TypeSyntax

namespace Untyped

variable {c : Char} {d : Nat} {k : Kind} {last r w : Text} {t : Token} {ts us : List Token}

/-! ## Return types -/

/-- What a return type that begins with the tokens is followed by. Brackets that are open lie around
the tokens. -/
def readsOn : Nat → List Token → Option Follow
  | _, [] => none
  | d, t :: ts =>
    if d = 0 ∧ ¬t.gap.all isReturnTypeChar then none
    else
      match t.kind with
      | .arrow => if d = 0 then some .arrow else readsOn d ts
      | .opening b => if d = 0 ∧ b = .brace then some .body else readsOn (d + 1) ts
      | .closing _ => if d = 0 then none else readsOn (d - 1) ts
      | .string => readsOn d ts
      | _ => if d = 0 ∧ ¬t.text.all isReturnTypeChar then none else readsOn d ts

theorem returnType?_cons (harrow : ¬(c = '=' ∧ r.head? = some '>')) (hplain : isPlain c = true) :
    returnType? d (c :: r) =
      if d = 0 ∧ ¬isReturnTypeChar c then none else attach [c] (returnType? d r) := by
  have hquote : ¬(c = '"' ∨ c = '\'') := by
    rintro (rfl | rfl) <;> cases hplain
  have hbrace : ¬(c = '{' ∧ d = 0) := by
    rintro ⟨rfl, -⟩
    cases hplain
  rw [returnType?, if_neg harrow, if_neg hquote, if_neg hbrace,
    if_neg (by simp [opensNesting_of_isPlain hplain]),
    if_neg (by simp [closesNesting_of_isPlain hplain])]
  rfl

/-- Plain text is part of a return type, or outside brackets ends it. -/
theorem returnType?_plain (hw : ∀ c ∈ w, isPlain c = true)
    (hr : '=' ∈ w → r.head? ≠ some '>') :
    returnType? d (w ++ r) =
      if d = 0 ∧ ¬w.all isReturnTypeChar then none else attach w (returnType? d r) := by
  induction w with
  | nil => simp
  | cons c w ih =>
    have harrow : ¬(c = '=' ∧ (w ++ r).head? = some '>') := by
      rintro ⟨rfl, hhead⟩
      cases w with
      | nil => exact hr List.mem_cons_self hhead
      | cons e w =>
        have he := hw e (by simp)
        cases hhead
        cases he
    rw [List.cons_append, returnType?_cons harrow (hw c List.mem_cons_self),
      ih (fun e he ↦ hw e (List.mem_cons_of_mem c he)) fun h ↦ hr (List.mem_cons_of_mem c h)]
    by_cases hd : d = 0
    · by_cases hc : isReturnTypeChar c = true
      · by_cases hall : w.all isReturnTypeChar = true
        · simp [hc, hall, attach_attach]
        · simp [hd, hc, hall]
      · simp [hd, hc]
    · simp [hd, attach_attach]

theorem returnType?_arrow (d : Nat) (r : Text) : returnType? d ('=' :: '>' :: r) =
    if d = 0 then some ([], .arrow) else attach ['=', '>'] (returnType? d r) := by
  rw [returnType?, if_pos ⟨rfl, rfl⟩]
  rfl

theorem returnType?_string (hw : isString w = true) (d : Nat) (r : Text) :
    returnType? d (w ++ r) = attach w (returnType? d r) := by
  obtain ⟨q, s, rfl, hq, hs⟩ := isString_iff.mp hw
  have hsplit : splitQuoted q (s ++ r) = (s, r) := by
    rcases hq with rfl | rfl
    · exact splitQuoted_append_of_endsString (by decide) (by decide) hs r
    · exact splitQuoted_append_of_endsString (by decide) (by decide) hs r
  have harrow : ¬(q = '=' ∧ (s ++ r).head? = some '>') := by
    rintro ⟨rfl, -⟩
    rcases hq with hq | hq <;> cases hq
  rw [List.cons_append, returnType?, if_neg harrow, if_pos hq, hsplit]
  rfl

theorem returnType?_opening (b : Bracket) (d : Nat) (r : Text) : returnType? d (b.opening :: r) =
    if d = 0 ∧ b = .brace then some ([], .body)
    else attach [b.opening] (returnType? (d + 1) r) := by
  cases b <;> rw [returnType?] <;> simp [Bracket.opening, opensNesting, isOpening, attach]

theorem returnType?_closing (b : Bracket) (d : Nat) (r : Text) : returnType? d (b.closing :: r) =
    if d = 0 then none else attach [b.closing] (returnType? (d - 1) r) := by
  cases b <;> rw [returnType?] <;>
    simp [Bracket.closing, opensNesting, closesNesting, isOpening, isClosing, attach]

@[simp] theorem map_snd_attach {β : Type} (w : Text) (x : Option (Text × β)) :
    (attach w x).map (·.2) = x.map (·.2) := by
  cases x <;> rfl

theorem returnType?_plain_token (h : Laid (t :: ts)) (hlast : ∀ c ∈ last, isWhite c = true)
    (ht : t.kind.isPlain = true) (d : Nat) :
    returnType? d (t.text ++ (write ts ++ last)) =
      if d = 0 ∧ ¬t.text.all isReturnTypeChar then none
      else attach t.text (returnType? d (write ts ++ last)) := by
  refine returnType?_plain (isPlain_of_spells ht h.spells) fun hmem hhead ↦ ?_
  have hk : t.kind = .equals := by
    by_contra hne
    exact ne_equals_of_spells hne ht h.spells _ hmem rfl
  exact stopsEquals_of_laid h hk hlast (.inl hhead)

theorem returnType?_gap (h : Laid (t :: ts)) (d : Nat) (r : Text) :
    returnType? d (t.gap ++ r) =
      if d = 0 ∧ ¬t.gap.all isReturnTypeChar then none else attach t.gap (returnType? d r) :=
  returnType?_plain (fun c hc ↦ isPlain_of_isWhite (h.white c hc))
    fun hmem ↦ absurd (h.white _ hmem) (by decide)

/-- **Return types.** What a return type ends at in a script without types. -/
theorem returnType?_write (h : Laid ts) (hlast : ∀ c ∈ last, isWhite c = true) (d : Nat) :
    (returnType? d (write ts ++ last)).map (·.2) = readsOn d ts := by
  induction ts generalizing d with
  | nil =>
    have hplain := returnType?_plain (d := d) (r := []) (fun c hc ↦ isPlain_of_isWhite (hlast c hc))
      fun _ ↦ by simp
    rw [List.append_nil] at hplain
    rw [write_nil, List.nil_append, hplain]
    split
    · rfl
    · rw [map_snd_attach, returnType?]
      rfl
  | cons t ts ih =>
    rw [write_cons, List.append_assoc, List.append_assoc, returnType?_gap h, readsOn]
    split
    · rfl
    · have hspells := h.spells
      have hrest := ih h.tail
      rw [map_snd_attach]
      -- Arrows, brackets and literals have their own steps, all other tokens are plain.
      split
      · rename_i hk
        rw [text_of_arrow hspells hk, List.cons_append, List.cons_append, List.nil_append,
          returnType?_arrow]
        split
        · rfl
        · rw [map_snd_attach, hrest]
      · rename_i b hk
        rw [text_of_opening hspells hk, List.singleton_append, returnType?_opening]
        split
        · rfl
        · rw [map_snd_attach, hrest]
      · rename_i b hk
        rw [text_of_closing hspells hk, List.singleton_append, returnType?_closing]
        split
        · rfl
        · rw [map_snd_attach, hrest]
      · rename_i hk
        rw [hk] at hspells
        rw [returnType?_string hspells, map_snd_attach, hrest]
      · rename_i harrow hopening hclosing hstring
        have hplain : t.kind.isPlain = true := by
          cases hk : t.kind with
          | arrow => exact absurd hk harrow
          | opening b => exact absurd hk (hopening b)
          | closing b => exact absurd hk (hclosing b)
          | string => exact absurd hk hstring
          | _ => rfl
        rw [returnType?_plain_token h hlast hplain]
        split
        · rfl
        · rw [map_snd_attach, hrest]

/-! ## Tails -/

/-- A brace in front ends the return type before it has begun. -/
theorem returnType?_brace (h : Laid (t :: ts)) (ht : t.kind = .opening .brace) {type : Text}
    {f : Follow} (hx : returnType? 0 (write (t :: ts) ++ last) = some (type, f)) :
    trim type = [] := by
  rw [write_cons, List.append_assoc, List.append_assoc, text_of_opening h.spells ht,
    List.singleton_append, returnType?_gap h] at hx
  split at hx
  · cases hx
  · rw [returnType?_opening, if_pos ⟨rfl, rfl⟩] at hx
    cases hx
    exact trim_append_left h.white []

/-- A return type that begins with any other token is not empty. -/
theorem returnType?_ne_nil (h : Laid (t :: ts)) (hlast : ∀ c ∈ last, isWhite c = true)
    (hbrace : t.kind ≠ .opening .brace) (harrow : t.kind ≠ .arrow) {type : Text} {f : Follow}
    (hx : returnType? 0 (write (t :: ts) ++ last) = some (type, f)) : trim type ≠ [] := by
  have htext : returnType? 0 (t.text ++ (write ts ++ last)) = none ∨
      ∃ x, returnType? 0 (t.text ++ (write ts ++ last)) = attach t.text x := by
    have hspells := h.spells
    cases hk : t.kind with
    | arrow => exact absurd hk harrow
    | opening b =>
      have hb : ¬(0 = 0 ∧ b = .brace) := fun hb ↦ hbrace (hb.2 ▸ hk)
      rw [text_of_opening hspells hk, List.singleton_append, returnType?_opening, if_neg hb]
      exact .inr ⟨_, rfl⟩
    | closing b =>
      rw [text_of_closing hspells hk, List.singleton_append, returnType?_closing, if_pos rfl]
      exact .inl rfl
    | string =>
      rw [hk] at hspells
      exact .inr ⟨_, returnType?_string hspells 0 _⟩
    | _ =>
      rw [returnType?_plain_token h hlast (by rw [hk]; rfl)]
      split
      · exact .inl rfl
      · exact .inr ⟨_, rfl⟩
  rw [write_cons, List.append_assoc, List.append_assoc, returnType?_gap h] at hx
  split at hx
  · cases hx
  · rcases htext with hnone | ⟨x, hsome⟩
    · rw [hnone] at hx
      cases hx
    · rw [hsome, attach_attach] at hx
      obtain ⟨y, -, hy⟩ := Option.map_eq_some_iff.mp hx
      cases hy
      obtain ⟨c, v, hc⟩ := List.exists_cons_of_ne_nil (ne_nil_of_spells h.spells)
      have hwhite := stops_isWhite_of_spells h.spells
      rw [hc, stops_cons] at hwhite
      rw [hc, List.append_assoc, trim_append_left h.white, List.cons_append, trim_cons hwhite]
      exact List.cons_ne_nil _ _

/-- What a tail in front of the tokens is read from. -/
inductive Tails : List Token → Tail → Prop
  | arrow {t : Token} {ts : List Token} : t.kind = .arrow → Tails (t :: ts) ⟨.arrow, [], 0⟩
  | brace {t : Token} {ts : List Token} : t.kind = .opening .brace → Tails (t :: ts) ⟨.body, [], 0⟩
  /-- A colon, when what stands behind it reads on like a type that is not empty. -/
  | colon {t : Token} {ts : List Token} {x : Tail} : t.kind = .colon →
      readsOn 0 ts = some x.follow → (∀ u ∈ ts.head?, u.kind ≠ .opening .brace) → Tails (t :: ts) x

/-- Only an arrow is read as one. -/
theorem kind_of_arrow (h : Laid (t :: ts)) (hlast : ∀ c ∈ last, isWhite c = true)
    (ht : t.text ++ (write ts ++ last) = '=' :: '>' :: r) : t.kind = .arrow := by
  obtain ⟨c, w, hc⟩ := List.exists_cons_of_ne_nil (ne_nil_of_spells h.spells)
  rw [hc, List.cons_append] at ht
  obtain ⟨rfl, hrest⟩ := List.cons.inj ht
  rcases kind_of_head?_equals h.spells (by rw [hc]; rfl) with hk | hk
  · have hstop := stopsEquals_of_laid h hk hlast
    have hspells := h.spells
    rw [hk, hc] at hspells
    have hall : ∀ w ∈ Kind.equals.spellings, w.head? = some '=' → w.tail ≠ [] →
        w.tail.head? = some '=' := by decide
    have hmem : '=' :: w ∈ Kind.equals.spellings := by simpa [Kind.spells] using hspells
    cases w with
    | nil =>
      rw [List.nil_append] at hrest
      exact absurd (.inl (by rw [hrest]; rfl)) hstop
    | cons d w =>
      have hd := hall _ hmem rfl (List.cons_ne_nil d w)
      cases hd
      cases hrest
  · exact hk

/-- **Tails.** What a tail is read from in a script without types. -/
theorem tails_of_tail? (h : Laid ts) (hlast : ∀ c ∈ last, isWhite c = true) {x : Tail}
    (hx : tail? (write ts ++ last) = some x) : Tails ts x := by
  cases ts with
  | nil =>
    rw [tail?, write_nil, List.nil_append, trimStart_of_white hlast] at hx
    cases hx
  | cons t ts =>
    rw [tail?, trimStart_write_cons h] at hx
    have hhead : ∀ {c r}, t.text ++ (write ts ++ last) = c :: r → t.text.head? = some c := by
      intro c r heq
      obtain ⟨d, w, hd⟩ := List.exists_cons_of_ne_nil (ne_nil_of_spells h.spells)
      rw [hd, List.cons_append] at heq
      rw [hd, (List.cons.inj heq).1]
      rfl
    split at hx
    · rename_i heq
      cases hx
      exact .arrow (kind_of_arrow h hlast heq)
    · rename_i heq
      cases hx
      exact .brace (kind_of_head?_brace h.spells (hhead heq))
    · rename_i r heq
      have hk := kind_of_head?_colon h.spells (hhead heq)
      rw [text_of_colon h.spells hk, List.singleton_append] at heq
      obtain rfl := (List.cons.inj heq).2
      obtain ⟨⟨type, f⟩, htype, hx⟩ := Option.bind_eq_some_iff.mp hx
      dsimp only at hx
      split at hx
      · cases hx
      · rename_i hempty
        cases hx
        refine .colon hk ?_ ?_
        · have hreads := returnType?_write h.tail hlast 0
          rw [← hreads, htype]
          rfl
        · intro u hu hbrace
          obtain ⟨us, rfl⟩ : ∃ us, ts = u :: us := by
            cases ts with
            | nil => cases hu
            | cons v us => exact ⟨us, by rw [Option.mem_some.mp hu]⟩
          rw [returnType?_brace h.tail hbrace htype] at hempty
          exact hempty rfl
    · cases hx

theorem tail?_arrow (h : Laid (t :: ts)) (ht : t.kind = .arrow) (r : Text) :
    tail? (write (t :: ts) ++ r) = some ⟨.arrow, [], 0⟩ := by
  rw [tail?, trimStart_write_cons h, text_of_arrow h.spells ht]
  rfl

theorem tail?_brace (h : Laid (t :: ts)) (ht : t.kind = .opening .brace) (r : Text) :
    tail? (write (t :: ts) ++ r) = some ⟨.body, [], 0⟩ := by
  rw [tail?, trimStart_write_cons h, text_of_opening h.spells ht]
  rfl

/-- What may be read as a tail is read as one. -/
theorem Tails.exists_tail? {x : Tail} (hx : Tails ts x) (h : Laid ts)
    (hlast : ∀ c ∈ last, isWhite c = true) :
    ∃ y, tail? (write ts ++ last) = some y ∧ y.follow = x.follow := by
  cases hx with
  | arrow ht => exact ⟨_, tail?_arrow h ht last, rfl⟩
  | brace ht => exact ⟨_, tail?_brace h ht last, rfl⟩
  | @colon t ts _ ht hreads hbrace =>
    rw [tail?, trimStart_write_cons h, text_of_colon h.spells ht, List.singleton_append]
    have htail := returnType?_write h.tail hlast 0
    rw [hreads] at htail
    obtain ⟨⟨type, f⟩, htype, hf⟩ := Option.map_eq_some_iff.mp htail
    have htrim : (trim type).isEmpty = false := by
      cases ts with
      | nil => cases hreads
      | cons u us =>
        rw [List.isEmpty_eq_false_iff]
        refine returnType?_ne_nil h.tail hlast (hbrace u rfl) ?_ htype
        intro harrow
        have hfollows := h.adjacent.1
        rw [ht, harrow] at hfollows
        cases hfollows
    simp only [htype, Option.bind_some, htrim]
    exact ⟨_, rfl, hf⟩

end Untyped

end PluginPack
