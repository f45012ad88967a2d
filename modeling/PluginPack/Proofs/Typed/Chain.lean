import PluginPack.Proofs.Typed.Variable
import PluginPack.Proofs.TypeSyntax.Operand

/-!
# Chains of assertions

Assertions in a row, each to names with type arguments and array brackets that are joined to unions
and intersections. A round over a chain takes away the names behind which no assertion was taken
away just before; what all rounds leave is said without rounds. As a text, a chain is a tail, and a
name in it is read whole as the type of an assertion, while no assertion is found within it.
-/

namespace PluginPack

open Text Script TypeSyntax

namespace Typed

variable {α : Type} {c : Char} {r v w : Text}

/-! ## Types -/

/-- Names with points between them. -/
structure Path where
  first : Word
  rest : List Word

def Path.text (n : Path) : Text := n.first.text ++ n.rest.flatMap fun m ↦ '.' :: m.text

/-- Types that signs join. -/
structure Joined (α : Type) where
  first : α
  rest : List (Joint × α)

def Joined.text (f : α → Text) (t : Joined α) : Text :=
  f t.first ++ t.rest.flatMap fun p ↦ ' ' :: p.1.sign :: ' ' :: f p.2

def Joined.members (t : Joined α) : List α := t.first :: t.rest.map (·.2)

/-- The brackets of an array. -/
def arrayBrackets (n : Nat) : Text := (List.replicate n ['[', ']']).flatten

/-- A name with array brackets. -/
structure Element where
  path : Path
  arrays : Nat

def Element.text (x : Element) : Text := x.path.text ++ arrayBrackets x.arrays

/-- A name, perhaps with a type argument, with array brackets. -/
structure Reference where
  path : Path
  argument : Option (Joined Element)
  arrays : Nat

namespace Reference

def argumentText (x : Reference) : Text :=
  match x.argument with
  | none => []
  | some t => '<' :: (t.text Element.text ++ ['>'])

def text (x : Reference) : Text := x.path.text ++ (x.argumentText ++ arrayBrackets x.arrays)

/-- Whether the text ends like an operand, and not in an angle bracket. -/
def endsClosed (x : Reference) : Bool := x.argument.isNone || x.arrays != 0

/-- The name is not the word of an assertion, and no name but `const` begins with this word. -/
def isFree (x : Reference) : Bool :=
  x.text != "as".toList && (word? "const".toList x.text).all fun r ↦ r.head?.all isWordChar

end Reference

/-! ## Chains -/

/-- What stands in front of a name in a chain: the word of an assertion, or a sign. -/
inductive Link where
  | assertion
  | joint (j : Joint)
deriving DecidableEq, Repr

def Link.text : Link → Text
  | assertion => "as".toList
  | joint j => [j.sign]

/-- The text of names with links in front of them. -/
def linked (is : List (Link × Reference)) : Text :=
  is.flatMap fun i ↦ ' ' :: (i.1.text ++ ' ' :: i.2.text)

/-- The links of an assertion. -/
def Joined.links (t : Joined Reference) : List (Link × Reference) :=
  (.assertion, t.first) :: t.rest.map fun p ↦ (.joint p.1, p.2)

/-- A chain of assertions. -/
def chain (ts : List (Joined Reference)) : Text :=
  ts.flatMap fun t ↦ " as ".toList ++ t.text Reference.text

/-- What is left of a chain behind a text that ends like an operand, or does not. -/
def kept (isClosed : Bool) : List (Link × Reference) → List (Link × Reference)
  | [] => []
  | (l, x) :: is =>
    if isClosed && l == .assertion then kept isClosed is else (l, x) :: kept x.endsClosed is

/-- What a single round leaves of a chain. Behind an assertion that is taken away, the next link is
passed over. -/
def afterRound (isClosed : Bool) : List (Link × Reference) → List (Link × Reference)
  | [] => []
  | (l, x) :: is =>
    if isClosed && l == .assertion then
      match is with
      | [] => []
      | (m, y) :: is => (m, y) :: afterRound y.endsClosed is
    else (l, x) :: afterRound x.endsClosed is

theorem chain_eq (ts : List (Joined Reference)) : chain ts = linked (ts.flatMap Joined.links) := by
  induction ts with
  | nil => rfl
  | cons t ts ih =>
    rw [chain, List.flatMap_cons, ← chain, ih, List.flatMap_cons, linked, linked,
      List.flatMap_append]
    simp [Joined.links, Joined.text, Link.text, List.flatMap_map]

/-! ## Rounds -/

variable {is : List (Link × Reference)}

theorem afterRound_sublist (isClosed : Bool) (is : List (Link × Reference)) :
    (afterRound isClosed is).Sublist is := by
  fun_induction afterRound isClosed is with
  | case1 => exact .slnil
  | case2 => exact List.nil_sublist _
  | case3 _ l x _ m y is ih => exact (ih.cons_cons (m, y)).cons (l, x)
  | case4 _ l x is _ ih => exact ih.cons_cons (l, x)

theorem kept_cons_of_assertion (x : Reference) (is : List (Link × Reference)) :
    kept true ((.assertion, x) :: is) = kept true is := rfl

theorem kept_cons_of_ne {isClosed : Bool} {l : Link} (h : ¬(isClosed && l == .assertion) = true)
    (x : Reference) (is : List (Link × Reference)) :
    kept isClosed ((l, x) :: is) = (l, x) :: kept x.endsClosed is := by
  rw [kept, if_neg h]

/-- **A round changes nothing about what is left in the end**, also when the text in front came to
end like an operand. -/
theorem kept_afterRound {isClosed isClosed' : Bool} (h : isClosed = true → isClosed' = true)
    (is : List (Link × Reference)) :
    kept isClosed' (afterRound isClosed is) = kept isClosed' is := by
  -- A link that the round passes over is left or taken away in the end, and so is the rest.
  have hcons {is : List (Link × Reference)} {isClosed : Bool} (i : Link × Reference)
      (ih : ∀ {isClosed' : Bool}, (i.2.endsClosed = true → isClosed' = true) →
        kept isClosed' (afterRound i.2.endsClosed is) = kept isClosed' is) :
      kept isClosed (i :: afterRound i.2.endsClosed is) = kept isClosed (i :: is) := by
    by_cases hi : (isClosed && i.1 == .assertion) = true
    · rw [Bool.and_eq_true, beq_iff_eq] at hi
      obtain ⟨l, x⟩ := i
      obtain ⟨rfl, rfl⟩ := hi
      exact ih fun _ ↦ rfl
    · rw [kept_cons_of_ne hi, kept_cons_of_ne hi, ih id]
  fun_induction afterRound isClosed is generalizing isClosed' with
  | case1 => rfl
  | case2 isClosed l x hl =>
    rw [Bool.and_eq_true, beq_iff_eq] at hl
    rw [h hl.1, hl.2]
    rfl
  | case3 isClosed l x hl m y is ih =>
    rw [Bool.and_eq_true, beq_iff_eq] at hl
    rw [h hl.1, hl.2, kept_cons_of_assertion]
    exact hcons (m, y) ih
  | case4 isClosed l x is hl ih => exact hcons (l, x) ih

/-- When a round takes nothing away, nothing more is taken away. -/
theorem kept_eq_self {isClosed : Bool} (h : afterRound isClosed is = is) :
    kept isClosed is = is := by
  fun_induction afterRound isClosed is with
  | case1 => rfl
  | case2 => cases h
  | case3 isClosed l x hl m y is ih =>
    -- What a round leaves behind an assertion is shorter.
    have hle := (afterRound_sublist y.endsClosed is).length_le
    have hlength := congrArg List.length h
    simp only [List.length_cons] at hlength
    omega
  | case4 isClosed l x is hl ih => rw [kept_cons_of_ne hl, ih (List.cons.inj h).2]

theorem kept_eq_nil_iff {isClosed : Bool} {ts : List (Joined Reference)} (hne : ts ≠ []) :
    kept isClosed (ts.flatMap Joined.links) = [] ↔ isClosed = true ∧ ∀ t ∈ ts, t.rest = [] := by
  cases isClosed with
  | false =>
    obtain ⟨t, ts, rfl⟩ := List.exists_cons_of_ne_nil hne
    exact ⟨fun h ↦ (by cases h), fun h ↦ absurd h.1 (by decide)⟩
  | true =>
    clear hne
    rw [eq_self_iff_true, true_and]
    induction ts with
    | nil => exact ⟨fun _ t ht ↦ absurd ht List.not_mem_nil, fun _ ↦ rfl⟩
    | cons t ts ih =>
      rw [List.forall_mem_cons, ← ih, List.flatMap_cons, Joined.links, List.cons_append,
        kept_cons_of_assertion]
      cases t.rest with
      | nil => simp
      | cons p rest =>
        refine ⟨fun h ↦ ?_, fun h ↦ absurd h.1 (by simp)⟩
        cases h

/-! ## Names in a text -/

theorem Path.chars (n : Path) : ∀ c ∈ n.text, isNameChar c = true ∨ c = '.' := by
  intro c hc
  rw [text, List.mem_append, List.mem_flatMap] at hc
  rcases hc with hc | ⟨m, -, hc⟩
  · exact .inl (n.first.chars c hc)
  · rcases List.mem_cons.mp hc with rfl | hc
    · exact .inr rfl
    · exact .inl (m.chars c hc)

theorem Path.ne_nil (n : Path) : n.text ≠ [] := fun h ↦
  n.first.ne_nil (List.append_eq_nil_iff.mp h).1

theorem Path.isWhite (n : Path) : ∀ c ∈ n.text, isWhite c = false := by
  intro c hc
  rcases n.chars c hc with h | rfl
  · exact isWhite_of_isNameChar h
  · rfl

theorem Path.exists_concat (n : Path) : ∃ v c, n.text = v ++ [c] ∧ isNameChar c = true := by
  have hword (m : Word) : ∃ v c, m.text = v ++ [c] ∧ isNameChar c = true := by
    obtain ⟨v, c, hv⟩ := (List.eq_nil_or_concat m.text).resolve_left m.ne_nil
    rw [List.concat_eq_append] at hv
    exact ⟨v, c, hv, m.chars c (by simp [hv])⟩
  rcases List.eq_nil_or_concat n.rest with hrest | ⟨ms, m, hrest⟩
  · obtain ⟨v, c, hv, hc⟩ := hword n.first
    exact ⟨v, c, by rw [text, hrest, hv, List.flatMap_nil, List.append_nil], hc⟩
  · obtain ⟨v, c, hv, hc⟩ := hword m
    refine ⟨n.first.text ++ (ms.flatMap (fun m ↦ '.' :: m.text) ++ '.' :: v), c, ?_, hc⟩
    rw [text, hrest, List.concat_eq_append, List.flatMap_append, List.flatMap_singleton, hv]
    simp

theorem arrayBrackets_succ (n : Nat) : arrayBrackets (n + 1) = '[' :: ']' :: arrayBrackets n := rfl

theorem arrayBrackets_concat (n : Nat) :
    arrayBrackets (n + 1) = arrayBrackets n ++ ['['] ++ [']'] := by
  rw [arrayBrackets, List.replicate_succ', List.flatten_append]
  simp [arrayBrackets]

theorem mem_arrayBrackets {n : Nat} (h : c ∈ arrayBrackets n) : c = '[' ∨ c = ']' := by
  rw [arrayBrackets, List.mem_flatten] at h
  obtain ⟨w, hw, hc⟩ := h
  rw [List.eq_of_mem_replicate hw] at hc
  simpa using hc

/-- What may stand behind a name: white space or a semicolon. -/
def EndsName (r : Text) : Prop := ∃ c ∈ r.head?, c = ' ' ∨ c = ';'

theorem EndsName.not_mem (h : EndsName r) (hc : c ≠ ' ' ∧ c ≠ ';') : c ∉ r.head? := fun hmem ↦ by
  obtain ⟨d, hd, hmark⟩ := h
  obtain rfl := Option.mem_unique hd hmem
  exact hmark.elim hc.1 hc.2

theorem endsName_linked (is : List (Link × Reference)) : EndsName (linked is ++ [';']) := by
  cases is with
  | nil => exact ⟨';', rfl, .inr rfl⟩
  | cons i is => exact ⟨' ', rfl, .inl rfl⟩

theorem Element.chars (x : Element) :
    ∀ c ∈ x.text, (isNameChar c = true ∨ c = '.') ∨ c = '[' ∨ c = ']' := by
  intro c hc
  rw [text, List.mem_append] at hc
  exact hc.imp (x.path.chars c) mem_arrayBrackets

/-- Marks that stand in no list of arguments. -/
theorem Element.not_mem (t : Joined Element) (hc : isNameChar c = false)
    (hmark : c ∉ ['.', '[', ']', ' ', '|', '&']) : c ∉ t.text Element.text := by
  have helement (x : Element) : c ∉ x.text := fun h ↦ by
    rcases x.chars c h with (h | rfl) | rfl | rfl
    · rw [hc] at h
      cases h
    all_goals simp at hmark
  simp only [List.mem_cons, List.not_mem_nil, or_false, not_or] at hmark
  rw [Joined.text, List.mem_append, List.mem_flatMap]
  rintro (h | ⟨⟨j, x⟩, -, h⟩)
  · exact helement t.first h
  · rw [List.mem_cons, List.mem_cons, List.mem_cons] at h
    rcases h with h | h | h | h
    · exact hmark.2.2.2.1 h
    · cases j
      · exact hmark.2.2.2.2.1 h
      · exact hmark.2.2.2.2.2 h
    · exact hmark.2.2.2.1 h
    · exact helement x h

theorem typeArguments?_append {w : Text} (hopen : '<' ∉ w) (hclose : '>' ∉ w) (hline : '\n' ∉ w)
    (r : Text) : typeArguments? ('<' :: (w ++ '>' :: r)) = some r := by
  have hdrop :
      (w ++ '>' :: r).dropWhile (fun c ↦ c != '<' && c != '>' && c != '\n') = '>' :: r := by
    refine dropWhile_append_eq (fun c hc ↦ ?_) (by simp)
    rw [Bool.and_eq_true, Bool.and_eq_true, bne_iff_ne, bne_iff_ne, bne_iff_ne]
    exact ⟨⟨fun h ↦ hopen (h ▸ hc), fun h ↦ hclose (h ▸ hc)⟩, fun h ↦ hline (h ▸ hc)⟩
  rw [typeArguments?, angles?]
  exact congrArg (word? ['>']) hdrop

theorem skipArrays_append {n : Nat} (h : '[' ∉ r.head?) :
    skipArrays (arrayBrackets n ++ r) = r := by
  induction n with
  | zero =>
    rw [arrayBrackets, List.replicate_zero, List.flatten_nil, List.nil_append]
    unfold skipArrays
    split
    · exact absurd rfl h
    · rfl
  | succ n ih => exact ih

namespace Reference

variable {x : Reference}

/-- What stands behind the dotted name. -/
def suffix (x : Reference) : Text := x.argumentText ++ arrayBrackets x.arrays

theorem head?_suffix (x : Reference) : ∀ c ∈ x.suffix.head?, c = '<' ∨ c = '[' := by
  intro c hc
  rw [suffix, argumentText] at hc
  split at hc
  · rw [List.nil_append] at hc
    cases hn : x.arrays with
    | zero =>
      rw [hn] at hc
      cases hc
    | succ n =>
      rw [hn] at hc
      exact .inr (Option.mem_some.mp hc).symm
  · exact .inl (Option.mem_some.mp hc).symm

theorem stops_suffix {p : Char → Bool} (x : Reference) (hr : EndsName r)
    (hp : ∀ c ∈ ['<', '[', ' ', ';'], p c = false) : Stops p (x.suffix ++ r) := by
  intro c hc
  refine hp c ?_
  obtain ⟨d, hd, hmark⟩ := hr
  rw [List.head?_append] at hc
  cases hs : x.suffix.head? with
  | none =>
    rw [hs, Option.none_or] at hc
    obtain rfl := Option.mem_unique hd hc
    rcases hmark with rfl | rfl <;> simp
  | some e =>
    rw [hs, Option.some_or, Option.mem_some] at hc
    rcases x.head?_suffix e hs with rfl | rfl <;> simp [← hc]

theorem text_append (x : Reference) (r : Text) : x.text ++ r = x.path.text ++ (x.suffix ++ r) := by
  rw [text, List.append_assoc, suffix]

theorem stops_text (x : Reference) (r : Text) : Stops isWhite (x.text ++ r) := by
  rw [text_append]
  exact Stops.append (fun c hc ↦ x.path.isWhite c (List.mem_of_mem_head? hc)) x.path.ne_nil

theorem namedType?_text (x : Reference) (hr : EndsName r) : namedType? (x.text ++ r) = some r := by
  have hpath : some? (fun c ↦ isNameChar c || c == '.') (x.text ++ r) = some (x.suffix ++ r) := by
    rw [text_append]
    exact some?_append x.path.ne_nil (fun c hc ↦ by simpa using x.path.chars c hc)
      (x.stops_suffix hr (by decide))
  have hskip : skipArrays (arrayBrackets x.arrays ++ r) = r :=
    skipArrays_append (hr.not_mem (by decide))
  rw [namedType?, hpath, Option.map_some, suffix, argumentText]
  cases x.argument with
  | none =>
    -- Behind the name there is a square bracket, or the name is at its end.
    have hopen : '<' ∉ (arrayBrackets x.arrays ++ r).head? := by
      cases x.arrays with
      | zero => exact hr.not_mem (by decide)
      | succ n => simp [arrayBrackets_succ]
    rw [List.nil_append, optionally, typeArguments?, angles?_eq_none hopen, Option.getD_none, hskip]
  | some t =>
    have hargument :
        typeArguments? ('<' :: (t.text Element.text ++ ['>']) ++ arrayBrackets x.arrays ++ r) =
          some (arrayBrackets x.arrays ++ r) := by
      simpa using typeArguments?_append (Element.not_mem t (c := '<') (by decide) (by decide))
        (Element.not_mem t (by decide) (by decide)) (Element.not_mem t (by decide) (by decide))
        (arrayBrackets x.arrays ++ r)
    rw [optionally, hargument, Option.getD_some, hskip]

/-- **A name is read as the type of an assertion**, as far as it goes. -/
theorem assertedType?_text (h : x.isFree = true) (hr : EndsName r) :
    assertedType? (x.text ++ r) = some r := by
  rw [assertedType?]
  split
  · rename_i s hs
    split
    · exact x.namedType?_text hr
    · rename_i hnot
      -- The word `const` is the whole name, for else its next character would go on with it.
      rcases List.append_eq_append_iff.mp (word?_eq_some_iff.mp hs) with ⟨a, ha, rfl⟩ | ⟨a, ha, rfl⟩
      · cases a with
        | nil => rfl
        | cons c a =>
          obtain ⟨d, hd, hmark⟩ := hr
          obtain rfl : c = d := Option.mem_some.mp hd
          have hc : c ∈ "const".toList := by
            rw [ha]
            simp
          rcases hmark with rfl | rfl <;> exact absurd hc (by decide)
      · cases a with
        | nil => rfl
        | cons c a =>
          rw [isFree, Bool.and_eq_true, ha, word?_append] at h
          exact absurd h.2 hnot
  · exact x.namedType?_text hr

/-- The word of an assertion is not read in a name. -/
theorem keyword?_text (h : x.isFree = true) (hr : EndsName r) :
    keyword? "as".toList (x.text ++ r) = none := by
  rw [Option.eq_none_iff_forall_ne_some]
  intro s hs
  obtain ⟨w, hne, hw, -, heq⟩ := exists_of_keyword?_eq_some hs
  obtain ⟨c, w, rfl⟩ := List.exists_cons_of_ne_nil hne
  have hc := hw c List.mem_cons_self
  have hstop : Stops (fun c ↦ isNameChar c || c == '.') (c :: w ++ s) := by
    rw [List.cons_append, stops_cons, Bool.or_eq_false_iff, beq_eq_false_iff_ne]
    refine ⟨?_, ?_⟩
    · by_contra hname
      rw [isWhite_of_isNameChar (by simpa using hname)] at hc
      cases hc
    · rintro rfl
      cases hc
  -- The dotted name is the word, and white space stands behind it.
  have hpath : x.path.text = "as".toList := by
    rw [text_append] at heq
    have htake := congrArg (List.takeWhile fun c ↦ isNameChar c || c == '.') heq
    rwa [takeWhile_append_eq (fun c hc ↦ by simpa using x.path.chars c hc)
      (x.stops_suffix hr (by decide)), takeWhile_append_eq (by decide) hstop] at htake
  rw [isFree, Bool.and_eq_true, bne_iff_ne] at h
  refine h.1 ?_
  rw [text_append, hpath, List.append_cancel_left_eq] at heq
  have hsuffix : x.suffix = [] := by
    cases hs : x.suffix with
    | nil => rfl
    | cons d v =>
      rw [hs, List.cons_append, List.cons_append, List.cons.injEq] at heq
      rcases x.head?_suffix d (by rw [hs]; rfl) with rfl | rfl <;> rw [← heq.1] at hc <;> cases hc
  rw [← List.append_nil x.text, text_append, hsuffix, hpath]
  rfl

/-! ### Assertions in a name -/

theorem isSpaced_argumentText (x : Reference) :
    isSpaced assertionEnds none x.argumentText = true := by
  have helement (y : Element) : isSpaced assertionEnds none y.text = true := by
    refine isSpaced_of_black fun c hc ↦ ?_
    rcases y.chars c hc with (h | rfl) | rfl | rfl
    · exact isWhite_of_isNameChar h
    all_goals rfl
  have hrest (rest : List (Joint × Element)) : isSpaced assertionEnds none
      (rest.flatMap fun p ↦ ' ' :: p.1.sign :: ' ' :: p.2.text) = true := by
    induction rest with
    | nil => rfl
    | cons p rest ih =>
      rw [List.flatMap_cons]
      refine isSpaced_append (isSpaced_append (u := [' ', p.1.sign, ' ']) ?_ (helement p.2)) ih
      cases p.1 <;> decide
  rw [argumentText]
  cases x.argument with
  | none => rfl
  | some t =>
    have htext := isSpaced_append (helement t.first) (hrest t.rest)
    exact isSpaced_append (u := ['<']) rfl (isSpaced_append htext rfl)

/-- No assertion is found in a name, up to its last character. -/
theorem exists_passes (x : Reference) : ∃ v c, x.text = v ++ [c] ∧ endsOperand c = x.endsClosed ∧
    isWhite c = false ∧ ∀ a r, assertion.Passes (some a) v (c :: r) := by
  have hargument : isSpaced assertionEnds none (x.path.text ++ x.argumentText) = true :=
    isSpaced_append (isSpaced_of_black x.path.isWhite) x.isSpaced_argumentText
  cases harrays : x.arrays with
  | succ n =>
    -- The last character closes an array bracket, which opens in front of it.
    refine ⟨x.path.text ++ x.argumentText ++ (arrayBrackets n ++ ['[']), ']', ?_, ?_, rfl,
      fun a r ↦ ?_⟩
    · rw [text, harrays, arrayBrackets_concat]
      simp
    · rw [endsClosed, harrays]
      simp
      decide
    · refine passes_assertion_spaced (isSpaced_append hargument ?_)
        (.inr ⟨'[', by simp, rfl, rfl⟩) _
      refine isSpaced_append (isSpaced_of_black fun c hc ↦ ?_) rfl
      rcases mem_arrayBrackets hc with rfl | rfl <;> rfl
  | zero =>
    have htext : x.text = x.path.text ++ x.argumentText := by
      rw [text, harrays, arrayBrackets]
      simp
    cases h : x.argument with
    | some t =>
      have hbehind : x.argumentText = '<' :: t.text Element.text ++ ['>'] := by
        rw [argumentText, h]
        rfl
      refine ⟨x.path.text ++ '<' :: t.text Element.text, '>', ?_, ?_, rfl, fun a r ↦ ?_⟩
      · rw [htext, hbehind, List.append_assoc]
      · rw [endsClosed, h, harrays]
        rfl
      · rw [hbehind, ← List.append_assoc] at hargument
        exact (passes_assertion_spaced hargument (.inr ⟨'>', List.getLast?_concat .., rfl, rfl⟩)
          _).left
    | none =>
      obtain ⟨v, c, hv, hc⟩ := x.path.exists_concat
      have hblack := x.path.isWhite
      rw [hv, List.forall_mem_append, List.forall_mem_singleton] at hblack
      refine ⟨v, c, ?_, ?_, hblack.2, fun _ r ↦ passes_assertion_of_black hblack.1 hblack.2 _ r⟩
      · rw [htext, argumentText, h, List.append_nil, hv]
      · rw [endsClosed, h, endsOperand, hc]
        rfl

/-! ### The characters and brackets of a name -/

theorem isTrailing (x : Reference) : ∀ c ∈ x.text, TypeSyntax.isTrailing c = true := by
  have hname {c : Char} (h : isNameChar c = true ∨ c = '.') : TypeSyntax.isTrailing c = true := by
    rcases h with h | rfl
    · rw [TypeSyntax.isTrailing, h, Bool.true_or]
    · rfl
  have hbracket {c : Char} (h : c = '[' ∨ c = ']') : TypeSyntax.isTrailing c = true := by
    rcases h with rfl | rfl <;> rfl
  have helement (y : Element) : ∀ c ∈ y.text, TypeSyntax.isTrailing c = true := fun c hc ↦
    (y.chars c hc).elim hname hbracket
  have hargument (t : Joined Element) :
      ∀ c ∈ t.text Element.text, TypeSyntax.isTrailing c = true := by
    rw [Joined.text, List.forall_mem_append]
    refine ⟨helement t.first, fun c hc ↦ ?_⟩
    obtain ⟨p, -, hc⟩ := List.mem_flatMap.mp hc
    rw [List.mem_cons, List.mem_cons, List.mem_cons] at hc
    rcases hc with rfl | rfl | rfl | hc
    · rfl
    · cases p.1 <;> rfl
    · rfl
    · exact helement p.2 c hc
  rw [text, List.forall_mem_append, List.forall_mem_append]
  refine ⟨fun c hc ↦ hname (x.path.chars c hc), ?_, fun c hc ↦ hbracket (mem_arrayBrackets hc)⟩
  rw [argumentText]
  cases x.argument with
  | none => simp
  | some t => simpa using ⟨rfl, fun c hc ↦ hc.elim (hargument t c) fun h ↦ h ▸ rfl⟩

theorem nested (x : Reference) : Nested Tree.isCodeMark Tree.isCodeMark x.text := by
  have hword (m : Word) : Nested Tree.isCodeMark Tree.isCodeMark m.text :=
    .of_ordinary fun c hc ↦ ⟨m.isOrdinary c hc, by
      rw [Tree.isCodeMark, bne_iff_ne]
      rintro rfl
      cases m.chars _ hc⟩
  have hpath (n : Path) : Nested Tree.isCodeMark Tree.isCodeMark n.text := by
    refine (hword n.first).append ?_
    induction n.rest with
    | nil => exact .nil
    | cons m ms ih => exact (Nested.ordinary rfl rfl (hword m)).append ih
  have hbrackets (n : Nat) : Nested Tree.isCodeMark Tree.isCodeMark (arrayBrackets n) := by
    induction n with
    | zero => exact .nil
    | succ n ih => exact .group (w := []) .square rfl .nil ih
  have helement (y : Element) : Nested Tree.isCodeMark Tree.isCodeMark y.text :=
    (hpath y.path).append (hbrackets y.arrays)
  have hargument (t : Joined Element) :
      Nested Tree.isCodeMark Tree.isCodeMark (t.text Element.text) := by
    refine (helement t.first).append ?_
    induction t.rest with
    | nil => exact .nil
    | cons p rest ih =>
      refine (Nested.append (u := [' ', p.1.sign, ' ']) ?_ (helement p.2)).append ih
      exact .of_ordinary (by cases p.1 <;> decide)
  refine (hpath x.path).append (.append ?_ (hbrackets x.arrays))
  rw [argumentText]
  cases x.argument with
  | none => exact .nil
  | some t => exact .brackets .angle rfl (hargument t)

end Reference

/-! ## A chain as a tail -/

theorem isTrailing_linked (is : List (Link × Reference)) :
    ∀ c ∈ linked is ++ [';'], isTrailing c = true := by
  have hlink (l : Link) : ∀ c ∈ l.text, isTrailing c = true := by
    rcases l with _ | _ | _ <;> decide
  intro c hc
  rw [linked, List.mem_append, List.mem_flatMap] at hc
  rcases hc with ⟨i, -, hc⟩ | hc
  · rw [List.mem_cons, List.mem_append, List.mem_cons] at hc
    rcases hc with rfl | hc | rfl | hc
    · rfl
    · exact hlink i.1 c hc
    · rfl
    · exact i.2.isTrailing c hc
  · rw [List.mem_singleton.mp hc]
    rfl

theorem nested_linked (is : List (Link × Reference)) :
    Nested Tree.isCodeMark Tree.isCodeMark (linked is) := by
  induction is with
  | nil => exact .nil
  | cons i is ih =>
    have hlink : Nested Tree.isCodeMark Tree.isCodeMark (' ' :: (i.1.text ++ [' '])) :=
      .of_ordinary (by rcases i.1 with _ | _ | _ <;> decide)
    have hall := hlink.append (i.2.nested.append ih)
    rw [linked, List.flatMap_cons]
    simpa [linked] using hall

theorem isTail_linked (is : List (Link × Reference)) : IsTail (linked is ++ [';']) where
  chars := isTrailing_linked is
  head := endsName_linked is
  annotation d := by
    have htakes (d : Nat) (c : Char) (hc : Tree.isCodeMark c = true) : goesOn (d + 1) c = true :=
      goesOn_succ d (bne_iff_ne.mp hc)
    have hstep : annotationStep (d + 1) (linked is ++ [';']) = none :=
      (scans_annotation?.nested (nested_linked is) (htakes d) (fun _ d ↦ htakes d) [';']).trans rfl
    exact Option.map_eq_none_iff.mp hstep

end Typed

end PluginPack
