import Mathlib.Data.List.Forall2
import PluginPack.Proofs.Registry.Literal
import PluginPack.Registry.Script

/-!
# The tokens of what a registration writes

What the scanner makes of a registration, piece by piece: a quoted text is one token whatever stands
in it, numbers and identifiers are tokens of their own as long as no further letter or digit comes
behind them, and the separators between members and items leave nothing but commas.
-/

namespace PluginPack.Registry

open Text

/-! ## Scanning in parts -/

theorem Scan.run?_append {s s' s'' : Scan} {t u : Text} {ts us : List Token}
    (ht : s.run? t = some (ts, s')) (hu : s'.run? u = some (us, s'')) :
    s.run? (t ++ u) = some (ts ++ us, s'') := by
  induction t generalizing s ts with
  | nil =>
    rw [run?, Option.some_inj, Prod.mk.injEq] at ht
    obtain ⟨rfl, rfl⟩ := ht
    exact hu
  | cons c t ih =>
    rw [run?, Option.bind_eq_some_iff] at ht
    obtain ⟨p, hp, ht⟩ := ht
    obtain ⟨q, hq, he⟩ := Option.map_eq_some_iff.mp ht
    rw [Prod.mk.injEq] at he
    obtain ⟨rfl, rfl⟩ := he
    rw [List.cons_append, run?, hp, Option.bind_some, ih hq, Option.map_some, List.append_assoc]

theorem tokens?_eq_some_iff {t : Text} {ts : List Token} :
    tokens? t = some ts ↔ Scan.between.run? t = some (ts, .between) := by
  rw [tokens?]
  constructor
  · intro h
    split at h
    · rename_i us hrun
      rw [hrun, Option.some_inj.mp h]
    · exact absurd h (by simp)
  · intro h
    rw [h]

/-! ## Quoted texts -/

/-- A character reads back from the way it is written inside quotes. -/
theorem Scan.run?_escapeChar (read : Text) (c : Char) :
    (inText read).run? (escapeChar c) = some ([], inText (read ++ [c])) := by
  -- The five characters that are escaped take two steps, all others one.
  by_cases h₁ : c = '\\'
  · subst h₁; rfl
  by_cases h₂ : c = '"'
  · subst h₂; rfl
  by_cases h₃ : c = '\n'
  · subst h₃; rfl
  by_cases h₄ : c = '\r'
  · subst h₄; rfl
  by_cases h₅ : c = '\t'
  · subst h₅; rfl
  simp [escapeChar, run?, step?, h₁, h₂, h₃, h₄]

theorem Scan.run?_escape (read t : Text) :
    (inText read).run? (escape t) = some ([], inText (read ++ t)) := by
  induction t generalizing read with
  | nil => rw [List.append_nil]; rfl
  | cons c t ih =>
    rw [escape, List.flatMap_cons, ← escape]
    have h := run?_append (run?_escapeChar read c) (ih (read ++ [c]))
    rwa [List.append_assoc, List.singleton_append] at h

/-- The quotes of a text can not be closed from inside: whatever the text, it is one token. -/
theorem Scan.run?_quoted (t : Text) : between.run? (quoted t) = some ([.text t], between) := by
  have hopen : between.run? ['"'] = some ([], inText []) := rfl
  have hclose : (inText t).run? ['"'] = some ([.text t], between) := rfl
  exact run?_append (run?_append hopen (run?_escape [] t)) hclose

/-! ## Numbers and names -/

theorem Scan.run?_digits {t : Text} (ht : ∀ c ∈ t, c.isDigit) (n : Nat) :
    (inNumber n).run? t = some ([], inNumber (Nat.ofDigitChars 10 t n)) := by
  induction t generalizing n with
  | nil => rfl
  | cons c t ih =>
    rw [run?, step?, if_pos (ht c List.mem_cons_self), Option.bind_some,
      ih fun d hd ↦ ht d (List.mem_cons_of_mem c hd), Nat.ofDigitChars_cons]
    rfl

theorem isAsciiWhite_of_isIdentifierChar {c : Char} (hc : isIdentifierChar c = true) :
    isAsciiWhite c = false := by
  by_contra hw
  simp only [isAsciiWhite, Bool.not_eq_false, Bool.or_eq_true, beq_iff_eq] at hw
  rcases hw with (((rfl | rfl) | rfl) | rfl) | rfl <;> exact absurd hc (by decide)

theorem isIdentifierChar_of_isDigit {c : Char} (hc : c.isDigit = true) :
    isIdentifierChar c = true := by
  rw [isIdentifierChar, Char.isAlphanum, hc, Bool.or_true, Bool.true_or, Bool.true_or]

theorem isIdentifierChar_of_isNameStart {c : Char} (hc : isNameStart c = true) :
    isIdentifierChar c = true := by
  rw [isNameStart, Bool.or_assoc, Bool.or_eq_true] at hc
  rw [isIdentifierChar, Char.isAlphanum, Bool.or_assoc, Bool.or_eq_true, Bool.or_eq_true]
  exact hc.imp_left Or.inl

theorem Scan.begin?_digit {c : Char} (hc : c.isDigit = true) :
    begin? c = some ([], inNumber (c.toNat - '0'.toNat)) := by
  have hq : c ≠ '"' := by
    rintro rfl
    exact absurd hc (by decide)
  rw [begin?, isAsciiWhite_of_isIdentifierChar (isIdentifierChar_of_isDigit hc),
    if_neg Bool.false_ne_true, if_neg hq, if_pos hc]

theorem Scan.begin?_nameStart {c : Char} (hc : isNameStart c = true) :
    begin? c = some ([], inName [c]) := by
  have hq : c ≠ '"' := by
    rintro rfl
    exact absurd hc (by decide)
  have hd : ¬c.isDigit = true := by
    intro hd
    unfold isNameStart Char.isAlpha Char.isUpper Char.isLower at hc
    unfold Char.isDigit at hd
    simp only [Bool.or_eq_true, Bool.and_eq_true, decide_eq_true_eq, beq_iff_eq,
      UInt32.le_iff_toNat_le] at hc hd
    rcases hc with (hc | rfl) | rfl
    -- The digits end before the letters begin.
    · have h9 : '9'.val.toNat = 57 := rfl
      have hA : 'A'.val.toNat = 65 := rfl
      have ha : 'a'.val.toNat = 97 := rfl
      omega
    · exact absurd hd (by decide)
    · exact absurd hd (by decide)
  rw [begin?, isAsciiWhite_of_isIdentifierChar (isIdentifierChar_of_isNameStart hc),
    if_neg Bool.false_ne_true, if_neg hq, if_neg hd, if_pos hc]

theorem Scan.run?_ofNat (n : Nat) : between.run? (Text.ofNat n) = some ([], inNumber n) := by
  have hdigits : ∀ c ∈ Text.ofNat n, c.isDigit = true := fun c hc ↦
    Nat.isDigit_of_mem_toDigits (by decide) (by decide) hc
  have hvalue : Nat.ofDigitChars 10 (Text.ofNat n) 0 = n :=
    Nat.ofDigitChars_toDigits (by decide) (by decide)
  obtain ⟨c, t, ht⟩ := List.exists_cons_of_ne_nil (Nat.toDigits_ne_nil (n := n) (b := 10))
  rw [Text.ofNat, ht] at hdigits hvalue ⊢
  rw [Nat.ofDigitChars_cons, Nat.mul_zero, Nat.zero_add] at hvalue
  have hfirst : between.step? c = _ := begin?_digit (hdigits c List.mem_cons_self)
  rw [run?, hfirst, Option.bind_some, run?_digits fun d hd ↦ hdigits d (List.mem_cons_of_mem c hd),
    hvalue]
  rfl

theorem Scan.run?_nameChars {t : Text} (ht : ∀ c ∈ t, isIdentifierChar c = true) (read : Text) :
    (inName read).run? t = some ([], inName (read ++ t)) := by
  induction t generalizing read with
  | nil => rw [List.append_nil]; rfl
  | cons c t ih =>
    rw [run?, step?, if_pos (ht c List.mem_cons_self), Option.bind_some,
      ih fun d hd ↦ ht d (List.mem_cons_of_mem c hd), List.append_assoc]
    rfl

theorem Scan.run?_identifier {t : Text} (ht : isIdentifier t = true) :
    between.run? t = some ([], inName t) := by
  match t with
  | [] => exact absurd ht (by decide)
  | c :: r =>
    rw [isIdentifier, Bool.and_eq_true, List.all_eq_true] at ht
    have hfirst : between.step? c = _ := begin?_nameStart ht.1
    rw [run?, hfirst, Option.bind_some, run?_nameChars ht.2]
    rfl

/-! ## Pieces of a text -/

/-- Whether a text begins with a character at which numbers and names stop. -/
def stops : Text → Bool
  | [] => false
  | c :: _ => !isIdentifierChar c

theorem stops_append {t : Text} (ht : stops t = true) (u : Text) : stops (t ++ u) = true := by
  match t with
  | [] => exact absurd ht (by decide)
  | c :: r => exact ht

/-- In front of a text that stops numbers and names, a text stands for the tokens. -/
def Writes (t : Text) (ts : List Token) : Prop :=
  ∀ r us, stops r = true → tokens? r = some us → tokens? (t ++ r) = some (ts ++ us)

theorem Writes.of_run? {t : Text} {ts : List Token}
    (ht : Scan.between.run? t = some (ts, .between)) : Writes t ts := by
  intro r us _ hr
  exact tokens?_eq_some_iff.mpr (Scan.run?_append ht (tokens?_eq_some_iff.mp hr))

/-- A number or a name ends in front of a text that stops it. -/
theorem Writes.of_open {t : Text} {s : Scan} {k : Token}
    (ht : Scan.between.run? t = some ([], s))
    (hs : ∀ c, isIdentifierChar c = false →
      s.step? c = (Scan.begin? c).map fun p ↦ (k :: p.1, p.2)) : Writes t [k] := by
  intro r us hstop hr
  have hne : r ≠ [] := by
    rintro rfl
    exact absurd hstop (by decide)
  obtain ⟨c, r, rfl⟩ := List.exists_cons_of_ne_nil hne
  have hc : isIdentifierChar c = false := by simpa [stops] using hstop
  rw [tokens?_eq_some_iff, Scan.run?, Option.bind_eq_some_iff] at hr
  obtain ⟨p, hp, hr⟩ := hr
  -- The character that ends the token also begins what stands behind it.
  have hstep : s.step? c = some (k :: p.1, p.2) := by
    rw [hs c hc, show Scan.begin? c = some p from hp, Option.map_some]
  obtain ⟨q, hq, he⟩ := Option.map_eq_some_iff.mp hr
  rw [Prod.mk.injEq] at he
  have hrun : s.run? (c :: r) = some (k :: us, .between) := by
    rw [Scan.run?, hstep, Option.bind_some, hq, Option.map_some, List.cons_append, he.1, he.2]
  have h := Scan.run?_append ht hrun
  exact tokens?_eq_some_iff.mpr h

theorem writes_ofNat (n : Nat) : Writes (Text.ofNat n) [.number n] := by
  refine .of_open (Scan.run?_ofNat n) ?_
  intro c hc
  have hd : ¬c.isDigit = true := fun h ↦
    Bool.false_ne_true (hc.symm.trans (isIdentifierChar_of_isDigit h))
  rw [Scan.step?, if_neg hd, hc, if_neg Bool.false_ne_true]

theorem writes_identifier {t : Text} (ht : isIdentifier t = true) : Writes t [.name t] := by
  refine .of_open (Scan.run?_identifier ht) ?_
  intro c hc
  rw [Scan.step?, hc, if_neg Bool.false_ne_true]

/-- One piece behind the other, where the first one can not run into the second. -/
theorem Writes.append {t u : Text} {ts us : List Token} (ht : Writes t ts) (hu : Writes u us)
    (hstop : stops u = true) : Writes (t ++ u) (ts ++ us) := by
  intro r vs hr hvs
  rw [List.append_assoc, List.append_assoc]
  exact ht _ _ (stops_append hstop r) (hu r vs hr hvs)

theorem Writes.append_of_run? {t u : Text} {ts us : List Token}
    (ht : Scan.between.run? t = some (ts, .between)) (hu : Writes u us) :
    Writes (t ++ u) (ts ++ us) := by
  intro r vs hr hvs
  rw [List.append_assoc, List.append_assoc, tokens?_eq_some_iff]
  exact Scan.run?_append ht (tokens?_eq_some_iff.mp (hu r vs hr hvs))

theorem writes_nil : Writes [] [] := fun _ _ _ hr ↦ hr

/-- What stands around and between pieces that two marks enclose. -/
structure Encloses (l r : Mark) (opening separator closing : Text) : Prop where
  opens : Scan.between.run? opening = some ([.mark l], .between)
  separates : Scan.between.run? separator = some ([.mark .comma], .between)
  closes : Scan.between.run? closing = some ([.mark r], .between)
  stopsPiece : stops separator = true
  stopsLast : stops closing = true

variable {l r : Mark} {opening separator closing : Text} {ts : List Text}

theorem Encloses.writes_intercalate (h : Encloses l r opening separator closing)
    {us : List (List Token)} (hts : List.Forall₂ Writes ts us) :
    Writes (separator.intercalate ts) ([.mark .comma].intercalate us) := by
  induction hts with
  | nil => exact writes_nil
  | @cons t u ts us ht hts ih =>
    cases hts with
    | nil => rwa [List.intercalate_singleton, List.intercalate_singleton]
    | cons _ _ =>
      rw [List.intercalate_cons_cons, List.intercalate_cons_cons, List.append_assoc,
        List.append_assoc]
      exact ht.append (.append_of_run? h.separates ih) (stops_append h.stopsPiece _)

theorem Encloses.writes (h : Encloses l r opening separator closing) {us : List (List Token)}
    (hts : List.Forall₂ Writes ts us) :
    Writes (opening ++ separator.intercalate ts ++ closing)
      (.mark l :: [.mark .comma].intercalate us ++ [.mark r]) := by
  have hpieces := Writes.append_of_run? h.opens (h.writes_intercalate hts)
  exact hpieces.append (.of_run? h.closes) h.stopsLast

/-! ## Literals -/

/-- A text that is read as a literal. -/
def Spells (t : Text) (l : Literal) : Prop := Writes t l.tokens

/-- A text that is read as a member of an object. -/
def SpellsMember (t : Text) (m : Text × Literal) : Prop :=
  Writes t (.name m.1 :: .mark .colon :: m.2.tokens)

theorem spells_quoted (t : Text) : Spells (quoted t) (.text t) := by
  rw [Spells, Literal.tokens]
  exact .of_run? (Scan.run?_quoted t)

theorem spells_ofNat (n : Nat) : Spells (Text.ofNat n) (.number n) := by
  rw [Spells, Literal.tokens]
  exact writes_ofNat n

theorem spells_name {t : Text} (ht : isIdentifier t = true) : Spells t (.name t) := by
  rw [Spells, Literal.tokens]
  exact writes_identifier ht

theorem Encloses.spells_list (h : Encloses .leftBracket .rightBracket opening separator closing)
    {ls : List Literal} (hts : List.Forall₂ Spells ts ls) :
    Spells (opening ++ separator.intercalate ts ++ closing) (.list ls) := by
  rw [Spells, Literal.tokens]
  exact h.writes (List.forall₂_map_right_iff.mpr hts)

theorem Encloses.spells_object (h : Encloses .leftBrace .rightBrace opening separator closing)
    {ms : List (Text × Literal)} (hts : List.Forall₂ SpellsMember ts ms) :
    Spells (opening ++ separator.intercalate ts ++ closing) (.object ms) := by
  rw [Spells, Literal.tokens]
  exact h.writes (List.forall₂_map_right_iff.mpr hts)

theorem spellsMember_append {k v : Text} {l : Literal} (hk : isIdentifier k = true)
    (hv : Spells v l) : SpellsMember (k ++ ": ".toList ++ v) (k, l) := by
  have hcolon : Scan.between.run? ": ".toList = some ([.mark .colon], .between) := rfl
  rw [List.append_assoc]
  exact (writes_identifier hk).append (.append_of_run? hcolon hv) rfl

theorem spellsMember_member {k : String} {v : Text} {l : Literal}
    (hk : isIdentifier k.toList = true) (hv : Spells v l) :
    SpellsMember (member k v) (k.toList, l) := spellsMember_append hk hv

theorem spells_inlineObject {ms : List (Text × Literal)} (h : List.Forall₂ SpellsMember ts ms) :
    Spells (inlineObject ts) (.object ms) :=
  Encloses.spells_object ⟨rfl, rfl, rfl, rfl, rfl⟩ h

theorem spells_inlineList {ls : List Literal} (h : List.Forall₂ Spells ts ls) :
    Spells (inlineList ts) (.list ls) := by
  have hbrackets : Encloses .leftBracket .rightBracket ['['] ", ".toList [']'] :=
    ⟨rfl, rfl, rfl, rfl, rfl⟩
  exact hbrackets.spells_list h

/-- A list with a line for each item. Without items it is written as on one line. -/
theorem spells_blockList {ls : List Literal} (h : List.Forall₂ Spells ts ls) :
    Spells (blockList ts) (.list ls) := by
  by_cases hts : ts = []
  · have h₀ := spells_inlineList h
    rw [hts] at h₀
    rwa [blockList, if_pos hts]
  · rw [blockList, if_neg hts]
    exact Encloses.spells_list ⟨rfl, rfl, rfl, rfl, rfl⟩ h

end PluginPack.Registry
