import PluginPack.Proofs.Offset.Bracket
import PluginPack.Proofs.Script.Nesting
import PluginPack.Proofs.Untyped.Bracket

/-!
# Groups in brackets

Text in which every bracket is closed by one of its kind, as a forest: groups in brackets side by
side and in one another, with plain characters, literals and comments between them. The brackets in
a literal or a comment are part of it and close nothing.

The search for a closing parenthesis has a single count for the three kinds of bracket, so it can
not tell a group from its kind. It need not: behind a whole forest the count is what it was before,
at every depth, and so the search ends at the bracket that closes the group it began with. It never
looks at what follows.
-/

namespace PluginPack

open Text

namespace Script

open Untyped (attach attach_attach attach_nil)

/-! ## Literals and comments that are closed -/

/-- What a literal is made of: a backslash with the character behind it, or a character that neither
is a backslash nor closes the literal. A newline stands by itself in templates only. -/
inductive LiteralChar (q : Quote) where
  | escaped (c : Char)
  | single (c : Char) (hslash : c ≠ '\\') (hquote : c ≠ q.val) (hline : c = '\n' → q.val = '\x60')

def LiteralChar.text {q : Quote} : LiteralChar q → Text
  | escaped c => ['\\', c]
  | single c _ _ _ => [c]

/-- A character of code that is neither a bracket nor begins a literal or a comment. -/
def isNeutral (c : Char) : Bool := !isQuote c && c != '/' && !isOpening c && !isClosing c

/-- What stands between brackets. -/
inductive Leaf where
  | neutral (c : Char) (h : isNeutral c = true)
  | literal (q : Quote) (body : List (LiteralChar q))
  | comment (body : Text) (h : ¬['*', '/'] <:+: body)

def Leaf.text : Leaf → Text
  | neutral c _ => [c]
  | literal q body => q.val :: (body.flatMap LiteralChar.text ++ [q.val])
  | comment body _ => '/' :: '*' :: (body ++ ['*', '/'])

variable {c : Char} {q : Quote} {r : Text}

theorem splitQuoted_literalChar (p : LiteralChar q) (r : Text) : splitQuoted q.val (p.text ++ r) =
    (p.text ++ (splitQuoted q.val r).1, (splitQuoted q.val r).2) := by
  cases p with
  | escaped c =>
    rw [LiteralChar.text, List.cons_append, List.singleton_append, splitQuoted]
    rfl
  | single c hslash hquote hline =>
    rw [LiteralChar.text, List.singleton_append, splitQuoted, if_neg fun h ↦ h.2 (hline h.1),
      if_neg hquote]
    · rfl
    · exact fun h ↦ absurd h hslash
    · exact fun _ _ h ↦ absurd h hslash

theorem ne_of_quote (q : Quote) : q.val ≠ '\\' ∧ q.val ≠ '\n' := by
  constructor <;> intro h <;> exact absurd q.property (by rw [h]; decide)

/-- A literal is read up to its closing quote. -/
theorem splitQuoted_body (body : List (LiteralChar q)) (r : Text) :
    splitQuoted q.val (body.flatMap LiteralChar.text ++ q.val :: r) =
      (body.flatMap LiteralChar.text ++ [q.val], r) := by
  induction body with
  | nil => exact splitQuoted_self (ne_of_quote q).1 (ne_of_quote q).2
  | cons p body ih =>
    rw [List.flatMap_cons, List.append_assoc, splitQuoted_literalChar, ih, List.append_assoc]

theorem inert?_of_isNeutral (h : isNeutral c = true) (r : Text) : inert? (c :: r) = none := by
  simp only [isNeutral, Bool.and_eq_true, Bool.not_eq_true', bne_iff_ne] at h
  exact inert?_eq_none h.1.1.1 h.1.1.2 r

theorem isOpening_of_isNeutral (h : isNeutral c = true) :
    isOpening c = false ∧ isClosing c = false := by
  simp only [isNeutral, Bool.and_eq_true, Bool.not_eq_true'] at h
  exact ⟨h.1.2, h.2⟩

theorem inert?_literal (q : Quote) (body : List (LiteralChar q)) (r : Text) :
    inert? ((Leaf.literal q body).text ++ r) = some ((Leaf.literal q body).text, r) := by
  rw [Leaf.text, List.cons_append, List.append_assoc, List.singleton_append,
    inert?_of_isQuote q.property, splitQuoted_body]

theorem inert?_comment {body : Text} (h : ¬['*', '/'] <:+: body) (r : Text) :
    inert? ((Leaf.comment body h).text ++ r) = some ((Leaf.comment body h).text, r) := by
  have hcut : cutAt? ['*', '/'] (body ++ ['*', '/'] ++ r) = some (body, r) := by
    rw [List.append_assoc]
    exact cutAt?_append (w := ['/']) (by decide) h r
  rw [Leaf.text, List.cons_append, List.cons_append, inert?, splitBlockComment, hcut]

/-- The search for the end of a bracket passes over what is no bracket. -/
theorem splitClosing?_leaf (l : Leaf) (d : Nat) (r : Text) :
    splitClosing? d (l.text ++ r) = attach l.text (splitClosing? d r) := by
  cases l with
  | neutral c h =>
    exact Untyped.splitClosing?_cons (inert?_of_isNeutral h r) (isOpening_of_isNeutral h).1
      (isOpening_of_isNeutral h).2
  | literal q body => exact Untyped.splitClosing?_inert (inert?_literal q body r)
  | comment body h => exact Untyped.splitClosing?_inert (inert?_comment h r)

/-! ## Forests -/

/-- The kinds of bracket. -/
inductive Enclosure where
  | round
  | square
  | brace
deriving DecidableEq, Repr

namespace Enclosure

def opening : Enclosure → Char
  | round => '('
  | square => '['
  | brace => '{'

def closing : Enclosure → Char
  | round => ')'
  | square => ']'
  | brace => '}'

theorem splitClosing?_opening (e : Enclosure) (d : Nat) (r : Text) :
    splitClosing? d (e.opening :: r) = attach [e.opening] (splitClosing? (d + 1) r) := by
  cases e <;> exact Untyped.splitClosing?_opening rfl rfl

/-- Any bracket is closed by any other, while one more is open. -/
theorem splitClosing?_closing (e : Enclosure) (d : Nat) (r : Text) :
    splitClosing? (d + 2) (e.closing :: r) = attach [e.closing] (splitClosing? (d + 1) r) := by
  cases e <;> exact Untyped.splitClosing?_closing rfl rfl rfl

end Enclosure

/-- Leaves and groups in a row. -/
inductive Forest where
  | nil
  | leaf (l : Leaf) (rest : Forest)
  | group (e : Enclosure) (inside rest : Forest)

namespace Forest

def text : Forest → Text
  | nil => []
  | leaf l rest => l.text ++ rest.text
  | group e inside rest => e.opening :: (inside.text ++ e.closing :: rest.text)

/-- **A forest is passed over** while a bracket is open around it, whatever follows. -/
theorem splitClosing?_text (f : Forest) (d : Nat) (r : Text) :
    splitClosing? (d + 1) (f.text ++ r) = attach f.text (splitClosing? (d + 1) r) := by
  induction f generalizing d r with
  | nil => rw [text, List.nil_append, attach_nil]
  | leaf l rest ih => rw [text, List.append_assoc, splitClosing?_leaf, ih, attach_attach]
  | group e inside rest ihinside ih =>
    rw [text, List.cons_append, List.append_assoc, List.cons_append, e.splitClosing?_opening,
      ihinside, e.splitClosing?_closing, ih, attach_attach, attach_attach, attach_attach]
    simp only [List.append_assoc, List.cons_append, List.nil_append]

/-- The parenthesis behind a forest is found. -/
theorem closeParen?_text (f : Forest) (r : Text) :
    closeParen? (f.text ++ ')' :: r) = some (f.text, r) :=
  Untyped.closeParen?_of_attach (f.splitClosing?_text 0 (')' :: r))

end Forest

/-! ## Parentheses in their places -/

/-- A group in parentheses where it stands in a text. -/
structure Place where
  front : Text
  inside : Forest
  back : Text

namespace Place

def text (p : Place) : Text := '(' :: (p.inside.text ++ [')'])

/-- The same group with more text around it. -/
def within (a z : Text) (p : Place) : Place := ⟨a ++ p.front, p.inside, p.back ++ z⟩

end Place

namespace Forest

/-- All groups in parentheses, at every depth. -/
def places : Forest → List Place
  | nil => []
  | leaf l rest => rest.places.map (·.within l.text [])
  | group e inside rest =>
    (if e = .round then [⟨[], inside, rest.text⟩] else []) ++
      inside.places.map (·.within [e.opening] (e.closing :: rest.text)) ++
      rest.places.map (·.within (e.opening :: (inside.text ++ [e.closing])) [])

theorem text_eq_of_mem_places {f : Forest} {p : Place} (h : p ∈ f.places) :
    f.text = p.front ++ (p.text ++ p.back) := by
  induction f generalizing p with
  | nil => cases h
  | leaf l rest ih =>
    obtain ⟨p, hp, rfl⟩ := List.mem_map.mp h
    simp [text, ih hp, Place.within, Place.text]
  | group e inside rest ihinside ih =>
    rw [places, List.mem_append, List.mem_append, List.mem_map, List.mem_map] at h
    rcases h with (h | ⟨p, hp, rfl⟩) | ⟨p, hp, rfl⟩
    · split at h
      · rename_i he
        subst he
        obtain rfl := List.mem_singleton.mp h
        simp [text, Place.text, Enclosure.opening, Enclosure.closing]
      · cases h
    · simp [text, ihinside hp, Place.within, Place.text]
    · simp [text, ih hp, Place.within, Place.text]

/-- **Every parenthesis is closed by its own one.** From the opening parenthesis of any group of a
forest, the search finds the parenthesis that closes the group, whatever stands in front of the
forest and whatever follows the group, in the text and by byte offsets. -/
theorem closeParen_of_mem_places (f : Forest) : ∀ p ∈ f.places,
    f.text = p.front ++ (p.text ++ p.back) ∧
      ∀ before behind,
        closeParen? (p.inside.text ++ ')' :: behind) = some (p.inside.text, behind) ∧
        Offset.closeParen (Offset.bytes (before ++ p.front ++ (p.text ++ behind)))
            (utf8Length (before ++ p.front)) =
          some (some (utf8Length (before ++ p.front ++ '(' :: p.inside.text))) := by
  intro p hp
  refine ⟨text_eq_of_mem_places hp, fun before behind ↦ ⟨closeParen?_text p.inside behind, ?_⟩⟩
  have hgroup : p.text ++ behind = '(' :: (p.inside.text ++ ')' :: behind) := by
    simp [Place.text]
  rw [hgroup, Offset.closeParen_eq, closeParen?_text, Option.map_some]

/-- A square bracket with a parenthesis in a literal, and parentheses around a comment. -/
def mixed : Forest :=
  .group .square
    (.leaf (.literal ⟨'"', rfl⟩ [.single ')' (by decide) (by decide) (by decide)]) .nil)
    (.group .round (.leaf (.comment ['('] (by decide)) .nil) .nil)

theorem closeParen_of_mem_places_mixed :
    ⟨[], mixed, ['=']⟩ ∈ (group .round mixed (leaf (.neutral '=' rfl) nil)).places ∧
      Offset.closeParen (Offset.bytes "é([\")\"](/*(*/))\x7d]".toList) 2 = some (some 15) := by
  have hmem : ⟨[], mixed, ['=']⟩ ∈ (group .round mixed (leaf (.neutral '=' rfl) nil)).places :=
    List.mem_cons_self
  exact ⟨hmem, ((closeParen_of_mem_places _ _ hmem).2 ['é'] ['\x7d', ']']).2⟩

end Forest

end Script

end PluginPack
