import PluginPack.Proofs.Text.Span
import PluginPack.Script.Literal

/-!
# What surrounds a place in a script

A place in a script lies in code, at some depth of brackets, or in a literal, or in a comment. What
surrounds it is found by reading on character by character from the beginning, so it depends on
nothing behind the place. A reading is lost where a bracket closes that was not opened, or where a
line ends in a string. Regular expressions are not told apart from divisions.

A pass that takes parts out of a script leaves what surrounds every other place as it is, if each
part is read without a change of what surrounds it.
-/

namespace PluginPack

open Text

namespace Script

/-- A character that opens a literal. -/
abbrev Quote : Type := { c : Char // isQuote c = true }

/-- What surrounds a place. The depth counts the open brackets of all three kinds; in a literal or
comment it is that of the code around it. -/
inductive Nesting where
  | code (depth : Nat)
  /-- In code, behind a character of a name. -/
  | word (depth : Nat)
  /-- In code, behind a slash that may open a comment. -/
  | slash (depth : Nat)
  | quoted (quote : Quote) (depth : Nat)
  /-- In a literal, behind a backslash. -/
  | escaped (quote : Quote) (depth : Nat)
  | lineComment (depth : Nat)
  | blockComment (depth : Nat)
  /-- In a block comment, behind an asterisk. -/
  | asterisk (depth : Nat)
  | lost
deriving DecidableEq, Repr

namespace Nesting

/-- Behind a character of code. -/
def stepCode (n : Nat) (c : Char) : Nesting :=
  if c = '/' then .slash n
  else if hquote : isQuote c = true then .quoted ⟨c, hquote⟩ n
  else if isOpening c then .code (n + 1)
  else if isClosing c then
    match n with
    | 0 => .lost
    | n + 1 => .code n
  else if isNameChar c then .word n
  else .code n

/-- Behind one more character. -/
def step : Nesting → Char → Nesting
  | code n, c | word n, c => stepCode n c
  | slash n, c =>
    if c = '/' then .lineComment n else if c = '*' then .blockComment n else stepCode n c
  | quoted q n, c =>
    if c = '\\' then .escaped q n
    else if c = q.val then .code n
    else if c = '\n' ∧ q.val ≠ '\x60' then .lost
    else .quoted q n
  | escaped q n, _ => .quoted q n
  | lineComment n, c => if c = '\n' then .code n else .lineComment n
  | blockComment n, c => if c = '*' then .asterisk n else .blockComment n
  | asterisk n, c =>
    if c = '/' then .code n else if c = '*' then .asterisk n else .blockComment n
  | lost, _ => .lost

/-- Behind a text. -/
def run (s : Nesting) (t : Text) : Nesting := t.foldl step s

variable {s : Nesting} {c : Char} {q : Quote} {n : Nat} {a t w : Text}

@[simp] theorem run_nil (s : Nesting) : s.run [] = s := rfl

@[simp] theorem run_cons (s : Nesting) (c : Char) (t : Text) : s.run (c :: t) = (s.step c).run t :=
  rfl

theorem run_append (s : Nesting) (a t : Text) : s.run (a ++ t) = (s.run a).run t :=
  List.foldl_append

theorem run_lost (t : Text) : run .lost t = .lost := by
  induction t with
  | nil => rfl
  | cons c t ih => exact ih

/-! ## White space and keywords -/

/-- White space is not a character that changes what surrounds a place. -/
theorem ne_of_isWhite (h : isWhite c = true) :
    c ≠ '/' ∧ isQuote c = false ∧ isOpening c = false ∧ isClosing c = false ∧
      isNameChar c = false := by
  have hother : ∀ d ∈ "/\"'\x60([\x7b)]\x7d".toList, c ≠ d := by
    rintro d hd rfl
    have hblack : ∀ d ∈ "/\"'\x60([\x7b)]\x7d".toList, isWhite d = false := by decide
    rw [hblack c hd] at h
    cases h
  refine ⟨hother '/' (by decide), ?_, ?_, ?_, ?_⟩
  · simp [isQuote, hother '"' (by decide), hother '\'' (by decide), hother '\x60' (by decide)]
  · simp [isOpening, hother '(' (by decide), hother '[' (by decide), hother '{' (by decide)]
  · simp [isClosing, hother ')' (by decide), hother ']' (by decide), hother '}' (by decide)]
  · refine Bool.eq_false_iff.mpr fun hname ↦ ?_
    rw [isWhite_of_isNameChar hname] at h
    cases h

theorem stepCode_of_isWhite (h : isWhite c = true) : stepCode n c = .code n := by
  obtain ⟨hslash, hquote, hopening, hclosing, hname⟩ := ne_of_isWhite h
  simp [stepCode, hslash, hquote, hopening, hclosing, hname]

theorem run_white (hw : ∀ c ∈ w, isWhite c = true) : run (.code n) w = .code n := by
  induction w with
  | nil => rfl
  | cons c w ih =>
    rw [run_cons, step, stepCode_of_isWhite (hw c List.mem_cons_self)]
    exact ih fun d hd ↦ hw d (List.mem_cons_of_mem c hd)

theorem stepCode_newline (n : Nat) : stepCode n '\n' = .code n := stepCode_of_isWhite (by decide)

/-- What may surround the beginning of a line. -/
def BeginsLine : Nesting → Prop
  | code _ | blockComment _ | quoted _ _ | lost => True
  | word _ | slash _ | escaped _ _ | lineComment _ | asterisk _ => False

theorem beginsLine_step_newline (s : Nesting) : (s.step '\n').BeginsLine := by
  cases s with
  | code n | word n | slash n =>
    have hstep : stepCode n '\n' = .code n := stepCode_newline n
    simp [step, hstep, BeginsLine]
  | quoted q n =>
    rw [step, if_neg (by decide)]
    split_ifs <;> exact trivial
  | escaped | lineComment | blockComment | asterisk | lost => exact trivial

/-- A text that holds neither quotes nor backslashes is read to its end in a literal, unless a line
ends in a string. -/
theorem run_quoted (ht : ∀ c ∈ t, c ≠ '\\' ∧ isQuote c = false) :
    run (.quoted q n) t = .quoted q n ∨ '\n' ∈ t ∧ run (.quoted q n) t = .lost := by
  induction t with
  | nil => exact .inl rfl
  | cons c t ih =>
    obtain ⟨⟨hslash, hquote⟩, ht⟩ := List.forall_mem_cons.mp ht
    have hq : c ≠ q.val := by
      rintro rfl
      rw [q.property] at hquote
      cases hquote
    rw [run_cons, step, if_neg hslash, if_neg hq]
    split_ifs with hnewline
    · exact .inr ⟨hnewline.1 ▸ List.mem_cons_self, run_lost t⟩
    · exact (ih ht).imp_right fun h ↦ ⟨List.mem_cons_of_mem c h.1, h.2⟩

theorem run_blockComment (ht : '*' ∉ t) : run (.blockComment n) t = .blockComment n := by
  induction t with
  | nil => rfl
  | cons c t ih =>
    obtain ⟨hc, ht⟩ := List.ne_and_not_mem_of_not_mem_cons ht
    rw [run_cons, step, if_neg hc.symm]
    exact ih ht

theorem run_blanks (hs : s.BeginsLine) (hw : ∀ c ∈ w, isBlank c = true) : s.run w = s := by
  have hwhite : ∀ c ∈ w, isWhite c = true := fun c hc ↦ isWhite_of_isBlank (hw c hc)
  have hnot : ∀ c, isBlank c = false → c ∉ w := fun c hc hmem ↦ by
    rw [hw c hmem] at hc
    cases hc
  cases s with
  | code n => exact run_white hwhite
  | quoted q n =>
    refine (run_quoted fun c hc ↦ ⟨?_, (ne_of_isWhite (hwhite c hc)).2.1⟩).resolve_right
      fun h ↦ hnot '\n' (by decide) h.1
    rintro rfl
    exact hnot '\\' (by decide) hc
  | blockComment n => exact run_blockComment (hnot '*' (by decide))
  | lost => exact run_lost w
  | word | slash | escaped | lineComment | asterisk => exact hs.elim

end Nesting

/-- What surrounds the end of a text. -/
def nesting (t : Text) : Nesting := .run (.code 0) t

theorem nesting_append (a t : Text) : nesting (a ++ t) = (nesting a).run t := Nesting.run_append ..

/-- A line begins in code, in a literal or in a block comment. -/
theorem beginsLine_nesting {a : Text} (h : Marker.beginsLine a.getLast? = true) :
    (nesting a).BeginsLine := by
  rcases List.eq_nil_or_concat a with rfl | ⟨a, c, rfl⟩
  · exact trivial
  · rw [List.concat_eq_append, List.getLast?_concat] at h
    have hc : c = '\n' := by simpa [Marker.beginsLine] using h
    rw [hc, List.concat_eq_append, nesting_append]
    exact Nesting.beginsLine_step_newline _

end Script

/-! ## Parts that change nothing around them -/

namespace Cut

open Script

variable {α : Type} {f : Part α → Text} {s : Nesting} {w : Text}

/-- What is written for the parts of a cut, behind the stretch `w`, has the same surroundings behind
it as the parts. -/
def EvenFrom (f : Part α → Text) (s : Nesting) (w : Text) : List (Part α × Text) → Prop
  | [] => True
  | (p, w') :: rest =>
    (s.run w).run (f p) = (s.run w).run p.lexeme ∧
      EvenFrom f ((s.run w).run p.lexeme) w' rest

/-- What is written for the parts of a cut has the same surroundings behind it as the parts. -/
def Even (f : Part α → Text) (s : Nesting) (k : Cut (Part α)) : Prop := EvenFrom f s k.first k.rest

theorem EvenFrom.run_substitute {rest : List (Part α × Text)} (h : EvenFrom f s w rest) :
    s.run (Cut.substitute f ⟨w, rest⟩) = s.run (Cut.substitute Part.lexeme ⟨w, rest⟩) := by
  induction rest generalizing s w with
  | nil => rfl
  | cons q rest ih =>
    obtain ⟨p, w'⟩ := q
    rw [substitute_cons, substitute_cons, Nesting.run_append, Nesting.run_append, h.1, ih h.2,
      Nesting.run_append, Nesting.run_append]

/-- Then the whole text has the same surroundings behind it. -/
theorem Even.run_substitute {k : Cut (Part α)} (h : k.Even f s) :
    s.run (k.substitute f) = s.run (k.substitute Part.lexeme) := EvenFrom.run_substitute h

/-- Parts at the front of a cut are as even as all of them are. -/
theorem Even.of_append {k k' : Cut (Part α)} (h : (k.append k').Even f s) : k.Even f s := by
  obtain ⟨w, rest⟩ := k
  induction rest generalizing s w with
  | nil => exact trivial
  | cons q rest ih =>
    obtain ⟨p, w'⟩ := q
    have hcut : append ⟨w, (p, w') :: rest⟩ k' = ((append ⟨w', rest⟩ k').mark p).prepend w := rfl
    rw [hcut, Even, prepend, mark, List.append_nil, EvenFrom] at h
    exact ⟨h.1, ih w' h.2⟩

theorem evenFrom_of_spans {a w : Text} {rest : List (Part α × Text)}
    (h : ∀ sp ∈ spansFrom a.length w rest, ∀ b r,
      a ++ Cut.substitute Part.lexeme ⟨w, rest⟩ = b ++ (sp.text ++ r) → sp.offset = b.length →
        (nesting b).run (f sp.part) = (nesting b).run sp.text) : EvenFrom f (nesting a) w rest := by
  induction rest generalizing a w with
  | nil => exact trivial
  | cons q rest ih =>
    obtain ⟨p, w'⟩ := q
    have hfirst : (nesting (a ++ w)).run (f p) = (nesting (a ++ w)).run p.lexeme := by
      refine h ⟨a.length + w.length, p⟩ List.mem_cons_self (a ++ w)
        (substitute Part.lexeme ⟨w', rest⟩) ?_ List.length_append.symm
      rw [substitute_cons, List.append_assoc]
      rfl
    have hrest : EvenFrom f (nesting (a ++ w ++ p.lexeme)) w' rest := by
      refine ih fun sp hsp b r hb ho ↦ h sp ?_ b r ?_ ho
      · rw [spansFrom, ← List.length_append, ← List.length_append]
        exact List.mem_cons_of_mem _ hsp
      · rw [← hb, substitute_cons]
        simp only [List.append_assoc]
    rw [nesting_append] at hrest
    rw [EvenFrom, ← nesting_append]
    exact ⟨hfirst, hrest⟩

end Cut

namespace Marker

open Script

variable {α : Type} {m : Marker α} {f : Part α → Text} {t : Text}

/-- What surrounds a part is looked at where the part was found. -/
theorem even_cut
    (h : ∀ sp ∈ m.spans t, ∀ a r, t = a ++ (sp.text ++ r) → sp.offset = a.length →
      m.find? a.getLast? (sp.text ++ r) = some (sp.part.value, r) →
        (nesting a).run (f sp.part) = (nesting a).run sp.text) :
    (m.cut t).Even f (nesting []) := by
  refine Cut.evenFrom_of_spans fun sp hsp b r hb ho ↦ ?_
  obtain ⟨a, r', ht, ha, hfind⟩ := exists_find?_of_mem_spans hsp
  have hsplit : (m.cut t).substitute Part.lexeme = t := m.substitute_lexeme_cutFrom none t
  obtain ⟨rfl, hrest⟩ := List.append_inj (ht.symm.trans (hsplit.symm.trans hb))
    (ha.symm.trans ho)
  obtain rfl := List.append_cancel_left hrest
  exact h sp hsp a r' ht ho hfind

/-- What surrounds the end of a text stays when its parts are written differently. -/
theorem nesting_substitute_cut (h : (m.cut t).Even f (nesting [])) :
    nesting ((m.cut t).substitute f) = nesting t := by
  have hsplit : (m.cut t).substitute Part.lexeme = t := m.substitute_lexeme_cutFrom none t
  rw [nesting]
  exact h.run_substitute.trans (congrArg nesting hsplit)

end Marker

end PluginPack
