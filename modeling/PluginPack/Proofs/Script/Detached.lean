import PluginPack.Proofs.Script.KeptLiteral
import PluginPack.Proofs.Script.LocalImport
import PluginPack.Proofs.Script.Statement

/-!
# Which lines leave a script

Local dependency statements are detached from a script by whole lines: what is removed are ranges
from the beginning of a line to the end of one, each with a single statement in it, and what is left
is the script without them. In a script that is written as statements and lines of other code, the
ranges are exactly the statements that name a local specifier.
-/

namespace PluginPack

open Text

/-! ## Taking spans out of a text -/

/-- What is left when spans are taken out of a text in front of which `o` characters stand. -/
def without {α : Type} (o : Nat) : List (Span α) → Text → Text
  | [], t => t
  | s :: ss, t => t.take (s.offset - o) ++ without s.ends ss (t.drop (s.ends - o))

/-- Leaving parts out of a cut is taking their spans out of the text. -/
theorem substitute_eq_without {α : Type} (gone : Part α → Bool) (o : Nat) (w : Text)
    (rest : List (Part α × Text)) :
    Cut.substitute (fun p ↦ if gone p then [] else p.lexeme) ⟨w, rest⟩ =
      without o ((Cut.spansFrom o w rest).filter fun s ↦ gone s.part)
        (Cut.substitute Part.lexeme ⟨w, rest⟩) := by
  induction rest generalizing o w with
  | nil => rfl
  | cons q rest ih =>
    obtain ⟨p, w'⟩ := q
    by_cases hgone : gone p = true
    · have hends : (⟨o + w.length, p⟩ : Span α).ends - o = (w ++ p.lexeme).length := by
        simp only [Span.ends, Span.text, List.length_append]
        omega
      have hoffset : (⟨o + w.length, p⟩ : Span α).offset - o = w.length :=
        Nat.add_sub_cancel_left ..
      rw [Cut.substitute_cons, Cut.substitute_cons, if_pos hgone, List.nil_append, Cut.spansFrom,
        List.filter_cons_of_pos (by exact hgone), without, hends, hoffset, List.take_left,
        ← List.append_assoc, List.drop_left, ih (o + w.length + p.lexeme.length)]
      rfl
    · -- A part that stays is text like that around it.
      have hspans : Cut.spansFrom (o + w.length + p.lexeme.length) w' rest =
          Cut.spansFrom o (w ++ (p.lexeme ++ w')) rest := by
        rw [Cut.spansFrom_append, Cut.spansFrom_append]
      rw [Cut.substitute_cons, Cut.substitute_cons, if_neg hgone, Cut.spansFrom,
        List.filter_cons_of_neg (by exact hgone), hspans, ← Cut.substitute_prepend,
        ← Cut.substitute_prepend, ← Cut.substitute_prepend, ← Cut.substitute_prepend]
      exact ih o (w ++ (p.lexeme ++ w'))

namespace Script

/-! ## Scripts of statements and lines -/

/-- A piece of a script: a line of other code, or a statement. -/
inductive Piece where
  | line (t : Text)
  | statement (s : Statement)
deriving DecidableEq, Repr

namespace Piece

def text : Piece → Text
  | line t => t
  | statement s => s.text

/-- Other code does not begin as an import or an export does. -/
def IsWellFormed : Piece → Prop
  | line t => '\n' ∉ t ∧ ¬Opens "import".toList t ∧ ¬Opens "export".toList t
  | statement s => s.IsRead

instance : (p : Piece) → Decidable p.IsWellFormed
  | line _ => inferInstanceAs (Decidable (_ ∧ _ ∧ _))
  | statement s => inferInstanceAs (Decidable s.IsRead)

end Piece

/-- What stands between a piece and those that follow it. -/
def ending : List Piece → Text
  | [] => []
  | _ :: _ => ['\n']

/-- The text of a script. The last piece has no newline behind it. -/
def written : List Piece → Text
  | [] => []
  | p :: ps => p.text ++ ending ps ++ written ps

/-- The statements of a script that begins behind `o` characters, each with its newline. -/
def statements (o : Nat) : List Piece → List (Span Text)
  | [] => []
  | .line t :: ps => statements (o + (t ++ ending ps).length) ps
  | .statement s :: ps =>
    ⟨o, ⟨s.text ++ ending ps, s.specifier⟩⟩ :: statements (o + (s.text ++ ending ps).length) ps

def localStatements (ps : List Piece) : List (Span Text) :=
  (statements 0 ps).filter fun s ↦ isLocalSpecifier s.part.value

/-! ## Finding the statements -/

variable {p : Piece} {ps : List Piece} {s : Statement} {t : Text} {source : Text} {st : Span Text}

/-- The pieces behind an ending begin a line. -/
theorem ending_cases (ps : List Piece) :
    ending ps = ['\n'] ∨ ending ps = [] ∧ written ps = [] := by
  cases ps with
  | nil => exact .inr ⟨rfl, rfl⟩
  | cons p ps => exact .inl rfl

theorem cutFrom_ending (t : Text) (ps : List Piece) :
    dependency.cutFrom (t ++ ending ps).getLast? (written ps) = dependency.cut (written ps) := by
  rcases ending_cases ps with hending | ⟨-, hnil⟩
  · rw [hending, List.getLast?_concat, dependency, Marker.cutFrom_ofLine_eq_cut rfl]
  · rw [hnil, Marker.cut, Marker.cutFrom_nil, Marker.cutFrom_nil]

/-- A line of other code is passed over. -/
theorem cut_line (ht : (Piece.line t).IsWellFormed) (ps : List Piece) :
    dependency.cut (t ++ ending ps ++ written ps) =
      (dependency.cut (written ps)).prepend (t ++ ending ps) := by
  obtain ⟨hline, himport, hexport⟩ := ht
  by_cases hne : t ++ ending ps = []
  · rw [hne, List.nil_append]
    rfl
  have hopens : ∀ {k : Text}, '\n' ∉ k → ¬Opens k t → ¬Opens k (t ++ ending ps ++ written ps) := by
    intro k hk ht
    rcases ending_cases ps with hending | ⟨hending, hnil⟩
    · rw [hending, List.append_assoc, List.singleton_append, opens_append_newline hk]
      exact ht
    · rwa [hending, hnil, List.append_nil, List.append_nil]
  have hbelow : ∀ u v, t ++ ending ps = u ++ '\n' :: v → v ≠ [] →
      dependency? (v ++ written ps) = none := by
    intro u v huv hv
    rcases ending_cases ps with hending | ⟨hending, -⟩
    · rw [hending] at huv
      exact absurd (Marker.eq_nil_of_append_newline hline huv) hv
    · rw [hending, List.append_nil] at huv
      exact absurd (huv ▸ List.mem_append_right u List.mem_cons_self) hline
  rw [Marker.cut, dependency, Marker.cutFrom_ofLine_append hne
    (fun _ ↦ dependency?_eq_none (hopens (by decide) himport) (hopens (by decide) hexport)) hbelow,
    ← dependency]
  exact congrArg (Cut.prepend _) (cutFrom_ending t ps)

/-- A statement is found, and the search goes on behind its line. -/
theorem cut_statement (hs : s.IsRead) (ps : List Piece) :
    dependency.cut (s.text ++ ending ps ++ written ps) =
      (dependency.cut (written ps)).mark ⟨s.text ++ ending ps, s.specifier⟩ := by
  have hread :
      dependency? (s.text ++ ending ps ++ written ps) = some (s.specifier, written ps) := by
    rw [List.append_assoc]
    refine s.dependency?_text_append hs ?_
    rcases ending_cases ps with hending | ⟨hending, hnil⟩
    · exact .inl (by rw [hending]; rfl)
    · exact .inr ⟨by rw [hending, hnil]; rfl, hnil⟩
  have hfind : dependency.find? none (s.text ++ ending ps ++ written ps) =
      some (s.specifier, written ps) := hread
  rw [Marker.cut, Marker.cutFrom_of_some _ hfind, Marker.consumed_left, cutFrom_ending]

theorem spansFrom_written (hps : ∀ p ∈ ps, p.IsWellFormed) (o : Nat) :
    Cut.spansFrom o (dependency.cut (written ps)).first (dependency.cut (written ps)).rest =
      statements o ps := by
  induction ps generalizing o with
  | nil => rw [written, Marker.cut, Marker.cutFrom_nil]; rfl
  | cons p ps ih =>
    obtain ⟨hp, hrest⟩ := List.forall_mem_cons.mp hps
    cases p with
    | line t =>
      rw [written, Piece.text, cut_line hp, statements, ← ih hrest]
      exact Cut.spansFrom_append o _ _ _
    | statement s =>
      rw [written, Piece.text, cut_statement hp, Cut.spansFrom_mark, ih hrest]
      rfl

/-! ## What is removed -/

/-- Whole lines of a script that are one statement with a local specifier. -/
def IsLocalStatement (source : Text) (l : Span Text) : Prop :=
  ∃ (s : Statement) (a r : Text), s.IsRead ∧ s.specifier = l.part.value ∧
    isLocalSpecifier l.part.value = true ∧ source = a ++ (l.text ++ r) ∧ l.offset = a.length ∧
      (a = [] ∨ a.getLast? = some '\n') ∧ (l.text = s.text ++ ['\n'] ∨ l.text = s.text ∧ r = [])

theorem isLocalStatement_of_mem_localSpans (h : st ∈ localSpans source) :
    IsLocalStatement source st := by
  obtain ⟨a, r, hsource, ho, hbegins, hread, hlocal⟩ := exists_of_mem_localSpans h
  obtain ⟨s, t', hs, hspecifier, htext, ht'⟩ := dependency?_eq_some_iff.mp hread
  refine ⟨s, a, r, hs, hspecifier, hlocal, hsource, ho, ?_, ?_⟩
  · cases ha : a.getLast? with
    | none => exact .inl (List.getLast?_eq_none_iff.mp ha)
    | some c =>
      rw [ha] at hbegins
      exact .inr (by simpa [Marker.beginsLine] using hbegins)
  · rcases ht' with rfl | ⟨rfl, rfl⟩
    · have hline : st.text ++ r = s.text ++ ['\n'] ++ r := by
        rw [htext, List.append_assoc, List.singleton_append]
      exact .inl (List.append_cancel_right hline)
    · rw [List.append_nil, List.append_nil] at htext
      exact .inr ⟨htext, rfl⟩

theorem detachLocal_eq (source : Text) :
    detachLocal source = ⟨((localSpans source).map (·.part.value)).eraseDups,
      without 0 (localSpans source) source⟩ := by
  have hspecifiers : ((dependency.cut source).parts.map (·.value)).filter isLocalSpecifier =
      (localSpans source).map (·.part.value) := by
    rw [Cut.parts, ← Cut.map_part_spansFrom 0 (dependency.cut source).first, List.map_map,
      List.filter_map]
    rfl
  have hcode : (dependency.cut source).substitute keepForeign =
      without 0 (localSpans source) source := by
    have hsubstitute := substitute_eq_without (fun p : Part Text ↦ isLocalSpecifier p.value) 0
      (dependency.cut source).first (dependency.cut source).rest
    rwa [Marker.cut, dependency.substitute_lexeme_cutFrom] at hsubstitute
  rw [detachLocal]
  simp only [hspecifiers, hcode]

/-- **Which lines leave a script.** What is removed from a script are whole lines, each range of
them one local statement, and the specifiers are those of the ranges, each once. In a script of
statements and lines of other code the ranges are the local statements. -/
theorem detachLocal_lines (source : Text) :
    ∃ removed : List (Span Text), Lies 0 removed source ∧
      (∀ l ∈ removed, IsLocalStatement source l) ∧
      detachLocal source =
        ⟨(removed.map (·.part.value)).eraseDups, without 0 removed source⟩ ∧
      ∀ ps : List Piece, (∀ p ∈ ps, p.IsWellFormed) → source = written ps →
        removed = localStatements ps := by
  refine ⟨localSpans source, (Lies.spans dependency source).filter _,
    fun l hl ↦ isLocalStatement_of_mem_localSpans hl, detachLocal_eq source, ?_⟩
  rintro ps hps rfl
  rw [localSpans, localStatements, ← spansFrom_written hps 0]
  rfl

/-- An import of names on lines of their own. -/
def multiline : Statement where
  indent := []
  gap := [' ']
  heading := .imports (.clause none (.binding (.names "\r\n  a,\r\n".toList)) [' '] [' '])
  opening := '"'
  specifier := "./multi.js".toList
  closing := '"'
  tail := ";\r".toList

/-- Statements with and without a semicolon, on one line and on several, local and not. -/
def mixed : List Piece :=
  [.statement multiline,
    .line "run();".toList,
    .statement ⟨[], [' '], .reexports none (some (.all [' '] [' '] ['n'])) [' '] [' '], '\'',
      "../n.js".toList, '\'', []⟩,
    .statement ⟨[], [' '], .imports (.clause none (.name "lodash".toList) [' '] [' ']), '"',
      "lodash".toList, '"', [';']⟩,
    .statement ⟨[' '], [' '], .imports .nothing, '"', "./multi.js".toList, '"', []⟩]

theorem detachLocal_lines_mixed :
    (∀ p ∈ mixed, p.IsWellFormed) ∧ detachLocal (written mixed) =
      ⟨["./multi.js".toList, "../n.js".toList],
        "run();\nimport lodash from \"lodash\";\n".toList⟩ := by
  have hmixed : ∀ p ∈ mixed, p.IsWellFormed := by decide +kernel
  obtain ⟨removed, -, -, hdetached, hwritten⟩ := detachLocal_lines (written mixed)
  refine ⟨hmixed, ?_⟩
  rw [hdetached, hwritten mixed hmixed rfl]
  decide +kernel

/-- A statement stays when one of the two quotes stands in its specifier, although it is closed by
the other. -/
theorem not_forall_statement_detached :
    ¬∀ n : Text, '"' ∉ n → '\n' ∉ n → isLocalSpecifier n = true →
      detachLocal ("import x from \"".toList ++ (n ++ "\";\n".toList)) = ⟨[n], []⟩ := by
  intro h
  have hapostrophe := h "./it's.js".toList (by decide) (by decide) (by decide)
  exact absurd hapostrophe (by decide +kernel)

end Script

end PluginPack
