import PluginPack.Proofs.Documentation.Located

/-!
# What may precede a documented source

Text in front of a source that begins with a block moves its functions down and does nothing else,
provided that the search comes through the text: it must not be in a block at its end, nor find
the beginning of a function. This condition is exact. Since the search knows nothing of literals and
comments, it may well fail for a script that has neither left open. It holds when `/**` stands in
comments for documentation only, and none of them documents an exported function.
-/

namespace PluginPack.Documentation

open Text

variable {t r src inner : Text} {b : Block}

/-! ## Coming through a text -/

/-- The text begins with a block, which is closed. -/
def BeginsWithBlock (t : Text) : Prop :=
  ∃ inner r, ¬"*/".toList <:+: inner ∧ t = blockText inner ++ r

/-- Behind white space the text begins with an exported function, or with a part of one that a
source which begins with a block completes. -/
def FunctionFollows (t : Text) : Prop :=
  ∃ src, BeginsWithBlock src ∧ (exported? (trimStart (t ++ src))).isSome

theorem BeginsWithBlock.stops (h : BeginsWithBlock src) : Stops isWhite src := by
  obtain ⟨inner, r, -, rfl⟩ := h
  exact stops_cons.mpr (by decide)

/-- The word `export` itself is there. -/
theorem isPrefix_of_functionFollows (h : FunctionFollows t) :
    "export".toList <+: trimStart t := by
  obtain ⟨src, hsrc, hsome⟩ := h
  obtain ⟨s, hs⟩ := Option.isSome_iff_exists.mp hsome
  rw [trimStart_append_of_stops hsrc.stops] at hs
  obtain ⟨c, -, htext, -⟩ := Code.exported?_eq_some_iff.mp hs
  have hexport : "export".toList <+: trimStart t ++ src := by
    rw [htext, Code.text_eq, List.append_assoc]
    exact List.prefix_append _ _
  obtain ⟨inner, r, -, rfl⟩ := hsrc
  exact (isPrefix_append_cons_iff (by decide) _ _).mp hexport

/-- The search comes through the text and out of every block, and no block has a function behind
it. -/
inductive IsPassed : Text → Prop where
  | outside {t : Text} (h : ¬"/**".toList <:+: t) : IsPassed t
  | block {t : Text} {b : Block} (hb : nextBlock? t = some b) (hf : ¬FunctionFollows b.rest)
    (h : IsPassed b.rest) : IsPassed t

/-- In front of any source that begins with a block, the text moves its functions down, and nothing
else. -/
def MovesDown (t : Text) : Prop :=
  ∀ src, BeginsWithBlock src → extract (t ++ src) = (extract src).map (·.shift (t.count '\n'))

theorem nextBlock?_append_right (hb : nextBlock? t = some b) (r : Text) :
    nextBlock? (t ++ r) = some ⟨b.inner, b.rest ++ r⟩ := by
  obtain ⟨before, hbefore, hinner, rfl⟩ := nextBlock?_eq_some_iff.mp hb
  simp only [List.append_assoc]
  exact nextBlock?_append hbefore hinner _

/-- Only from the block of the source on there is something to find. -/
theorem functionsFrom_outside (line : Nat) (ht : ¬"/**".toList <:+: t)
    (hsrc : BeginsWithBlock src) :
    functionsFrom line (t ++ src) = functionsFrom (line + t.count '\n') src := by
  obtain ⟨inner, r, hinner, rfl⟩ := hsrc
  have hnil : ¬"/**".toList <:+: ([] : Text) := by decide
  cases hs : exported? (trimStart r) with
  | none =>
    have hsource := functionsFrom_skipped (line + t.count '\n') hnil hinner hs
    rw [List.nil_append, List.nil_append] at hsource
    rw [functionsFrom_skipped line ht hinner hs, hsource, add_count_append]
  | some s =>
    obtain ⟨e, he, htext⟩ := exists_excerpt_of_block hinner hs
    have hsource := functionsFrom_found (line + t.count '\n') hnil he s.rest
    simp only [List.nil_append] at hsource
    rw [htext, functionsFrom_found line ht he, hsource, add_count_append, add_count_append]

theorem movesDown_outside (ht : ¬"/**".toList <:+: t) : MovesDown t := by
  intro src hsrc
  rw [extract, functionsFrom_outside 0 ht hsrc, Nat.zero_add, distinct_functionsFrom]

/-- Behind a block that the search comes through, it is as in the text behind the block. -/
theorem movesDown_iff_of_nextBlock? (hb : nextBlock? t = some b) (hf : ¬FunctionFollows b.rest) :
    MovesDown t ↔ MovesDown b.rest := by
  obtain ⟨before, hbefore, hinner, rfl⟩ := nextBlock?_eq_some_iff.mp hb
  generalize hn : (before ++ blockText b.inner).count '\n' = n
  have hstep : ∀ src, BeginsWithBlock src →
      extract (before ++ (blockText b.inner ++ b.rest) ++ src) =
        (extract (b.rest ++ src)).map (·.shift n) := by
    intro src hsrc
    have hnone : exported? (trimStart (b.rest ++ src)) = none := by
      by_contra hsome
      exact hf ⟨src, hsrc, Option.isSome_iff_ne_none.mpr hsome⟩
    rw [extract, List.append_assoc, List.append_assoc,
      functionsFrom_skipped 0 hbefore hinner hnone, hn, Nat.zero_add, distinct_functionsFrom]
  have hcount : (before ++ (blockText b.inner ++ b.rest)).count '\n' = b.rest.count '\n' + n := by
    rw [← List.append_assoc, List.count_append, hn, Nat.add_comm]
  refine forall_congr' fun src ↦ imp_congr_right fun hsrc ↦ ?_
  rw [hstep src hsrc, hcount, map_shift_add]
  exact (List.map_injective_iff.mpr (Function.shift_injective n)).eq_iff

/-! ## Texts that disturb -/

/-- A function that begins in the text comes on a line of the text. -/
theorem not_movesDown_of_functionFollows (hlast : t.getLast? = some '\n')
    (hb : nextBlock? t = some b) (hf : FunctionFollows b.rest) : ¬MovesDown t := by
  intro h
  have hne : trimStart b.rest ≠ [] := by
    intro hnil
    have hexport := isPrefix_of_functionFollows hf
    rw [hnil] at hexport
    exact absurd (List.prefix_nil.mp hexport) (by decide)
  obtain ⟨src, hsrc, hsome⟩ := hf
  obtain ⟨s, hs⟩ := Option.isSome_iff_exists.mp hsome
  have htrim : trimStart (b.rest ++ src) = trimStart b.rest ++ src :=
    trimStart_append_of_stops hsrc.stops b.rest
  obtain ⟨before, -, -, ht⟩ := nextBlock?_eq_some_iff.mp hb
  obtain ⟨gap, -, hrest⟩ := exists_isGap b.rest
  obtain ⟨front, hfront⟩ : ∃ front, t = front ++ trimStart b.rest := by
    refine ⟨before ++ (blockText b.inner ++ gap), ?_⟩
    rw [List.append_assoc, List.append_assoc, ← hrest, ht]
  have hnewline : 0 < (trimStart b.rest).count '\n' := by
    rw [hfront, List.getLast?_append_of_ne_nil _ hne] at hlast
    exact List.count_pos_iff.mpr (List.mem_of_getLast? hlast)
  have hmem : s.record b.inner (0 + front.count '\n' + 1) ∈ extract (t ++ src) := by
    rw [extract, functionsFrom_eq_cons 0 (nextBlock?_append_right hb src) hs, htrim]
    conv in Marker.consumed (t ++ src) _ => rw [hfront, List.append_assoc, Marker.consumed_left]
    exact List.mem_cons_self
  rw [h src hsrc] at hmem
  obtain ⟨f, hf, heq⟩ := List.mem_map.mp hmem
  have hpos : 0 < f.line :=
    ((located_functionsFrom 0 src).sublist (distinctFrom_sublist [] _)).lt_line f hf
  have hline : f.line + t.count '\n' = 0 + front.count '\n' + 1 := congrArg Function.line heq
  rw [hfront, List.count_append] at hline
  omega

/-- A function without parameters. -/
def sampleCode : Code :=
  { name := ['f'], afterName := [], params := [], result := [' '], body := [],
    afterExport := [' '], afterAsync := none, afterFunction := [' '] }

theorem isWellFormed_sampleCode : sampleCode.IsWellFormed where
  afterExport := by decide
  afterAsync _ h := by cases h
  afterFunction := by decide
  named := ⟨by decide, by decide, by decide, by decide, .inl (by decide), by decide⟩

/-- A function without parameters on the line behind a block. -/
def sample (inner : Text) : Excerpt := ⟨inner, ['\n'], sampleCode⟩

theorem beginsWithBlock_sample (hinner : ¬"*/".toList <:+: inner) (r : Text) :
    BeginsWithBlock ((sample inner).text ++ r) :=
  ⟨inner, '\n' :: (sampleCode.text ++ r), hinner, by
    simp only [Excerpt.text, Excerpt.block, sample, List.append_assoc, List.cons_append,
      List.nil_append]⟩

theorem extract_sample {before : Text} (hbefore : ¬"/**".toList <:+: before)
    (hinner : ¬"*/".toList <:+: inner) (hr : ¬"/**".toList <:+: r) :
    extract (before ++ ((sample inner).text ++ r)) =
      [(sample inner).record (0 + (before ++ (sample inner).block).count '\n' + 1)] := by
  have hgap : IsGap ['\n'] := by decide
  have he : (sample inner).IsWellFormed := ⟨hinner, hgap, isWellFormed_sampleCode⟩
  rw [extract, functionsFrom_found 0 hbefore he,
    functionsFrom_eq_nil _ (nextBlock?_eq_none hr)]
  rfl

/-- At the beginning of a source. -/
theorem extract_sample_first (hinner : ¬"*/".toList <:+: inner) (hr : ¬"/**".toList <:+: r) :
    extract ((sample inner).text ++ r) =
      [(sample inner).record (0 + (sample inner).block.count '\n' + 1)] := by
  have hnil : ¬"/**".toList <:+: ([] : Text) := by decide
  exact extract_sample hnil hinner hr

/-- The first free text is the description. -/
theorem description_ne_nil_of_mem {l : Text} (hl : l ∈ lines inner)
    (htext : Line.read (cleanLine l) = .text (cleanLine l)) :
    description (readBlock inner) ≠ [] := by
  unfold description
  generalize hfind : List.findSome? _ (readBlock inner) = o
  cases o with
  | none =>
    have hline := List.findSome?_eq_none_iff.mp hfind _ (List.mem_map_of_mem hl)
    rw [htext] at hline
    cases hline
  | some d =>
    obtain ⟨line, hline, hd⟩ := List.exists_of_findSome?_eq_some hfind
    obtain ⟨k, -, rfl⟩ := List.mem_map.mp hline
    have hread := isReading_read (cleanLine k)
    split at hd
    · rename_i u hu
      cases hd
      rw [hu] at hread
      cases hread with
      | text h => exact h
    · cases hd

theorem mem_lines_of_newline {l : Text} (hne : l ≠ []) (hl : '\n' ∉ l) (v : Text) :
    l ∈ lines (v ++ '\n' :: l) := by
  have hlast : (splitNewlines (v ++ '\n' :: l)).getLast? = some l := by
    rw [splitNewlines_append_cons, splitNewlines_eq_singleton hl, List.getLast?_concat]
  simp [lines, hlast, hne]

/-- A block that is left open takes in the beginning of the next one. -/
theorem not_movesDown_of_nextBlock?_eq_none (hlast : t.getLast? = some '\n')
    (ht : "/**".toList <:+: t) (hnone : nextBlock? t = none) : ¬MovesDown t := by
  intro h
  obtain ⟨⟨before, u⟩, hopen⟩ := Option.ne_none_iff_exists'.mp fun hcut ↦
    not_isInfix_of_cutAt?_eq_none hcut ht
  obtain ⟨rfl, hbefore⟩ :=
    (cutAt?_eq_some_iff (c := '/') (w := "**".toList) (by decide)).mp hopen
  have hu : ¬"*/".toList <:+: u := by
    rw [nextBlock?, hopen, Option.bind_some, Option.map_eq_none_iff] at hnone
    exact not_isInfix_of_cutAt?_eq_none hnone
  obtain ⟨v, rfl⟩ : ∃ v, u = v ++ ['\n'] := by
    rw [← List.getLast?_eq_some_iff]
    cases u with
    | nil =>
      rw [List.append_nil, List.getLast?_append_of_ne_nil _ (by decide)] at hlast
      cases hlast
    | cons c u =>
      rwa [← List.cons_append, List.getLast?_append_of_ne_nil _ (by simp),
        List.getLast?_append_of_ne_nil _ (by simp)] at hlast
  have hinner : ¬"*/".toList <:+: v ++ '\n' :: "/**".toList := by
    rw [isInfix_append_cons_iff (by decide), not_or]
    exact ⟨fun hv ↦ hu (hv.trans (List.prefix_append v _).isInfix), by decide⟩
  have hnil : ¬"*/".toList <:+: ([] : Text) := by decide
  have htext : before ++ '/' :: ("**".toList ++ (v ++ ['\n'])) ++ ((sample []).text ++ []) =
      before ++ ((sample (v ++ '\n' :: "/**".toList)).text ++ []) := by
    simp [Excerpt.text, Excerpt.block, sample, blockText]
  have heq := h _ (beginsWithBlock_sample hnil [])
  rw [htext, extract_sample hbefore hinner (by decide), extract_sample_first hnil (by decide),
    List.map_singleton, List.singleton_inj] at heq
  exact description_ne_nil_of_mem (mem_lines_of_newline (by decide) (by decide) v) rfl
    (congrArg Function.description heq)

/-! ## The exact condition -/

theorem getLast?_rest (hb : nextBlock? t = some b) (hlast : ∀ c ∈ t.getLast?, c = '\n') :
    ∀ c ∈ b.rest.getLast?, c = '\n' := by
  obtain ⟨before, -, -, rfl⟩ := nextBlock?_eq_some_iff.mp hb
  intro c hc
  have hne : b.rest ≠ [] := by
    intro hnil
    rw [hnil] at hc
    cases hc
  refine hlast c ?_
  rwa [List.getLast?_append_of_ne_nil _ (List.append_ne_nil_of_right_ne_nil _ hne),
    List.getLast?_append_of_ne_nil _ hne]

theorem isPassed_iff_of_nextBlock? (hb : nextBlock? t = some b) :
    IsPassed t ↔ ¬FunctionFollows b.rest ∧ IsPassed b.rest := by
  constructor
  · intro h
    cases h with
    | outside h =>
      rw [nextBlock?_eq_none h] at hb
      cases hb
    | block hb' hf h =>
      rw [hb] at hb'
      cases hb'
      exact ⟨hf, h⟩
  · exact fun ⟨hf, h⟩ ↦ .block hb hf h

/-- Whether a text disturbs is decided block by block. -/
theorem movesDown_iff_isPassed (hlast : ∀ c ∈ t.getLast?, c = '\n') :
    MovesDown t ↔ IsPassed t := by
  induction hn : t.length using Nat.strongRecOn generalizing t with
  | ind n ih =>
    subst hn
    by_cases ht : "/**".toList <:+: t
    · have hnewline : t.getLast? = some '\n' := by
        have hne : t ≠ [] := by
          rintro rfl
          exact absurd (List.infix_nil.mp ht) (by decide)
        have hget := List.getLast?_eq_getLast_of_ne_nil hne
        rw [hget, hlast _ hget]
      cases hb : nextBlock? t with
      | none =>
        refine iff_of_false (not_movesDown_of_nextBlock?_eq_none hnewline ht hb) fun h ↦ ?_
        cases h with
        | outside h => exact h ht
        | block hb' => rw [hb] at hb'; cases hb'
      | some b =>
        rw [isPassed_iff_of_nextBlock? hb]
        by_cases hf : FunctionFollows b.rest
        · exact iff_of_false (not_movesDown_of_functionFollows hnewline hb hf) fun h ↦ h.1 hf
        · rw [movesDown_iff_of_nextBlock? hb hf, and_iff_right hf]
          exact ih b.rest.length (nextBlock?_length hb) (getLast?_rest hb hlast) rfl
    · exact iff_of_true (movesDown_outside ht) (.outside ht)

end PluginPack.Documentation
