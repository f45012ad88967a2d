import PluginPack.Proofs.Documentation.Search

/-!
# Extraction at the ends of functions

A source may be cut behind the closing brace of any function that the search finds, and its parts
may be read one after the other. Of the second part, the functions count whose names are not among
those of the first. Cutting a text loses no block in front of the cut, since what makes a text a
block or a function lies in front of its end.
-/

namespace PluginPack.Documentation

open Text

variable {t r : Text}

/-- Going through a text, the search comes to a place behind the closing brace of a function that it
has found. The place is given by the text `r` behind it. Whether the name of the function has come
before makes no difference. -/
inductive Leaves : Text → Text → Prop where
  | found {t : Text} {b : Block} {s : Source} (hb : nextBlock? t = some b)
    (hs : exported? (trimStart b.rest) = some s) : Leaves t s.rest
  | behind {t r : Text} {b : Block} {s : Source} (hb : nextBlock? t = some b)
    (hs : exported? (trimStart b.rest) = some s) (h : Leaves s.rest r) : Leaves t r
  | skipped {t r : Text} {b : Block} (hb : nextBlock? t = some b)
    (hs : exported? (trimStart b.rest) = none) (h : Leaves b.rest r) : Leaves t r

/-- A function is found in a text whenever it is found in the beginning of the text. -/
theorem isSome_exported?_append {u : Text} (h : (exported? (trimStart u)).isSome) (r : Text) :
    (exported? (trimStart (u ++ r))).isSome := by
  obtain ⟨s, hs⟩ := Option.isSome_iff_exists.mp h
  obtain ⟨c, hc, htext, -⟩ := Code.exported?_eq_some_iff.mp hs
  obtain ⟨gap, hgap, hsplit⟩ := exists_isGap u
  have hu : u ++ r = gap ++ (c.text ++ (s.rest ++ r)) := by
    rw [← List.append_assoc c.text, ← htext, ← List.append_assoc, ← hsplit]
  rw [hu, trimStart, dropWhile_append_eq hgap (c.stops_text _), hc.exported?_append,
    Option.isSome_some]

/-- The search through the whole text is the search through the part in front of the place, and then
that through the part behind it. The first part has the function whose end the place is. -/
theorem functionsFrom_append (h : Leaves t r) (line : Nat) :
    ∃ front, t = front ++ r ∧ functionsFrom line front ≠ [] ∧ functionsFrom line t =
      functionsFrom line front ++ functionsFrom (line + front.count '\n') r := by
  induction h generalizing line with
  | @found t b s hb hs =>
    obtain ⟨before, e, hbefore, he, rfl⟩ := exists_excerpt hb hs
    have hnil (k : Nat) : functionsFrom k [] = [] :=
      functionsFrom_eq_nil k (nextBlock?_eq_none (by decide))
    have hfront := functionsFrom_found line hbefore he []
    rw [List.append_nil, hnil] at hfront
    refine ⟨before ++ e.text, (List.append_assoc _ _ _).symm, ?_, ?_⟩
    · rw [hfront]
      exact List.cons_ne_nil _ _
    · rw [functionsFrom_found line hbefore he, hfront, List.singleton_append]
  | @behind t r b s hb hs _ ih =>
    obtain ⟨before, e, hbefore, he, rfl⟩ := exists_excerpt hb hs
    obtain ⟨front, hfront, -, heq⟩ := ih (line + (before ++ e.text).count '\n')
    refine ⟨before ++ (e.text ++ front), ?_, ?_, ?_⟩
    · rw [hfront, List.append_assoc, List.append_assoc]
    · rw [functionsFrom_found line hbefore he]
      exact List.cons_ne_nil _ _
    · rw [functionsFrom_found line hbefore he, functionsFrom_found line hbefore he, heq,
        ← List.append_assoc before, add_count_append line (before ++ e.text), List.cons_append]
  | @skipped t r b hb hs _ ih =>
    obtain ⟨before, hbefore, hinner, rfl⟩ := nextBlock?_eq_some_iff.mp hb
    obtain ⟨front, hfront, hne, heq⟩ := ih (line + (before ++ blockText b.inner).count '\n')
    have hnone : exported? (trimStart front) = none := by
      by_contra hsome
      have hlong := isSome_exported?_append (Option.isSome_iff_ne_none.mpr hsome) r
      rw [← hfront, hs] at hlong
      cases hlong
    refine ⟨before ++ (blockText b.inner ++ front), ?_, ?_, ?_⟩
    · rw [hfront, List.append_assoc, List.append_assoc]
    · rwa [functionsFrom_skipped line hbefore hinner hnone]
    · rw [functionsFrom_skipped line hbefore hinner hs,
        functionsFrom_skipped line hbefore hinner hnone, heq, ← List.append_assoc before,
        add_count_append line (before ++ blockText b.inner)]

/-- **Extraction is sequential.** Let the search through a source come to the end of a function. The
functions of the source are those of the part in front of this place, of which there is at least
one, and then, on their lines in the whole source, those of the part behind it whose names are not
among the names in front. -/
theorem extract_sequential {source r : Text} (h : Leaves source r) :
    ∃ front, source = front ++ r ∧ extract front ≠ [] ∧
      extract source = extract front ++
        ((extract r).map (·.shift (front.count '\n'))).filter
          (·.name ∉ (extract front).map Function.name) := by
  obtain ⟨front, hfront, hne, heq⟩ := functionsFrom_append h 0
  refine ⟨front, hfront, ?_, ?_⟩
  · rwa [Ne, ← List.head?_eq_none_iff, extract, head?_distinct, List.head?_eq_none_iff]
  rw [extract, heq, distinct_append, Nat.zero_add, distinct_functionsFrom (front.count '\n')]
  rfl

/-- A documented function. -/
def once : Text := "/** Once. */\nexport function f() \x7b\n\x7d".toList

/-- A function of the same name, behind a block that documents nothing. -/
def again : Text :=
  "\n/** None. */\n/** Twice. */export async function f(a): T \x7b a; \n\x7d".toList

/-- The name once more, and another one. -/
def further : Text :=
  ("\n/** Thrice. */\nexport function f(b) \x7b\n\x7d" ++
    "\n/** Other. */export function g() \x7b\n\x7d\n").toList

/-- The search leaves a function that does not count. -/
theorem leaves_again : Leaves (once ++ (again ++ further)) further := by
  have honce : once = _ := String.toList_ofList
  have hagain : again = _ := String.toList_ofList
  have hfurther : further = _ := String.toList_append.trans
    (congrArg₂ _ String.toList_ofList String.toList_ofList)
  refine .behind (b := ⟨" Once. ".toList, once.drop 12 ++ (again ++ further)⟩)
    (s := ⟨['f'], [], false, [], again ++ further⟩) ?_ ?_ ?_
  · rw [honce, hagain, hfurther]
    decide +kernel
  · rw [honce, hagain, hfurther]
    decide +kernel
  refine .skipped (b := ⟨" None. ".toList, again.drop 13 ++ further⟩) ?_ ?_ ?_
  · rw [hagain, hfurther]
    decide +kernel
  · rw [hagain, hfurther]
    decide +kernel
  refine .found (b := ⟨" Twice. ".toList, again.drop 27 ++ further⟩)
    (s := ⟨['f'], ['a'], true, " a; ".toList, further⟩) ?_ ?_
  · rw [hagain, hfurther]
    decide +kernel
  · rw [hagain, hfurther]
    decide +kernel

theorem extract_sequential_again : ∃ front, once ++ (again ++ further) = front ++ further ∧
    extract front ≠ [] ∧ extract (once ++ (again ++ further)) = extract front ++
      ((extract further).map (·.shift (front.count '\n'))).filter
        (·.name ∉ (extract front).map Function.name) :=
  extract_sequential leaves_again

end PluginPack.Documentation
