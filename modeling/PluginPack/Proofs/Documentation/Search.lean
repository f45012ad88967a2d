import PluginPack.Proofs.Documentation.Distinct
import PluginPack.Proofs.Documentation.Excerpt

/-!
# What the search for documented functions does

At every step the search either stops, since no block follows, or finds a documented function and
goes on behind it, or skips a block with no function behind it. These are the cases of `Walk`, by
which properties of the search are proved for all texts. The first of them is that lines in front of
a text move its functions down and change nothing else.
-/

namespace PluginPack.Documentation

open Text

variable {t r before inner : Text} {b : Block} {s : Source} {e : Excerpt}

/-- Newlines in a text that goes on behind another one are counted on. -/
theorem add_count_append (line : Nat) (u w : Text) :
    line + (u ++ w).count '\n' = line + u.count '\n' + w.count '\n' := by
  rw [List.count_append, Nat.add_assoc]

theorem Excerpt.add_count_text (e : Excerpt) (line : Nat) (before : Text) :
    line + (before ++ e.text).count '\n' =
      line + (before ++ e.block).count '\n' + e.code.text.count '\n' := by
  rw [text, ← List.append_assoc, add_count_append]

/-! ## One step -/

theorem functionsFrom_eq_nil (line : Nat) (h : nextBlock? t = none) :
    functionsFrom line t = [] := by
  rw [functionsFrom]
  split
  · rfl
  · rename_i hb
    rw [h] at hb
    cases hb

/-- Behind a block stands a function, or the search goes on behind the block. -/
theorem functionsFrom_of_block (line : Nat) (hb : nextBlock? t = some b) :
    functionsFrom line t =
      match exported? (trimStart b.rest) with
      | some s =>
        s.record b.inner (line + (Marker.consumed t (trimStart b.rest)).count '\n' + 1) ::
          functionsFrom (line + (Marker.consumed t (trimStart b.rest)).count '\n' +
            (Marker.consumed (trimStart b.rest) s.rest).count '\n') s.rest
      | none => functionsFrom (line + (Marker.consumed t b.rest).count '\n') b.rest := by
  rw [functionsFrom]
  split
  · rename_i hb'
    rw [hb] at hb'
    cases hb'
  · rename_i b' hb'
    rw [hb] at hb'
    cases hb'
    dsimp only
    split
    · rename_i hs
      rw [hs]
    · rename_i hs
      rw [hs]

theorem functionsFrom_eq_cons (line : Nat) (hb : nextBlock? t = some b)
    (hs : exported? (trimStart b.rest) = some s) :
    functionsFrom line t =
      s.record b.inner (line + (Marker.consumed t (trimStart b.rest)).count '\n' + 1) ::
        functionsFrom (line + (Marker.consumed t (trimStart b.rest)).count '\n' +
          (Marker.consumed (trimStart b.rest) s.rest).count '\n') s.rest := by
  rw [functionsFrom_of_block line hb, hs]

theorem functionsFrom_eq_skip (line : Nat) (hb : nextBlock? t = some b)
    (hs : exported? (trimStart b.rest) = none) :
    functionsFrom line t =
      functionsFrom (line + (Marker.consumed t b.rest).count '\n') b.rest := by
  rw [functionsFrom_of_block line hb, hs]

theorem Excerpt.IsWellFormed.exported?_trimStart (he : e.IsWellFormed) (r : Text) :
    exported? (trimStart (e.gap ++ (e.code.text ++ r))) = some (e.code.source r) := by
  rw [trimStart, dropWhile_append_eq he.gap (e.code.stops_text r)]
  exact he.code.exported?_append r

/-- A documented function is found where it stands, and the search goes on behind its closing
brace. -/
theorem functionsFrom_found (line : Nat) (hbefore : ¬"/**".toList <:+: before)
    (he : e.IsWellFormed) (r : Text) :
    functionsFrom line (before ++ (e.text ++ r)) =
      e.record (line + (before ++ e.block).count '\n' + 1) ::
        functionsFrom (line + (before ++ e.text).count '\n') r := by
  have htext : before ++ (e.text ++ r) =
      before ++ (blockText e.inner ++ (e.gap ++ (e.code.text ++ r))) := by
    simp only [Excerpt.text, Excerpt.block, List.append_assoc]
  have hblock : before ++ (e.text ++ r) = before ++ e.block ++ (e.code.text ++ r) := by
    simp only [Excerpt.text, List.append_assoc]
  have hnext := nextBlock?_append hbefore he.inner (e.gap ++ (e.code.text ++ r))
  have hstart : trimStart (e.gap ++ (e.code.text ++ r)) = e.code.text ++ r :=
    dropWhile_append_eq he.gap (e.code.stops_text r)
  have hrest : (e.code.source r).rest = r := rfl
  rw [← htext] at hnext
  rw [functionsFrom_eq_cons line hnext (he.exported?_trimStart r), hstart, hblock,
    Marker.consumed_left, hrest, Marker.consumed_left, ← e.add_count_text]
  rfl

/-- A block with no function behind it is skipped. -/
theorem functionsFrom_skipped (line : Nat) (hbefore : ¬"/**".toList <:+: before)
    (hinner : ¬"*/".toList <:+: inner) (hr : exported? (trimStart r) = none) :
    functionsFrom line (before ++ (blockText inner ++ r)) =
      functionsFrom (line + (before ++ blockText inner).count '\n') r := by
  rw [functionsFrom_eq_skip line (nextBlock?_append hbefore hinner r) hr, ← List.append_assoc,
    Marker.consumed_left]

/-! ## The whole search -/

/-- The way of the search through a text. -/
inductive Walk : Text → Prop where
  | stop {t : Text} (h : nextBlock? t = none) : Walk t
  | found {before r : Text} {e : Excerpt} (hbefore : ¬"/**".toList <:+: before)
    (he : e.IsWellFormed) (h : Walk r) : Walk (before ++ (e.text ++ r))
  | skipped {before inner r : Text} (hbefore : ¬"/**".toList <:+: before)
    (hinner : ¬"*/".toList <:+: inner) (hr : exported? (trimStart r) = none) (h : Walk r) :
    Walk (before ++ (blockText inner ++ r))

/-- A function that is found behind a block makes an excerpt with it. -/
theorem exists_excerpt_of_block (hinner : ¬"*/".toList <:+: inner)
    (hs : exported? (trimStart r) = some s) :
    ∃ e : Excerpt, e.IsWellFormed ∧ blockText inner ++ r = e.text ++ s.rest := by
  obtain ⟨c, hc, htext, -⟩ := Code.exported?_eq_some_iff.mp hs
  obtain ⟨gap, hgap, hr⟩ := exists_isGap r
  refine ⟨⟨inner, gap, c⟩, ⟨hinner, hgap, hc⟩, ?_⟩
  simp only [Excerpt.text, Excerpt.block, List.append_assoc, ← htext, ← hr]

theorem exists_excerpt (hb : nextBlock? t = some b) (hs : exported? (trimStart b.rest) = some s) :
    ∃ (before : Text) (e : Excerpt), ¬"/**".toList <:+: before ∧ e.IsWellFormed ∧
      t = before ++ (e.text ++ s.rest) := by
  obtain ⟨before, hbefore, hinner, rfl⟩ := nextBlock?_eq_some_iff.mp hb
  obtain ⟨e, he, htext⟩ := exists_excerpt_of_block hinner hs
  exact ⟨before, e, hbefore, he, congrArg (before ++ ·) htext⟩

theorem walk (t : Text) : Walk t := by
  induction hn : t.length using Nat.strongRecOn generalizing t with
  | ind n ih =>
    subst hn
    cases hb : nextBlock? t with
    | none => exact .stop hb
    | some b =>
      cases hs : exported? (trimStart b.rest) with
      | none =>
        have hwalk := ih b.rest.length (nextBlock?_length hb) b.rest rfl
        obtain ⟨before, hbefore, hinner, rfl⟩ := nextBlock?_eq_some_iff.mp hb
        exact .skipped hbefore hinner hs hwalk
      | some s =>
        have hlength : s.rest.length < t.length := calc
          s.rest.length ≤ (trimStart b.rest).length := exported?_length hs
          _ ≤ b.rest.length := (List.dropWhile_suffix isWhite).length_le
          _ < t.length := nextBlock?_length hb
        have hwalk := ih s.rest.length hlength s.rest rfl
        obtain ⟨before, e, hbefore, he, rfl⟩ := exists_excerpt hb hs
        exact .found hbefore he hwalk

/-! ## Lines -/

/-- The record of a function that stands `n` lines further down. -/
def Function.shift (n : Nat) (f : Function) : Function := { f with line := f.line + n }

theorem Function.shift_injective (n : Nat) : (shift n).Injective := by
  intro f g h
  obtain ⟨⟩ := f
  obtain ⟨⟩ := g
  simpa only [shift, mk.injEq, Nat.add_right_cancel_iff] using h

theorem map_shift_add (fs : List Function) (m n : Nat) :
    fs.map (·.shift (m + n)) = (fs.map (·.shift m)).map (·.shift n) := by
  rw [List.map_map]
  exact List.map_congr_left fun f _ ↦ by
    simp only [Function.comp_apply, Function.shift, Nat.add_assoc]

theorem functionsFrom_add (line n : Nat) (t : Text) :
    functionsFrom (line + n) t = (functionsFrom line t).map (·.shift n) := by
  induction walk t generalizing line with
  | stop h => rw [functionsFrom_eq_nil _ h, functionsFrom_eq_nil _ h, List.map_nil]
  | @found before r e hbefore he _ ih =>
    have hrecord (k : Nat) : e.record (line + n + k + 1) = (e.record (line + k + 1)).shift n := by
      simp only [Excerpt.record, Function.shift, Nat.add_right_comm _ n]
    rw [functionsFrom_found _ hbefore he, functionsFrom_found _ hbefore he, List.map_cons, hrecord,
      Nat.add_right_comm line n, ih]
  | skipped hbefore hinner hr _ ih =>
    rw [functionsFrom_skipped _ hbefore hinner hr, functionsFrom_skipped _ hbefore hinner hr,
      Nat.add_right_comm line n, ih]

theorem distinct_functionsFrom (line : Nat) (t : Text) :
    distinct (functionsFrom line t) = (extract t).map (·.shift line) := by
  rw [← Nat.zero_add line, functionsFrom_add, Nat.zero_add]
  exact distinctFrom_map (f := (·.shift line)) (fun _ ↦ rfl) [] (functionsFrom 0 t)

end PluginPack.Documentation
