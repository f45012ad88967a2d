import PluginPack.Documentation.Extract
import PluginPack.Proofs.Text.Reading

/-!
# Documented functions in a source

What a documented function consists of, piece by piece, from the beginning of its block to its
closing brace. The pieces determine what the search finds: a block or a function is found exactly
where its pieces stand, whatever follows them.
-/

namespace PluginPack.Documentation

open Text

variable {t r w : Text} {s : Source} {b : Block}

/-! ## Blocks -/

/-- A block with a text between its ends. -/
def blockText (inner : Text) : Text := "/**".toList ++ (inner ++ "*/".toList)

/-- The next block begins at the first `/**` and ends at the first `*/` behind it. -/
theorem nextBlock?_eq_some_iff :
    nextBlock? t = some b ↔ ∃ before, ¬"/**".toList <:+: before ∧ ¬"*/".toList <:+: b.inner ∧
      t = before ++ (blockText b.inner ++ b.rest) := by
  obtain ⟨inner, rest⟩ := b
  have hopen (u a z : Text) : cutAt? "/**".toList u = some (a, z) ↔
      u = a ++ ("/**".toList ++ z) ∧ ¬"/**".toList <:+: a :=
    cutAt?_eq_some_iff (c := '/') (w := "**".toList) (by decide)
  have hclose (u a z : Text) : cutAt? "*/".toList u = some (a, z) ↔
      u = a ++ ("*/".toList ++ z) ∧ ¬"*/".toList <:+: a :=
    cutAt?_eq_some_iff (c := '*') (w := "/".toList) (by decide)
  simp only [blockText, List.append_assoc]
  constructor
  · intro h
    obtain ⟨⟨before, u⟩, hp, h⟩ := Option.bind_eq_some_iff.mp h
    obtain ⟨⟨inner', rest'⟩, hq, he⟩ := Option.map_eq_some_iff.mp h
    cases he
    obtain ⟨rfl, hbefore⟩ := (hopen t before u).mp hp
    obtain ⟨rfl, hinner⟩ := (hclose _ _ _).mp hq
    exact ⟨before, hbefore, hinner, rfl⟩
  · rintro ⟨before, hbefore, hinner, rfl⟩
    exact Option.bind_eq_some_iff.mpr ⟨_, (hopen _ _ _).mpr ⟨rfl, hbefore⟩,
      Option.map_eq_some_iff.mpr ⟨_, (hclose _ _ _).mpr ⟨rfl, hinner⟩, rfl⟩⟩

theorem nextBlock?_append {before inner : Text} (hbefore : ¬"/**".toList <:+: before)
    (hinner : ¬"*/".toList <:+: inner) (r : Text) :
    nextBlock? (before ++ (blockText inner ++ r)) = some ⟨inner, r⟩ :=
  nextBlock?_eq_some_iff.mpr ⟨before, hbefore, hinner, rfl⟩

theorem nextBlock?_eq_none (ht : ¬"/**".toList <:+: t) : nextBlock? t = none := by
  rw [nextBlock?, cutAt?_eq_none (by decide) ht, Option.bind_none]

/-! ## Functions -/

/-- White space, or nothing. -/
def IsGap (t : Text) : Prop := ∀ c ∈ t, isWhite c = true

instance (t : Text) : Decidable (IsGap t) := decidableForallMem (isWhite · = true) t

theorem exists_isGap (t : Text) : ∃ w, IsGap w ∧ t = w ++ trimStart t :=
  ⟨t.takeWhile isWhite, List.all_eq_true.mp List.all_takeWhile,
    List.takeWhile_append_dropWhile.symm⟩

/-- What may stand between the parameters and the body: white space, or a type behind a colon, which
is any text without an opening brace. -/
def IsResult (t : Text) : Prop :=
  IsGap t ∨ ∃ gap type, t = gap ++ ':' :: type ∧ IsGap gap ∧ type ≠ [] ∧ '{' ∉ type

/-- The pieces of a function from its name on. -/
structure Named where
  name : Text
  afterName : Text
  params : Text
  /-- What stands between the parameters and the body. -/
  result : Text
  body : Text
deriving DecidableEq, Repr

namespace Named

/-- The text from the name to the closing brace. -/
def text (n : Named) : Text :=
  n.name ++ (n.afterName ++ '(' :: (n.params ++ ')' :: (n.result ++ '{' ::
    (n.body ++ "\n\x7d".toList))))

/-- The name is an identifier, the parameters have no closing parenthesis, and no line of the body
begins with a closing brace. -/
structure IsWellFormed (n : Named) : Prop where
  start : n.name.head?.any isNameStart = true
  name : ∀ c ∈ n.name, isNameChar c = true
  afterName : IsGap n.afterName
  params : ')' ∉ n.params
  result : IsResult n.result
  body : ¬"\n\x7d".toList <:+: n.body

end Named

/-- The pieces of an exported function. -/
structure Code extends Named where
  afterExport : Text
  /-- The white space behind the word `async`, if the word is there. -/
  afterAsync : Option Text
  afterFunction : Text
deriving DecidableEq, Repr

/-- The word `async` with the white space behind it, if the word is there. -/
def asyncText : Option Text → Text
  | none => []
  | some w => "async".toList ++ w

@[simp] theorem asyncText_none : asyncText none = [] := rfl

@[simp] theorem asyncText_some (w : Text) : asyncText (some w) = "async".toList ++ w := rfl

namespace Code

/-- The text from the word `export` to the closing brace. -/
def text (c : Code) : Text :=
  "export".toList ++ (c.afterExport ++ (asyncText c.afterAsync ++ ("function".toList ++
    (c.afterFunction ++ c.toNamed.text))))

theorem text_eq (c : Code) : c.text = "export".toList ++ (c.afterExport ++
    (asyncText c.afterAsync ++ ("function".toList ++ (c.afterFunction ++ c.toNamed.text)))) := rfl

/-- The words are kept apart by white space. -/
structure IsWellFormed (c : Code) : Prop where
  afterExport : c.afterExport ≠ [] ∧ IsGap c.afterExport
  afterAsync : ∀ w ∈ c.afterAsync, w ≠ [] ∧ IsGap w
  afterFunction : c.afterFunction ≠ [] ∧ IsGap c.afterFunction
  named : c.toNamed.IsWellFormed

/-- What is read of the function when `r` stands behind it. -/
def source (c : Code) (r : Text) : Source := ⟨c.name, c.params, c.afterAsync.isSome, c.body, r⟩

end Code

theorem exists_of_openBody?_eq_some (h : openBody? t = some r) :
    ∃ w, IsResult w ∧ t = w ++ '{' :: r := by
  obtain ⟨gap, hgap, hsplit⟩ := exists_isGap t
  unfold openBody? at h
  split at h
  · rename_i r' hr
    cases h
    rw [hr] at hsplit
    exact ⟨gap, .inl hgap, hsplit⟩
  · rename_i u hu
    split at h
    · rename_i r' hr
      split at h
      · cases h
      · rename_i hhead
        cases h
        have hu' := eq_append_of_dropWhile_bne hr
        refine ⟨gap ++ ':' :: u.takeWhile (· != '{'), .inr ⟨gap, _, rfl, hgap, ?_,
          not_mem_takeWhile_bne '{' u⟩, ?_⟩
        · intro hnil
          rw [hnil] at hu'
          exact hhead (by rw [hu']; rfl)
        · rw [List.append_assoc, List.cons_append, ← hu', ← hu, ← hsplit]
    · cases h
  · cases h

theorem openBody?_append (hw : IsResult w) (r : Text) : openBody? (w ++ '{' :: r) = some r := by
  rcases hw with hw | ⟨gap, type, rfl, hgap, hne, htype⟩
  · have htrim : trimStart (w ++ '{' :: r) = '{' :: r := by
      rw [trimStart_append hw, trimStart_cons (by decide)]
    unfold openBody?
    rw [htrim]
    rfl
  · have htrim : trimStart (gap ++ ':' :: type ++ '{' :: r) = ':' :: (type ++ '{' :: r) := by
      rw [List.append_assoc, trimStart_append hgap, List.cons_append, trimStart_cons (by decide)]
    have hdrop : (type ++ '{' :: r).dropWhile (· != '{') = '{' :: r :=
      dropWhile_append_eq (bne_of_not_mem htype) (by simp)
    have hhead : (type ++ '{' :: r).head? ≠ some '{' := by
      obtain ⟨c, type, rfl⟩ := List.exists_cons_of_ne_nil hne
      exact fun heq ↦ htype (Option.some.inj heq ▸ List.mem_cons_self)
    unfold openBody?
    rw [htrim]
    simp only [hdrop, if_neg hhead]

namespace Named

variable {n : Named}

theorem IsWellFormed.stops (hn : n.IsWellFormed) (r : Text) : Stops isWhite (n.text ++ r) := by
  have hne : n.name ≠ [] := by
    intro hnil
    have hstart := hn.start
    rw [hnil] at hstart
    cases hstart
  rw [text, List.append_assoc]
  exact Stops.append (fun c hc ↦ isWhite_of_isNameChar (hn.name c (List.mem_of_mem_head? hc))) hne

/-- What stands behind a name is no part of it. -/
theorem IsWellFormed.stops_afterName (hn : n.IsWellFormed) (u : Text) :
    Stops isNameChar (n.afterName ++ '(' :: u) := by
  cases hgap : n.afterName with
  | nil => exact stops_cons.mpr (by decide)
  | cons c w =>
    have hwhite := hn.afterName c (hgap ▸ List.mem_cons_self)
    rw [List.cons_append, stops_cons]
    by_contra hname
    rw [isWhite_of_isNameChar (by simpa using hname)] at hwhite
    cases hwhite

theorem IsWellFormed.named?_append (hn : n.IsWellFormed) (isAsync : Bool) (r : Text) :
    named? isAsync (n.text ++ r) = some ⟨n.name, n.params, isAsync, n.body, r⟩ := by
  have htext : n.text ++ r = n.name ++ (n.afterName ++ '(' :: (n.params ++ ')' ::
      (n.result ++ '{' :: (n.body ++ ("\n\x7d".toList ++ r))))) := by
    simp only [text, List.append_assoc, List.cons_append]
  have hopen := hn.stops_afterName (n.params ++ ')' ::
      (n.result ++ '{' :: (n.body ++ ("\n\x7d".toList ++ r))))
  have hall := bne_of_not_mem hn.params
  have hclose : Stops (· != ')') (')' ::
      (n.result ++ '{' :: (n.body ++ ("\n\x7d".toList ++ r)))) := stops_cons.mpr rfl
  have hword : ∀ t, word? ['('] ('(' :: t) = some t := fun _ ↦ rfl
  have hbody := cutAt?_append (c := '\n') (w := ['}']) (by decide) hn.body r
  rw [htext, named?, takeWhile_append_eq hn.name hopen, dropWhile_append_eq hn.name hopen,
    if_pos hn.start, trimStart_append hn.afterName, trimStart_cons (by decide), hword,
    Option.bind_some, takeWhile_append_eq hall hclose, dropWhile_append_eq hall hclose]
  exact Option.bind_eq_some_iff.mpr
    ⟨_, openBody?_append hn.result _, Option.map_eq_some_iff.mpr ⟨_, hbody, rfl⟩⟩

theorem exists_of_named?_eq_some {isAsync : Bool} (h : named? isAsync t = some s) :
    ∃ n : Named, n.IsWellFormed ∧ t = n.text ++ s.rest ∧
      s = ⟨n.name, n.params, isAsync, n.body, s.rest⟩ := by
  unfold named? at h
  simp only at h
  split_ifs at h with hstart
  obtain ⟨r, hr, h⟩ := Option.bind_eq_some_iff.mp h
  split at h
  · cases h
  · rename_i d behind hb
    obtain ⟨opened, hopened, h⟩ := Option.bind_eq_some_iff.mp h
    obtain ⟨⟨body, rest⟩, hbody, rfl⟩ := Option.map_eq_some_iff.mp h
    obtain ⟨gap, hgap, hbehind⟩ := exists_isGap (t.dropWhile isNameChar)
    obtain ⟨w, hw, rfl⟩ := exists_of_openBody?_eq_some hopened
    obtain ⟨rfl, hbrace⟩ := (cutAt?_eq_some_iff (c := '\n') (w := ['}']) (by decide)).mp hbody
    rw [word?_eq_some_iff.mp hr, List.singleton_append] at hbehind
    refine ⟨⟨t.takeWhile isNameChar, gap, r.takeWhile (· != ')'), w, body⟩,
      ⟨hstart, List.all_eq_true.mp List.all_takeWhile, hgap, not_mem_takeWhile_bne ')' r, hw,
        hbrace⟩, ?_, rfl⟩
    calc t = t.takeWhile isNameChar ++ t.dropWhile isNameChar :=
          List.takeWhile_append_dropWhile.symm
      _ = t.takeWhile isNameChar ++ (gap ++ '(' :: r) := congrArg _ hbehind
      _ = _ := by
          conv_lhs => rw [eq_append_of_dropWhile_bne hb]
          simp only [text, List.append_assoc, List.cons_append]
          rfl

end Named

namespace Code

variable {c : Code}

/-- Where the pieces of a function stand, it is read, whatever stands behind it. -/
theorem IsWellFormed.exported?_append (hc : c.IsWellFormed) (r : Text) :
    exported? (c.text ++ r) = some (c.source r) := by
  have hnamed := hc.named.stops r
  have hfunction (u : Text) : Stops isWhite ("function".toList ++ u) := stops_cons.mpr (by decide)
  have hasync (u : Text) : Stops isWhite ("async".toList ++ u) := stops_cons.mpr (by decide)
  cases hword : c.afterAsync with
  | none =>
    have hnone (u : Text) : keyword? "async".toList ("function".toList ++ u) = none := rfl
    rw [text_eq, hword, asyncText_none, List.nil_append]
    simp only [List.append_assoc]
    rw [exported?, keyword?_append hc.afterExport.1 hc.afterExport.2 (hfunction _),
      Option.bind_some, hnone]
    simp only [keyword?_append hc.afterFunction.1 hc.afterFunction.2 hnamed, Option.bind_some,
      hc.named.named?_append, source, hword, Option.isSome_none]
  | some w =>
    obtain ⟨hne, hw⟩ := hc.afterAsync w hword
    rw [text_eq, hword, asyncText_some]
    simp only [List.append_assoc]
    rw [exported?, keyword?_append hc.afterExport.1 hc.afterExport.2 (hasync _),
      Option.bind_some, keyword?_append hne hw (hfunction _)]
    simp only [keyword?_append hc.afterFunction.1 hc.afterFunction.2 hnamed, Option.bind_some,
      hc.named.named?_append, source, hword, Option.isSome_some]

/-- What is read as a function consists of its pieces. -/
theorem exists_of_exported?_eq_some (hread : exported? t = some s) :
    ∃ c : Code, c.IsWellFormed ∧ t = c.text ++ s.rest ∧ s = c.source s.rest := by
  obtain ⟨r, hexport, h⟩ := Option.bind_eq_some_iff.mp hread
  obtain ⟨afterExport, hne, hgap, -, rfl⟩ := exists_of_keyword?_eq_some hexport
  split at h
  · rename_i r' hasync
    obtain ⟨w, hwne, hw, -, rfl⟩ := exists_of_keyword?_eq_some hasync
    obtain ⟨u, hfunction, hnamed⟩ := Option.bind_eq_some_iff.mp h
    obtain ⟨afterFunction, hfne, hf, -, rfl⟩ := exists_of_keyword?_eq_some hfunction
    obtain ⟨n, hn, rfl, hs⟩ := Named.exists_of_named?_eq_some hnamed
    refine ⟨⟨n, afterExport, some w, afterFunction⟩, ⟨⟨hne, hgap⟩, ?_, ⟨hfne, hf⟩, hn⟩, ?_, hs⟩
    · rintro v ⟨⟩
      exact ⟨hwne, hw⟩
    · simp only [text_eq, asyncText_some, List.append_assoc]
  · obtain ⟨u, hfunction, hnamed⟩ := Option.bind_eq_some_iff.mp h
    obtain ⟨afterFunction, hfne, hf, -, rfl⟩ := exists_of_keyword?_eq_some hfunction
    obtain ⟨n, hn, rfl, hs⟩ := Named.exists_of_named?_eq_some hnamed
    refine ⟨⟨n, afterExport, none, afterFunction⟩, ⟨⟨hne, hgap⟩, ?_, ⟨hfne, hf⟩, hn⟩, ?_, hs⟩
    · rintro v ⟨⟩
    · simp only [text_eq, asyncText_none, List.nil_append, List.append_assoc]

theorem exported?_eq_some_iff : exported? t = some s ↔
    ∃ c : Code, c.IsWellFormed ∧ t = c.text ++ s.rest ∧ s = c.source s.rest :=
  ⟨exists_of_exported?_eq_some, fun ⟨_, hc, ht, hs⟩ ↦ ht ▸ hs ▸ hc.exported?_append s.rest⟩

/-- The function goes on over more than one line. -/
theorem newline_mem_text (c : Code) : '\n' ∈ c.text := by
  simp [text_eq, Named.text]

theorem stops_text (c : Code) (r : Text) : Stops isWhite (c.text ++ r) := by
  rw [text_eq, List.append_assoc]
  exact stops_cons.mpr (by decide)

end Code

/-! ## Documented functions -/

/-- The pieces of a documented function. -/
structure Excerpt where
  /-- The text between the ends of the block. -/
  inner : Text
  /-- What stands between the block and the function. -/
  gap : Text
  code : Code
deriving DecidableEq, Repr

namespace Excerpt

/-- The text in front of the word `export`. -/
def block (e : Excerpt) : Text := blockText e.inner ++ e.gap

/-- The text from the beginning of the block to the closing brace. -/
def text (e : Excerpt) : Text := e.block ++ e.code.text

/-- The block ends where it is closed first, and only white space stands behind it. -/
structure IsWellFormed (e : Excerpt) : Prop where
  inner : ¬"*/".toList <:+: e.inner
  gap : IsGap e.gap
  code : e.code.IsWellFormed

/-- The record of the function when the word `export` stands on a line. -/
def record (e : Excerpt) (line : Nat) : Function :=
  { name := e.code.name
    description := description (readBlock e.inner)
    parameters := parameters (readBlock e.inner)
    returns := returnValues (readBlock e.inner)
    permissions := permissionsOf (readBlock e.inner)
    body := trim e.code.body
    params := trim e.code.params
    isAsync := e.code.afterAsync.isSome
    line }

end Excerpt

end PluginPack.Documentation
