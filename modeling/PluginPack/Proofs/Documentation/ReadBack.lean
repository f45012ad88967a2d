import Mathlib.Data.List.Infix
import PluginPack.Proofs.Documentation.Item
import PluginPack.Proofs.Documentation.Search

/-!
# Documented functions are read back

A source in which functions stand one after the other, each behind its block, with any text without
the beginning of a block between them. Extraction gives the records of exactly these functions, in
their order: the search resynchronises behind every function, whatever stands in its body.
-/

namespace PluginPack.Documentation

open Text

/-! ## Documented functions as they are written -/

/-- A documented exported function as an author writes it. -/
structure Written where
  /-- What the block says, item by item. -/
  items : List Item
  /-- The text between the ends of the block. -/
  inner : Text
  /-- The white space between the block and the function. -/
  gap : Text
  isAsync : Bool
  name : Text
  params : Text
  body : Text
deriving DecidableEq, Repr

/-- The word in front of an asynchronous function. -/
def asyncWord (isAsync : Bool) : Text := if isAsync then "async ".toList else []

namespace Written

/-- The function, from its name to the closing brace. -/
def named (w : Written) : Text :=
  w.name ++ '(' :: (w.params ++ ") \x7b".toList ++ (w.body ++ "\n\x7d".toList))

/-- The function, from the word `export` to the closing brace. -/
def code (w : Written) : Text :=
  "export".toList ++ ' ' :: (asyncWord w.isAsync ++ ("function".toList ++ ' ' :: w.named))

/-- The block and the white space behind it. -/
def block (w : Written) : Text := "/**".toList ++ (w.inner ++ ("*/".toList ++ w.gap))

/-- The function behind its block. -/
def text (w : Written) : Text := w.block ++ w.code

/-- The record of the function when the word `export` stands on a line. -/
def record (w : Written) (line : Nat) : Function :=
  { name := w.name
    description := Item.description w.items
    parameters := Item.parameters w.items
    returns := Item.returnValues w.items
    permissions := Item.grants w.items
    body := trim w.body
    params := trim w.params
    isAsync := w.isAsync
    line }

/-- The items stand on the lines of the block, which goes on to the end that closes it. The name is
an identifier, the parameters have no closing parenthesis, and no line of the body begins with a
closing brace. -/
structure IsWellFormed (w : Written) : Prop where
  items : ∀ i ∈ w.items, i.IsWellFormed
  holds : Holds w.inner w.items
  inner : ¬"*/".toList <:+: w.inner
  gap : ∀ c ∈ w.gap, isWhite c = true
  start : w.name.head?.any isNameStart = true
  name : ∀ c ∈ w.name, isNameChar c = true
  params : ')' ∉ w.params
  body : ¬"\n\x7d".toList <:+: w.body

instance (w : Written) : Decidable w.IsWellFormed :=
  decidable_of_iff ((∀ i ∈ w.items, i.IsWellFormed) ∧ Holds w.inner w.items ∧
    ¬"*/".toList <:+: w.inner ∧ (∀ c ∈ w.gap, isWhite c = true) ∧
    w.name.head?.any isNameStart = true ∧ (∀ c ∈ w.name, isNameChar c = true) ∧
    ')' ∉ w.params ∧ ¬"\n\x7d".toList <:+: w.body)
    ⟨fun ⟨h₁, h₂, h₃, h₄, h₅, h₆, h₇, h₈⟩ ↦ ⟨h₁, h₂, h₃, h₄, h₅, h₆, h₇, h₈⟩,
      fun ⟨h₁, h₂, h₃, h₄, h₅, h₆, h₇, h₈⟩ ↦ ⟨h₁, h₂, h₃, h₄, h₅, h₆, h₇, h₈⟩⟩

end Written

/-! ## Pieces of a function -/

variable {w : Written}

namespace Written

/-- The pieces of the function and its block. -/
def excerpt (w : Written) : Excerpt where
  inner := w.inner
  gap := w.gap
  code :=
    { name := w.name, afterName := [], params := w.params, result := [' '], body := w.body,
      afterExport := [' '], afterAsync := if w.isAsync then some [' '] else none,
      afterFunction := [' '] }

theorem block_excerpt (w : Written) : w.excerpt.block = w.block := by
  simp only [Excerpt.block, excerpt, blockText, block, List.append_assoc]

theorem text_excerpt (w : Written) : w.excerpt.text = w.text := by
  have hcode : w.excerpt.code.text = w.code := by
    obtain ⟨items, inner, gap, isAsync, name, params, body⟩ := w
    cases isAsync <;>
      simp [excerpt, Code.text_eq, Named.text, code, named, asyncWord]
  rw [Excerpt.text, block_excerpt, hcode, text]

theorem IsWellFormed.excerpt (hw : w.IsWellFormed) : w.excerpt.IsWellFormed := by
  have hblank : [' '] ≠ [] ∧ IsGap [' '] := by decide
  have hasync : ∀ v ∈ w.excerpt.code.afterAsync, v ≠ [] ∧ IsGap v := by
    intro v hv
    obtain ⟨-, rfl⟩ : w.isAsync = true ∧ [' '] = v := by simpa [Written.excerpt] using hv
    exact hblank
  have hnil : IsGap [] := by decide
  exact ⟨hw.inner, hw.gap, hblank, hasync, hblank, hw.start, hw.name, hnil, hw.params,
    .inl hblank.2, hw.body⟩

theorem IsWellFormed.record_excerpt (hw : w.IsWellFormed) (line : Nat) :
    w.excerpt.record line = w.record line := by
  have hasync : w.excerpt.code.afterAsync.isSome = w.isAsync := by
    cases hw : w.isAsync <;> simp [Written.excerpt, hw]
  simp only [Excerpt.record, record, hasync]
  simp only [Written.excerpt, description_readBlock hw.items hw.holds,
    parameters_readBlock hw.items hw.holds, returnValues_readBlock hw.items hw.holds,
    permissionsOf_readBlock hw.items hw.holds]

end Written

/-! ## Reading a source -/

/-- The text of a source: functions with some text in front of each, and what comes last. -/
def sourceText (ws : List (Text × Written)) (last : Text) : Text :=
  ws.flatMap (fun p ↦ p.1 ++ p.2.text) ++ last

/-- The records of the functions of a source that stands behind `line` newlines. -/
def recordsFrom (line : Nat) : List (Text × Written) → List Function
  | [] => []
  | (before, w) :: ws =>
    w.record (line + (before ++ w.block).count '\n' + 1) ::
      recordsFrom (line + (before ++ w.text).count '\n') ws

/-- One function is read, and the search goes on behind its closing brace. -/
theorem functionsFrom_written (line : Nat) {before : Text} (hbefore : ¬"/**".toList <:+: before)
    (hw : w.IsWellFormed) (r : Text) :
    functionsFrom line (before ++ w.text ++ r) =
      w.record (line + (before ++ w.block).count '\n' + 1) ::
        functionsFrom (line + (before ++ w.text).count '\n') r := by
  have hfound := functionsFrom_found line hbefore hw.excerpt r
  rwa [w.text_excerpt, w.block_excerpt, hw.record_excerpt, ← List.append_assoc] at hfound

theorem functionsFrom_sourceText {ws : List (Text × Written)} {last : Text}
    (hws : ∀ p ∈ ws, ¬"/**".toList <:+: p.1 ∧ p.2.IsWellFormed)
    (hlast : ¬"/**".toList <:+: last) (line : Nat) :
    functionsFrom line (sourceText ws last) = recordsFrom line ws := by
  induction ws generalizing line with
  | nil => exact functionsFrom_eq_nil line (nextBlock?_eq_none hlast)
  | cons p ws ih =>
    obtain ⟨hbefore, hw⟩ := hws p List.mem_cons_self
    have hsource : sourceText (p :: ws) last = p.1 ++ p.2.text ++ sourceText ws last := by
      rw [sourceText, List.flatMap_cons, List.append_assoc, sourceText]
    rw [hsource, functionsFrom_written line hbefore hw,
      ih fun q hq ↦ hws q (List.mem_cons_of_mem p hq)]
    rfl

/-! ## Distinct names -/

theorem map_name_recordsFrom (line : Nat) (ws : List (Text × Written)) :
    (recordsFrom line ws).map Function.name = ws.map fun p ↦ p.2.name := by
  induction ws generalizing line with
  | nil => rfl
  | cons p ws ih =>
    rw [recordsFrom, List.map_cons, ih, List.map_cons]
    rfl

/-- **Documentation is read back.** Of a source in which well-formed functions with distinct names
stand behind their blocks, with no beginning of a block between them, extraction gives exactly the
records of these functions, in their order. -/
theorem extract_sourceText {ws : List (Text × Written)} {last : Text}
    (hws : ∀ p ∈ ws, ¬"/**".toList <:+: p.1 ∧ p.2.IsWellFormed)
    (hnames : (ws.map fun p ↦ p.2.name).Nodup) (hlast : ¬"/**".toList <:+: last) :
    extract (sourceText ws last) = recordsFrom 0 ws := by
  rw [extract, functionsFrom_sourceText hws hlast, distinct, distinctFrom_eq_self]
  · exact fun f _ ↦ List.not_mem_nil
  · rw [map_name_recordsFrom]
    exact hnames

/-- Items in no particular order, with two free texts and two lists of permissions. -/
def fetchItems : List Item :=
  [.param "string".toList "url".toList "Where - to".toList, .text "Gets a page.".toList,
    .permissions [⟨"Net".toList, "a.example:80".toList⟩, ⟨"Log".toList, "all".toList⟩],
    .returns true "Page".toList "The page".toList, .text "Not cached.".toList,
    .param "number".toList "tries".toList [], .permissions [⟨"Clock".toList, "read".toList⟩]]

/-- Two functions with a comment in front and a statement between them. -/
def fetchAndStop : List (Text × Written) :=
  [("// net\n".toList,
      ⟨fetchItems, layout fetchItems, ['\n'], true, "get".toList, "url, tries".toList,
        "\n  /** */ return url;".toList⟩),
    ("\nlet n;\n".toList,
      ⟨[.text "Stops.".toList, .returns false "void".toList []],
        " Stops.\r\n\n@return \x7bvoid\x7d".toList, [], false, "$stop".toList, [], []⟩)]

theorem extract_sourceText_fetchAndStop :
    extract (sourceText fetchAndStop ['\n']) = recordsFrom 0 fetchAndStop := by
  refine extract_sourceText ?_ ?_ ?_ <;> decide +kernel

end PluginPack.Documentation
