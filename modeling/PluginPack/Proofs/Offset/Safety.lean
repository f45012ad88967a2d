import PluginPack.Proofs.Offset.Annotation
import PluginPack.Proofs.Offset.Signature
import PluginPack.Proofs.Offset.Stretch

/-!
# The scans by byte offsets stay within the text

Every scan over the bytes of a text comes to an end and takes no slice that is out of range or cuts
a character, whatever the text is: with literals and comments that are never closed, with a
backslash at its end or in front of a wide character, with brackets that do not match. What the
scans find and write is what is found and written by characters.
-/

namespace PluginPack.Offset

open Text Script TypeSyntax

/-- The scans of a text by byte offsets, each beginning at any offset it may be given. -/
structure ScansSafely (code : Text) : Prop where
  /-- The scan over literals and comments steps forward, and from a boundary to a boundary. -/
  inert_forward : ∀ i, ∃ r, inertEnd (bytes code) i = some r ∧
    ∀ j ∈ r, i < j ∧ j ≤ (bytes code).length ∧ (IsBoundary code i → IsBoundary code j)
  inert_eq : ∀ a t, code = a ++ t → inertEnd (bytes code) (utf8Length a) =
    some ((inert? t).map fun p ↦ utf8Length (a ++ p.1))
  /-- The search for a closing parenthesis ends, and where it ends there is one. -/
  paren_between : ∀ i, ∃ r, closeParen (bytes code) i = some r ∧
    ∀ j ∈ r, i ≤ j ∧ j < (bytes code).length ∧ IsBoundary code j ∧ IsBoundary code (j + 1)
  paren_eq : ∀ a t, code = a ++ '(' :: t → closeParen (bytes code) (utf8Length a) =
    some ((closeParen? t).map fun p ↦ utf8Length (a ++ '(' :: p.1))
  /-- The loop over marks ends, and before and behind each mark there are boundaries. -/
  marks_between : ∀ c, ∃ r, topLevel code c = some r ∧ ∀ j ∈ r, j < (bytes code).length ∧
    (¬IsWide c → IsBoundary code j ∧ IsBoundary code (j + 1))
  /-- Each slice of a list of parameters, cut at these marks, is in range and between characters. -/
  parameters_eq : eraseParameterTypes code = some (TypeSyntax.eraseParameterTypes code)
  /-- The search for the end of an annotation ends, and it finds a boundary behind its start. -/
  annotation_forward : ∀ i, ∃ r, annotationEnd (bytes code) i = some r ∧
    ∀ j ∈ r, i < j ∧ j ≤ (bytes code).length ∧ IsBoundary code j
  annotation_eq : ∀ a t, code = a ++ t → annotationEnd (bytes code) (utf8Length a) =
    some ((afterAnnotation? t).map fun r ↦ utf8Length (a ++ Marker.consumed t r))
  /-- The loop over signatures ends, with every slice in range and between characters. -/
  signatures_eq : eraseSignatures code = some (TypeSyntax.eraseSignatures code)
  /-- The loop over stretches of code ends, with every slice in range and between characters. -/
  stretches_eq : ∀ f, mapCode code f = some (Script.mapCode f code)
  stretches_id : mapCode code id = some code
  /-- The text alternates between stretches of code and literals and comments. For all functions the
  loop writes the literals and comments as they are and in order, and the stretches rewritten. -/
  alternates : ∃ first rest, Alternates (bytes code) 0 first rest ∧
    code = first ++ rest.flatMap (fun p ↦ p.1 ++ p.2) ∧
    ∀ f, mapCode code f = some (f first ++ rest.flatMap fun p ↦ p.1 ++ f p.2)

/-- **The scans are safe** in every text. -/
theorem scans_safely (code : Text) : ScansSafely code where
  inert_forward i := by
    obtain ⟨r, hr, hforward⟩ := exists_inertEnd (bytes code) i
    refine ⟨r, hr, fun j hj ↦ ⟨(hforward j hj).1, (hforward j hj).2, fun _ ↦ ?_⟩⟩
    cases hj
    exact (isBoundary_of_inertEnd hr).2
  inert_eq a t hcode := hcode ▸ inertEnd_eq a t
  paren_between i := by
    obtain ⟨r, hr, hparen⟩ := exists_closingFrom (bytes code) 0 i
    refine ⟨r, hr, fun j hj ↦ ?_⟩
    obtain ⟨hle, hbyte⟩ := hparen j hj
    exact ⟨hle, lt_of_byteAt? hbyte, isBoundary_of_byteAt? hbyte (by decide)⟩
  paren_eq a t hcode := hcode ▸ closeParen_eq a t
  marks_between c := by
    obtain ⟨r, hr, hmark⟩ := exists_topLevelFrom (bytes code) c 0 0
    refine ⟨r, hr, fun j hj ↦ ?_⟩
    exact ⟨lt_of_byteAt? (hmark j hj).2, isBoundary_of_byteAt? (hmark j hj).2⟩
  parameters_eq := eraseParameterTypes_eq code
  annotation_forward i := by
    obtain ⟨r, hr, hmark⟩ := exists_annotationEnd (bytes code) i
    refine ⟨r, hr, fun j hj ↦ ?_⟩
    obtain ⟨hlt, hj⟩ := hmark j hj
    exact ⟨hlt, hj.lt.le, hj.isBoundary⟩
  annotation_eq a t hcode := hcode ▸ annotationEnd_eq a t
  signatures_eq := eraseSignatures_eq code
  stretches_eq := mapCode_eq code
  stretches_id := by
    rw [mapCode_eq, Script.mapCode, Marker.cut, ← Cut.substitute,
      inert.substitute_lexeme_cutFrom]
  alternates := exists_alternates code

end PluginPack.Offset
