import PluginPack.Proofs.Offset.Literal
import PluginPack.Proofs.Text.Span

/-!
# Stretches of code by byte offsets

The loop that rewrites every stretch of code between literals and comments. What it writes is what
stands between the literals and comments that the scan steps over, rewritten, and these themselves
as they are.
-/

namespace PluginPack.Offset

open Text Script TypeSyntax

/-- Rewrites the stretches of code from an offset on, with the current stretch beginning before. -/
def mapCodeFrom (code : Text) (f : Text → Text) (start i : Nat) : Checked Text :=
  if i < (bytes code).length then
    match hinert : inertEnd (bytes code) i with
    | none => none
    | some (some stop) => do
      have := lt_of_inertEnd hinert
      let stretch ← slice? code start i
      let skipped ← slice? code i stop
      return f stretch ++ skipped ++ (← mapCodeFrom code f stop stop)
    | some none => mapCodeFrom code f start (i + 1)
  else do return f (← slice? code start (bytes code).length)
termination_by (bytes code).length - i
decreasing_by all_goals omega

/-- Rewrites every stretch of code between literals and comments. -/
def mapCode (code : Text) (f : Text → Text) : Checked Text := mapCodeFrom code f 0 0

/-- From an offset on, the bytes are those of a stretch of code and of literals and comments with
stretches of code behind them. No literal and no comment begins at any offset in a stretch, and the
scan steps over each literal and comment from its first byte to its last. -/
inductive Alternates (b : Bytes) : Nat → Text → List (Text × Text) → Prop
  | last {i : Nat} {w : Text} (code : ∀ k < utf8Length w, inertEnd b (i + k) = some none)
      (ends : i + utf8Length w = b.length) : Alternates b i w []
  | more {i : Nat} {w lit v : Text} {rest : List (Text × Text)}
      (code : ∀ k < utf8Length w, inertEnd b (i + k) = some none)
      (skips : inertEnd b (i + utf8Length w) = some (some (i + utf8Length w + utf8Length lit)))
      (next : Alternates b (i + utf8Length w + utf8Length lit) v rest) :
      Alternates b i w ((lit, v) :: rest)

variable {a s t w lit r code : Text} {c : Char} {f : Text → Text} {i j start : Nat} {bs : Bytes}
  {rest : List (Text × Text)}

/-! ## Stretches of the bytes -/

/-- A character in front of a stretch. -/
theorem Alternates.cons (hc : ∀ k < c.utf8Size, inertEnd bs (i + k) = some none)
    (h : Alternates bs (i + c.utf8Size) w rest) : Alternates bs i (c :: w) rest := by
  have hcode (hw : ∀ k < utf8Length w, inertEnd bs (i + c.utf8Size + k) = some none) :
      ∀ k < utf8Length (c :: w), inertEnd bs (i + k) = some none := by
    intro k hk
    rw [utf8Length_cons] at hk
    rcases Nat.lt_or_ge k c.utf8Size with hlt | hge
    · exact hc k hlt
    · obtain ⟨k, rfl⟩ := Nat.exists_eq_add_of_le hge
      rw [← Nat.add_assoc]
      exact hw k (by omega)
  cases h with
  | last hw hends => exact .last (hcode hw) (by rw [utf8Length_cons, ← Nat.add_assoc, hends])
  | more hw hskips hnext =>
    refine .more (hcode hw) ?_ ?_
    · rw [utf8Length_cons, ← Nat.add_assoc]
      exact hskips
    · rw [utf8Length_cons, ← Nat.add_assoc]
      exact hnext

/-- The cut of a text into code, literals and comments is a cut of its bytes. -/
theorem alternates_cutFrom (before : Option Char) (a t : Text) :
    Alternates (bytes (a ++ t)) (utf8Length a) (inert.cutFrom before t).first
      ((inert.cutFrom before t).rest.map fun p ↦ (p.1.lexeme, p.2)) := by
  induction hn : t.length using Nat.strongRecOn generalizing before a t with
  | ind n ih =>
    subst hn
    cases t with
    | nil =>
      rw [Marker.cutFrom_nil]
      exact .last (by simp [Cut.empty]) (by simp [Cut.empty])
    | cons c s =>
      cases hinert : inert? (c :: s) with
      | none =>
        have hnext := ih s.length (Nat.lt_succ_self _) (some c) (a ++ [c]) s rfl
        rw [← List.append_cons, utf8Length_append, utf8Length_cons, utf8Length_nil,
          Nat.add_zero] at hnext
        rw [Marker.cutFrom_of_none inert hinert]
        exact .cons (fun k ↦ inertEnd_within hinert a) hnext
      | some p =>
        obtain ⟨lit, r⟩ := p
        have hsplit := inert?_append hinert
        have hlit : Marker.consumed (c :: s) r = lit := hsplit ▸ Marker.consumed_left lit r
        have hnext := ih r.length (inert?_length_lt hinert) lit.getLast? (a ++ lit) r rfl
        have hskips := inertEnd_of_some hinert a
        rw [List.append_assoc, hsplit, utf8Length_append] at hnext
        rw [utf8Length_append] at hskips
        rw [Marker.cutFrom_of_some inert hinert, hlit]
        exact .more (by simp [Cut.mark]) hskips hnext

/-! ## The loop -/

theorem mapCodeFrom_end (h : (bytes code).length ≤ i) :
    mapCodeFrom code f start i = (slice? code start (bytes code).length).map f := by
  rw [mapCodeFrom, if_neg (Nat.not_lt.mpr h)]
  cases slice? code start (bytes code).length <;> rfl

theorem mapCodeFrom_byte (h : inertEnd (bytes code) i = some none) (hi : i < (bytes code).length) :
    mapCodeFrom code f start i = mapCodeFrom code f start (i + 1) := by
  rw [mapCodeFrom, if_pos hi]
  split <;> simp_all

theorem mapCodeFrom_inert (h : inertEnd (bytes code) i = some (some j))
    (hi : i < (bytes code).length) (hw : slice? code start i = some w)
    (hlit : slice? code i j = some lit) :
    mapCodeFrom code f start i = (mapCodeFrom code f j j).map (f w ++ lit ++ ·) := by
  rw [mapCodeFrom, if_pos hi]
  split
  · next hnone => cases h.symm.trans hnone
  · next hsome =>
    cases h.symm.trans hsome
    simp only [hw, hlit, Option.map_eq_bind]
    rfl
  · next hbyte => cases h.symm.trans hbyte

/-- **The loop over stretches** comes to an end, with every slice in range and between characters.
`w` is the current stretch, as far as it has been read. -/
theorem mapCodeFrom_eq (before : Option Char) (a w t : Text) (f : Text → Text) :
    mapCodeFrom (a ++ w ++ t) f (utf8Length a) (utf8Length (a ++ w)) =
      some (((inert.cutFrom before t).prepend w).render f Part.lexeme) := by
  induction hn : t.length using Nat.strongRecOn generalizing before a w t with
  | ind n ih =>
    subst hn
    cases t with
    | nil =>
      have hslice := slice?_append a w []
      rw [List.append_nil] at hslice ⊢
      rw [mapCodeFrom_end (by simp), length_bytes, hslice, Marker.cutFrom_nil,
        Cut.render_prepend_empty]
      rfl
    | cons c s =>
      have hlt := utf8Length_lt (a ++ w) c s
      cases hinert : inert? (c :: s) with
      | none =>
        have hnext := ih s.length (Nat.lt_succ_self _) (some c) a (w ++ [c]) s rfl
        have hpass : mapCodeFrom (a ++ w ++ c :: s) f (utf8Length a) (utf8Length (a ++ w)) =
            mapCodeFrom (a ++ w ++ c :: s) f (utf8Length a) (utf8Length (a ++ w ++ [c])) := by
          refine scan_from (i := 0) (fun k hk ↦ ?_) (Nat.zero_le _)
          refine mapCodeFrom_byte (inertEnd_within hinert _ hk) ?_
          rw [length_bytes, utf8Length_append (a ++ w), utf8Length_cons]
          omega
        rw [← List.append_assoc, ← List.append_cons] at hnext
        rw [hpass, hnext, Marker.cutFrom_of_none inert hinert]
        simp [Cut.push, Cut.prepend]
      | some p =>
        obtain ⟨lit, r⟩ := p
        have hsplit := inert?_append hinert
        have hnext := ih r.length (inert?_length_lt hinert) lit.getLast? (a ++ w ++ lit) [] r rfl
        have hw := slice?_append a w (c :: s)
        have hlit := slice?_append (a ++ w) lit r
        rw [List.append_assoc _ lit, hsplit] at hlit
        rw [List.append_nil, List.append_assoc _ lit, hsplit] at hnext
        rw [mapCodeFrom_inert (inertEnd_of_some hinert (a ++ w)) hlt hw hlit, hnext,
          Marker.cutFrom_of_some inert hinert, Cut.render_prepend_mark, Cut.prepend_nil, ← hsplit,
          Marker.consumed_left, Option.map_some, List.append_assoc]

theorem mapCode_eq (code : Text) (f : Text → Text) :
    mapCode code f = some (Script.mapCode f code) := mapCodeFrom_eq none [] [] code f

theorem render_inert (code : Text) (f : Text → Text) :
    (inert.cut code).render f Part.lexeme = f (inert.cut code).first ++
      ((inert.cut code).rest.map fun p ↦ (p.1.lexeme, p.2)).flatMap fun p ↦ p.1 ++ f p.2 := by
  rw [Cut.render, List.flatMap_map]

/-- **What the loop writes**: the literals and comments of the text as they are and in their order,
and between them the stretches of code, rewritten. -/
theorem exists_alternates (code : Text) : ∃ first rest, Alternates (bytes code) 0 first rest ∧
    code = first ++ rest.flatMap (fun p ↦ p.1 ++ p.2) ∧
    ∀ f, mapCode code f = some (f first ++ rest.flatMap fun p ↦ p.1 ++ f p.2) := by
  refine ⟨_, _, alternates_cutFrom none [] code, ?_, fun f ↦ ?_⟩
  · have hcode := inert.substitute_lexeme_cutFrom none code
    rw [Cut.substitute, ← Marker.cut, render_inert] at hcode
    exact hcode.symm
  · rw [mapCode_eq, Script.mapCode, render_inert]
    rfl

end PluginPack.Offset
