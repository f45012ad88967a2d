import PluginPack.Proofs.Untyped.Bracket

/-!
# Parameters without types

A parameter without a type is a name or a pattern, perhaps with a default value. Outside brackets
there is no colon in front of its equals sign, and commas only stand between parameters, so a list
of such parameters stays as it is. Colons behind the equals sign, as in conditionals, do no harm.
-/

namespace PluginPack

open Text Script TypeSyntax

namespace Untyped

variable {last r w : Text} {s : Symbol} {is : List Item} {ts us : List Token}

/-! ## One parameter -/

/-- Where the type or the default value of a parameter begins. -/
def beginsType (c : Char) : Bool := c == ':' || c == '='

theorem splitTopLevel?_white_eq_none {p : Char → Bool} (hw : ∀ c ∈ w, isWhite c = true)
    (hp : ∀ c, isWhite c = true → p c = false) (d : Nat) : splitTopLevel? p d w = none := by
  have happ := splitTopLevel?_white (p := p) (d := d) hw (fun _ c hc ↦ hp c (hw c hc)) []
  rwa [List.append_nil, splitTopLevel?, attach_none] at happ

theorem beginsType_of_isWhite {c : Char} (hc : isWhite c = true) : beginsType c = false := by
  rw [beginsType, Bool.or_eq_false_iff, beq_eq_false_iff_ne, beq_eq_false_iff_ne]
  constructor <;> rintro rfl <;> cases hc

/-- The kinds that stand outside brackets in a name or a pattern, perhaps behind three points. -/
def isTargetKind (k : Kind) : Bool := k == .binding || k == .mark

/-- A name or a pattern holds neither a colon nor an equals sign outside brackets. -/
theorem splitTopLevel?_target (h : Derives is ts) (hproper : ∀ i ∈ is, i.isProper = true)
    (hstays : ∀ i ∈ is, i.stays isTargetKind [.target] = true) (hlaid : Laid (ts ++ us))
    (hlast : ∀ c ∈ last, isWhite c = true) :
    splitTopLevel? beginsType 0 (write ts ++ (write us ++ last)) =
      attach (write ts) (splitTopLevel? beginsType 0 (write us ++ last)) := by
  refine splitTopLevel?_write isTargetKind [.target] (by decide) ?_
    (fun c hc ↦ beginsType_of_isWhite hc) hlast h hproper 0 us hlaid fun _ ↦ hstays
  intro t ht hk _ c hc
  have hspells := ht.2
  rw [isTargetKind, Bool.or_eq_true, beq_iff_eq, beq_iff_eq] at hk
  rcases hk with hk | hk
  · rw [hk] at hspells
    have hid := all_of_isIdentifier hspells c hc
    rw [beginsType, Bool.or_eq_false_iff, beq_eq_false_iff_ne, beq_eq_false_iff_ne]
    constructor <;> rintro rfl <;> cases hid
  · rw [hk] at hspells
    have hall : ∀ w ∈ Kind.mark.spellings, ∀ c ∈ w, beginsType c = false := by decide
    exact hall t.text (by simpa [Kind.spells] using hspells) c hc

/-- A parameter stays as it is when no colon stands in front of its equals sign. -/
theorem eraseParameterType_eq_self
    (h : ∀ name type, splitTopLevel? beginsType 0 r ≠ some (name, ':' :: type)) :
    eraseParameterType r = r := by
  rw [eraseParameterType]
  split
  · rename_i name type hsplit
    exact absurd hsplit (h name type)
  · rfl

theorem eraseParameterType_of_none (h : splitTopLevel? beginsType 0 r = none) :
    eraseParameterType r = r :=
  eraseParameterType_eq_self fun name type hsome ↦ by rw [h] at hsome; cases hsome

theorem eraseParameterType_white (hw : ∀ c ∈ w, isWhite c = true) : eraseParameterType w = w :=
  eraseParameterType_of_none
    (splitTopLevel?_white_eq_none hw (fun _ hc ↦ beginsType_of_isWhite hc) 0)

theorem eraseParameterType_target (h : Derives is ts) (hproper : ∀ i ∈ is, i.isProper = true)
    (hstays : ∀ i ∈ is, i.stays isTargetKind [.target] = true) (hlaid : Laid ts)
    (hw : ∀ c ∈ w, isWhite c = true) : eraseParameterType (write ts ++ w) = write ts ++ w := by
  rw [← List.append_nil ts] at hlaid
  have hsplit := splitTopLevel?_target h hproper hstays hlaid hw
  rw [write_nil, List.nil_append,
    splitTopLevel?_white_eq_none hw (fun _ hc ↦ beginsType_of_isWhite hc) 0, attach_none] at hsplit
  exact eraseParameterType_of_none hsplit

/-- A parameter without a type stays as it is. -/
theorem eraseParameterType_parameter (h : Derives [.symbol .parameter] ts) (hlaid : Laid ts)
    (hw : ∀ c ∈ w, isWhite c = true) : eraseParameterType (write ts ++ w) = write ts ++ w := by
  obtain ⟨js, hjs, h⟩ := h.exists_production
  simp only [productions, List.mem_cons, List.not_mem_nil, or_false] at hjs
  rcases hjs with rfl | rfl
  · exact eraseParameterType_target h (by decide) (by decide) hlaid hw
  · have happ : Derives ([.symbol .target] ++ [.one .equals ["="], .symbol .expression]) ts := h
    obtain ⟨us, vs, rfl, hus, hvs⟩ := happ.exists_append
    cases hvs with
    | @token _ _ e _ vs he hfits _ =>
      -- The first that is found is the equals sign.
      have hspelled := hlaid.of_append
      have htext : e.text = ['='] := by
        have heq : (['='] == e.text || false) = true := hfits
        rw [Bool.or_false, beq_iff_eq] at heq
        exact heq.symm
      have hstop := stopsEquals_of_laid hspelled he hw
      refine eraseParameterType_eq_self fun name type hsome ↦ ?_
      rw [write_append, List.append_assoc,
        splitTopLevel?_target hus (by decide) (by decide) hlaid hw, write_cons, htext,
        List.append_assoc, List.append_assoc, List.singleton_append,
        splitTopLevel?_white hspelled.white
          (fun _ c hc ↦ beginsType_of_isWhite (hspelled.white c hc)),
        splitTopLevel?_found (inert?_eq_none (by decide) (by decide) _) (fun h ↦ hstop h.2)
          (by decide) (by decide) (by decide)] at hsome
      cases hsome

/-! ## Parameter lists -/

/-- Symbols that stand for no comma outside brackets. -/
def unlisted : List Symbol :=
  [.operand, .chain, .expression, .arrow, .body, .routine, .block, .target, .parameter]

theorem comma_of_isWhite {c : Char} (hc : isWhite c = true) : (c == ',') = false := by
  rw [beq_eq_false_iff_ne]
  rintro rfl
  cases hc

theorem splitTopLevel?_unlisted (h : Derives is ts) (hproper : ∀ i ∈ is, i.isProper = true)
    (hstays : ∀ i ∈ is, i.stays (· != .comma) unlisted = true) (hlaid : Laid (ts ++ us))
    (hlast : ∀ c ∈ last, isWhite c = true) :
    splitTopLevel? (· == ',') 0 (write ts ++ (write us ++ last)) =
      attach (write ts) (splitTopLevel? (· == ',') 0 (write us ++ last)) := by
  refine splitTopLevel?_write (· != .comma) unlisted (by decide) ?_ (fun c hc ↦ comma_of_isWhite hc)
    hlast h hproper 0 us hlaid fun _ ↦ hstays
  intro t ht hk hstring c hc
  rw [beq_eq_false_iff_ne]
  rintro rfl
  rcases spells_iff.mp ht.2 with ⟨-, h⟩ | ⟨-, h⟩ | ⟨h, -⟩ | h
  · exact absurd (all_of_isIdentifier h _ hc) (by decide)
  · exact absurd (all_of_isNumber h _ hc) (by decide)
  · exact hstring h
  · have hall : ∀ k ∈ Kind.all, (k != .comma) = true → ∀ w ∈ k.spellings, ',' ∉ w := by
      decide
    exact hall _ (Kind.mem_all _) hk _ h hc

theorem eraseParameterTypes_of_none (h : splitTopLevel? (· == ',') 0 r = none) :
    eraseParameterTypes r = eraseParameterType r := by
  rw [eraseParameterTypes]
  split
  · rename_i hsome
    rw [h] at hsome
    cases hsome
  · rfl

theorem eraseParameterTypes_of_some {c : Char}
    (h : splitTopLevel? (· == ',') 0 r = some (w, c :: last)) :
    eraseParameterTypes r = eraseParameterType w ++ c :: eraseParameterTypes last := by
  rw [eraseParameterTypes]
  split
  · rename_i hsome
    rw [h] at hsome
    cases hsome
    rfl
  · rename_i hnone
    exact absurd h (hnone _ _ _)

/-- Without a comma there is one parameter. -/
theorem eraseParameterTypes_unlisted (h : Derives is ts) (hproper : ∀ i ∈ is, i.isProper = true)
    (hstays : ∀ i ∈ is, i.stays (· != .comma) unlisted = true) (hlaid : Laid ts)
    (hw : ∀ c ∈ w, isWhite c = true) :
    eraseParameterTypes (write ts ++ w) = eraseParameterType (write ts ++ w) := by
  rw [← List.append_nil ts] at hlaid
  have hsplit := splitTopLevel?_unlisted h hproper hstays hlaid hw
  rw [write_nil, List.nil_append,
    splitTopLevel?_white_eq_none hw (fun _ hc ↦ comma_of_isWhite hc) 0, attach_none] at hsplit
  exact eraseParameterTypes_of_none hsplit

/-- **Parameter lists without types** stay as they are. -/
theorem eraseParameterTypes_parameters (h : Derives [.symbol .parameters] ts) (hlaid : Laid ts)
    (hw : ∀ c ∈ w, isWhite c = true) : eraseParameterTypes (write ts ++ w) = write ts ++ w := by
  induction hn : ts.length using Nat.strongRecOn generalizing ts with
  | ind n ih =>
    subst hn
    obtain ⟨js, hjs, h⟩ := h.exists_production
    have hproper := isProper_of_mem_productions hjs
    simp only [productions, List.mem_cons, List.not_mem_nil, or_false] at hjs
    rcases hjs with rfl | rfl | rfl | rfl
    · cases h
      rw [eraseParameterTypes_unlisted .nil (by simp) (by simp) trivial hw]
      exact eraseParameterType_white hw
    · rw [eraseParameterTypes_unlisted h hproper (by decide) hlaid hw]
      exact eraseParameterType_parameter h hlaid hw
    · have happ : Derives ([.symbol .parameter] ++ [.any .comma, .symbol .parameters]) ts := h
      obtain ⟨us, vs, rfl, hus, hvs⟩ := happ.exists_append
      cases hvs with
      | @token _ _ c _ vs hc _ hvs =>
        have hspelled := hlaid.of_append
        have htext := text_of_comma hspelled.spells hc
        have hsplit : splitTopLevel? (· == ',') 0 (write (us ++ c :: vs) ++ w) =
            some (write us ++ c.gap, ',' :: (write vs ++ w)) := by
          rw [write_append, List.append_assoc, splitTopLevel?_unlisted hus (by simp [Item.isProper])
            (by decide) hlaid hw, write_cons, htext, List.append_assoc, List.append_assoc,
            List.singleton_append, splitTopLevel?_white hspelled.white
              (fun _ c hc ↦ comma_of_isWhite (hspelled.white c hc)),
            splitTopLevel?_found (inert?_eq_none (by decide) (by decide) _)
              (fun h ↦ absurd h.1 (by decide)) (by decide) (by decide) (by decide)]
          simp
        rw [eraseParameterTypes_of_some hsplit,
          eraseParameterType_parameter hus hlaid.left_of_append hspelled.white,
          ih vs.length (by simp; omega) hvs hspelled.tail rfl, write_append, write_cons, htext]
        simp
    · rw [eraseParameterTypes_unlisted h hproper (by decide) hlaid hw]
      exact eraseParameterType_target h hproper (by decide) hlaid hw

/-- What is caught stays as it is. -/
theorem eraseParameterTypes_target (h : Derives [.symbol .target] ts) (hlaid : Laid ts)
    (hw : ∀ c ∈ w, isWhite c = true) : eraseParameterTypes (write ts ++ w) = write ts ++ w := by
  rw [eraseParameterTypes_unlisted h (by decide) (by decide) hlaid hw]
  exact eraseParameterType_target h (by decide) (by decide) hlaid hw

end Untyped

end PluginPack
