import PluginPack.Proofs.Documentation.Search

/-!
# Where extracted functions stand

Whatever text a source is, each function that is extracted stands in it piece by piece: its block,
its signature and its body. The functions stand in the order of their records, none reaches into
another, and the line of each is that of its word `export`.
-/

namespace PluginPack.Documentation

open Text

variable {line : Nat} {t w : Text} {fs gs : List Function}

/-! ## What a block says -/

theorem index_of_getElem?_parameters {lines : List Line} {i : Nat} {p : Parameter}
    (h : (parameters lines)[i]? = some p) : p.index = i := by
  rw [parameters, List.getElem?_map, Option.map_eq_some_iff] at h
  obtain ⟨q, hq, rfl⟩ := h
  obtain ⟨_, _, rfl⟩ := Option.map_eq_some_iff.mp (List.getElem?_zipIdx ▸ hq)
  exact Nat.zero_add i

theorem index_of_getElem?_returnValues {lines : List Line} {i : Nat} {p : Return}
    (h : (returnValues lines)[i]? = some p) : p.index = i := by
  rw [returnValues, List.getElem?_map, Option.map_eq_some_iff] at h
  obtain ⟨q, hq, rfl⟩ := h
  obtain ⟨_, _, rfl⟩ := Option.map_eq_some_iff.mp (List.getElem?_zipIdx ▸ hq)
  exact Nat.zero_add i

/-- What a line can say. -/
inductive IsReading (l : Text) : Line → Prop where
  | param (type name description : Text) : IsReading l (.param type name description)
  | returns (type description : Text) : IsReading l (.returns type description)
  | permissions (list : Text) : IsReading l (.permissions (readPermissions list))
  | text (h : l ≠ []) : IsReading l (.text l)
  | other : IsReading l .other

theorem isReading_read (l : Text) : IsReading l (Line.read l) := by
  rw [Line.read]
  cases hl : (param? l).or <| (returns? l).or (permissions? l) with
  | none =>
    rw [Option.getD_none]
    split
    · exact .other
    · next hhead => exact .text fun hnil ↦ hhead (by rw [hnil]; rfl)
  | some x =>
    rw [Option.getD_some]
    rcases Option.or_eq_some_iff.mp hl with hparam | ⟨-, hl⟩
    · obtain ⟨_, -, hparam⟩ := Option.bind_eq_some_iff.mp hparam
      obtain ⟨⟨type, _⟩, -, hparam⟩ := Option.bind_eq_some_iff.mp hparam
      obtain ⟨_, -, hparam⟩ := Option.bind_eq_some_iff.mp hparam
      dsimp only at hparam
      split_ifs at hparam
      cases hparam
      exact .param _ _ _
    rcases Option.or_eq_some_iff.mp hl with hreturns | ⟨-, hpermissions⟩
    · obtain ⟨_, -, hreturns⟩ := Option.bind_eq_some_iff.mp hreturns
      obtain ⟨⟨type, _⟩, -, rfl⟩ := Option.map_eq_some_iff.mp hreturns
      exact .returns _ _
    obtain ⟨_, -, hlist⟩ := Option.bind_eq_some_iff.mp hpermissions
    obtain ⟨r, -, hlist⟩ := Option.bind_eq_some_iff.mp hlist
    split at hlist
    · cases hlist
    · cases hlist
      exact .permissions _

theorem capability_ne_nil_of_mem_permissionsOf {inner : Text} {p : Permission}
    (h : p ∈ permissionsOf (readBlock inner)) : p.capability ≠ [] := by
  obtain ⟨line, hline, hp⟩ := List.mem_flatMap.mp h
  obtain ⟨l, -, rfl⟩ := List.mem_map.mp hline
  have hread := isReading_read (cleanLine l)
  split at hp
  · rename_i ps hps
    rw [hps] at hread
    cases hread with
    | permissions list => simpa using (List.mem_filter.mp hp).2
  · cases hp

/-- Indices count the parameters and the return values, and each permission has a capability. -/
structure Function.IsRegular (f : Function) : Prop where
  parameters : ∀ (i : Nat) (p : Parameter), f.parameters[i]? = some p → p.index = i
  returns : ∀ (i : Nat) (p : Return), f.returns[i]? = some p → p.index = i
  permissions : ∀ p ∈ f.permissions, p.capability ≠ []

theorem Excerpt.isRegular_record (e : Excerpt) (line : Nat) : (e.record line).IsRegular where
  parameters _ _ := index_of_getElem?_parameters
  returns _ _ := index_of_getElem?_returnValues
  permissions _ := capability_ne_nil_of_mem_permissionsOf

/-! ## Places -/

/-- Functions stand in a text, one behind the other, and each behind any text. The text itself
stands behind `line` newlines. -/
inductive Located : Nat → List Function → Text → Prop where
  | nil (line : Nat) (t : Text) : Located line [] t
  | cons {line : Nat} {r : Text} {e : Excerpt} {fs : List Function} (before : Text)
    (he : e.IsWellFormed) (h : Located (line + (before ++ e.text).count '\n') fs r) :
    Located line (e.record (line + (before ++ e.block).count '\n' + 1) :: fs)
      (before ++ (e.text ++ r))

namespace Located

theorem append_left (w : Text) (h : Located (line + w.count '\n') fs t) :
    Located line fs (w ++ t) := by
  cases h with
  | nil => exact .nil _ _
  | @cons _ r e fs before he h =>
    have hcount (u : Text) : line + w.count '\n' + (before ++ u).count '\n' =
        line + (w ++ before ++ u).count '\n' := by
      rw [List.append_assoc, ← add_count_append]
    rw [hcount] at h ⊢
    rw [← List.append_assoc]
    exact .cons (w ++ before) he h

/-- A function that is left out becomes text in front of the next one. -/
theorem sublist (h : Located line fs t) (hsub : gs.Sublist fs) : Located line gs t := by
  induction h generalizing gs with
  | nil =>
    rw [List.sublist_nil.mp hsub]
    exact .nil _ _
  | @cons line r e fs before he _ ih =>
    cases hsub with
    | cons _ hsub =>
      rw [← List.append_assoc]
      exact (ih hsub).append_left (before ++ e.text)
    | cons_cons _ hsub => exact .cons before he (ih hsub)

theorem lt_line (h : Located line fs t) : ∀ f ∈ fs, line < f.line := by
  induction h with
  | nil => exact fun f hf ↦ absurd hf List.not_mem_nil
  | @cons line r e fs before he _ ih =>
    intro f hf
    rcases List.mem_cons.mp hf with rfl | hf
    · simp only [Excerpt.record]
      omega
    · exact (Nat.le_add_right _ _).trans_lt (ih f hf)

/-- No two functions stand on one line, since each ends with a newline and a brace. -/
theorem pairwise_line (h : Located line fs t) : fs.Pairwise (·.line < ·.line) := by
  induction h with
  | nil => exact List.Pairwise.nil
  | @cons line r e fs before he h ih =>
    refine List.pairwise_cons.mpr ⟨fun f hf ↦ ?_, ih⟩
    have hnewline : 0 < e.code.text.count '\n' := List.count_pos_iff.mpr e.code.newline_mem_text
    have hcount := e.add_count_text line before
    have hf := h.lt_line f hf
    simp only [Excerpt.record]
    omega

theorem isRegular (h : Located line fs t) : ∀ f ∈ fs, f.IsRegular := by
  induction h with
  | nil => exact fun f hf ↦ absurd hf List.not_mem_nil
  | cons before he _ ih => exact List.forall_mem_cons.mpr ⟨Excerpt.isRegular_record _ _, ih⟩

end Located

theorem located_functionsFrom (line : Nat) (t : Text) : Located line (functionsFrom line t) t := by
  induction walk t generalizing line with
  | stop h =>
    rw [functionsFrom_eq_nil line h]
    exact .nil line _
  | @found before r e hbefore he _ ih =>
    rw [functionsFrom_found line hbefore he]
    exact .cons before he (ih _)
  | @skipped before inner r hbefore hinner hr _ ih =>
    rw [functionsFrom_skipped line hbefore hinner hr, ← List.append_assoc]
    exact (ih _).append_left (before ++ blockText inner)

/-- **Extraction is sound.** Whatever the text of a source is, the extracted functions have distinct
names and stand in it piece by piece, each on the line of its record and one behind the other. The
lines increase, indices count parameters and return values, and each permission has a capability. A
documented function in front of which no block begins is the first of them, whatever comes behind
it. -/
theorem extract_sound (source : Text) :
    ((extract source).map Function.name).Nodup ∧ (extract source).Pairwise (·.line < ·.line) ∧
      (∀ f ∈ extract source, f.IsRegular) ∧ Located 0 (extract source) source ∧
      ∀ (before : Text) (e : Excerpt) (r : Text), ¬"/**".toList <:+: before → e.IsWellFormed →
        source = before ++ (e.text ++ r) →
        (extract source).head? = some (e.record ((before ++ e.block).count '\n' + 1)) := by
  have hlocated : Located 0 (extract source) source :=
    (located_functionsFrom 0 source).sublist (distinctFrom_sublist [] _)
  refine ⟨(nodup_map_name_distinctFrom [] _).1, hlocated.pairwise_line, hlocated.isRegular,
    hlocated, ?_⟩
  rintro before e r hbefore he rfl
  rw [extract, head?_distinct, functionsFrom_found 0 hbefore he, List.head?_cons, Nat.zero_add]

end PluginPack.Documentation
