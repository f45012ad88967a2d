import Mathlib.Data.List.Basic
import PluginPack.Manifest.PackageId

/-!
# The component of a display name

Going through a lowercased name once, with a note of what was left out last, writes what splitting
it and joining the pieces gives: the runs of kept characters with single hyphens between them. What
is written this way is its own component, and the components of two names put together with
something between them that leaves no character are the two components with a hyphen.
-/

namespace PluginPack

namespace PackageId

variable {t u s name a b sep : Text} {c : Char}

/-- The pieces of a text between the characters that are left out. -/
def pieces (t : Text) : List Text := t.splitOnP fun c ↦ !isKept c

/-- The runs of kept characters of a text, each as long as it can be. -/
def runs (t : Text) : List Text := (pieces t).filter (· ≠ [])

/-- Runs, each with a hyphen in front. -/
def hyphenated (rs : List Text) : Text := rs.flatMap ('-' :: ·)

theorem intercalate_cons_hyphenated (r : Text) (rs : List Text) :
    List.intercalate ['-'] (r :: rs) = r ++ hyphenated rs := by
  induction rs generalizing r with
  | nil => simp [hyphenated]
  | cons r' rs ih =>
    rw [List.intercalate_cons_cons, ih]
    simp [hyphenated]

/-! ## Runs -/

theorem exists_pieces_eq (t : Text) : ∃ p ps, pieces t = p :: ps :=
  List.exists_cons_of_ne_nil (List.splitOnP_ne_nil _ t)

theorem pieces_cons_of_dropped (hc : isKept c = false) (t : Text) :
    pieces (c :: t) = [] :: pieces t := by
  rw [pieces, List.splitOnP_cons_eq_if_modifyHead, hc]
  rfl

theorem pieces_cons_of_kept {p : Text} {ps : List Text} (hc : isKept c = true)
    (ht : pieces t = p :: ps) : pieces (c :: t) = (c :: p) :: ps := by
  rw [pieces, List.splitOnP_cons_eq_if_modifyHead, hc, ← pieces, ht]
  rfl

@[simp] theorem runs_nil : runs [] = [] := by simp [runs, pieces]

/-- A character that is left out ends a run. -/
theorem runs_append_cons (hc : isKept c = false) (t u : Text) :
    runs (t ++ c :: u) = runs t ++ runs u := by
  rw [runs, pieces, List.splitOnP_append_cons t u (by rw [hc]; rfl), List.filter_append]
  rfl

theorem runs_cons_of_dropped (hc : isKept c = false) (t : Text) : runs (c :: t) = runs t := by
  rw [← List.nil_append (c :: t), runs_append_cons hc, runs_nil, List.nil_append]

theorem runs_append_of_dropped (hs : ∀ c ∈ s, isKept c = false) (u : Text) :
    runs (s ++ u) = runs u := by
  induction s with
  | nil => rfl
  | cons c s ih =>
    rw [List.cons_append, runs_cons_of_dropped (hs c List.mem_cons_self),
      ih fun d hd ↦ hs d (List.mem_cons_of_mem c hd)]

/-- Runs do not meet where something between them is left out. -/
theorem runs_append_append (hs : ∀ c ∈ s, isKept c = false) (hne : s ≠ []) (t u : Text) :
    runs (t ++ (s ++ u)) = runs t ++ runs u := by
  obtain ⟨c, s, rfl⟩ := List.exists_cons_of_ne_nil hne
  rw [List.cons_append, runs_append_cons (hs c List.mem_cons_self),
    runs_append_of_dropped fun d hd ↦ hs d (List.mem_cons_of_mem c hd)]

theorem runs_of_kept (ht : ∀ c ∈ t, isKept c = true) (hne : t ≠ []) : runs t = [t] := by
  rw [runs, pieces, List.splitOnP_eq_singleton fun c hc ↦ by rw [ht c hc]; rfl]
  simp [hne]

theorem ne_nil_of_mem_runs (h : t ∈ runs u) : t ≠ [] := of_decide_eq_true (List.mem_filter.mp h).2

theorem isKept_of_mem_pieces (h : t ∈ pieces u) : ∀ c ∈ t, isKept c = true := by
  induction u generalizing t with
  | nil =>
    obtain rfl := List.mem_singleton.mp h
    exact fun c hc ↦ absurd hc List.not_mem_nil
  | cons d u ih =>
    obtain ⟨p, ps, hps⟩ := exists_pieces_eq u
    cases hd : isKept d with
    | false =>
      rw [pieces_cons_of_dropped hd] at h
      rcases List.mem_cons.mp h with rfl | h
      · exact fun c hc ↦ absurd hc List.not_mem_nil
      · exact ih h
    | true =>
      rw [pieces_cons_of_kept hd hps] at h
      rcases List.mem_cons.mp h with rfl | h
      · exact List.forall_mem_cons.mpr ⟨hd, ih (hps ▸ List.mem_cons_self)⟩
      · exact ih (hps ▸ List.mem_cons_of_mem p h)

theorem isKept_of_mem_runs (h : t ∈ runs u) : ∀ c ∈ t, isKept c = true :=
  isKept_of_mem_pieces (List.mem_of_mem_filter h)

/-! ## Going through a name once -/

/-- Behind a run that is over, every run is written with a hyphen; behind one that goes on, the
first piece still belongs to it. -/
theorem collapse_started (t : Text) :
    collapse true true t = hyphenated (runs t) ∧ ∀ p ps, pieces t = p :: ps →
      collapse true false t = p ++ hyphenated (ps.filter (· ≠ [])) := by
  induction t with
  | nil =>
    refine ⟨by simp [hyphenated, collapse], ?_⟩
    rintro p ps hps
    cases hps
    rfl
  | cons c t ih =>
    obtain ⟨hover, hopen⟩ := ih
    obtain ⟨p, ps, hps⟩ := exists_pieces_eq t
    have hopen := hopen p ps hps
    cases hc : isKept c with
    | false =>
      have hskip (pending : Bool) : collapse true pending (c :: t) = hyphenated (runs t) := by
        rw [collapse, hc, if_neg Bool.false_ne_true, hover]
      refine ⟨by rw [hskip, runs_cons_of_dropped hc], ?_⟩
      rintro p ps hps
      rw [pieces_cons_of_dropped hc] at hps
      cases hps
      rw [hskip, runs, List.nil_append]
    | true =>
      have hcons := pieces_cons_of_kept hc hps
      constructor
      · rw [runs, hcons, List.filter_cons_of_pos (by simp)]
        simp [collapse, hc, hopen, hyphenated]
      · rintro p ps hps
        rw [hcons] at hps
        cases hps
        simp [collapse, hc, hopen]

/-- Before the first kept character it makes no difference what was left out. -/
theorem collapse_unstarted (pending : Bool) (t : Text) :
    collapse false pending t = List.intercalate ['-'] (runs t) := by
  induction t generalizing pending with
  | nil => simp [collapse]
  | cons c t ih =>
    cases hc : isKept c with
    | false => rw [collapse, hc, if_neg Bool.false_ne_true, ih, runs_cons_of_dropped hc]
    | true =>
      obtain ⟨p, ps, hps⟩ := exists_pieces_eq t
      rw [collapse, if_pos hc, if_neg (by simp), (collapse_started t).2 p ps hps, runs,
        pieces_cons_of_kept hc hps, List.filter_cons_of_pos (by simp), intercalate_cons_hyphenated,
        List.cons_append]

theorem component_eq_intercalate (name : Text) :
    component name = List.intercalate ['-'] (runs (name.flatMap lowercase)) :=
  collapse_unstarted false _

/-! ## Joined runs -/

theorem runs_intercalate {rs : List Text} (h : ∀ r ∈ rs, r ≠ [] ∧ ∀ c ∈ r, isKept c = true) :
    runs (List.intercalate ['-'] rs) = rs := by
  induction rs with
  | nil => exact runs_nil
  | cons r rs ih =>
    obtain ⟨hne, hkept⟩ := h r List.mem_cons_self
    have ih := ih fun r' hr' ↦ h r' (List.mem_cons_of_mem r hr')
    cases rs with
    | nil => rw [List.intercalate_singleton, runs_of_kept hkept hne]
    | cons r' rs =>
      rw [List.intercalate_cons_cons, List.append_assoc, List.singleton_append,
        runs_append_cons (by decide), runs_of_kept hkept hne, ih, List.singleton_append]

theorem intercalate_append {rs rs' : List Text} (hrs : rs ≠ []) (hrs' : rs' ≠ []) :
    List.intercalate ['-'] (rs ++ rs') =
      List.intercalate ['-'] rs ++ '-' :: List.intercalate ['-'] rs' := by
  obtain ⟨r, rs, rfl⟩ := List.exists_cons_of_ne_nil hrs
  obtain ⟨r', rs', rfl⟩ := List.exists_cons_of_ne_nil hrs'
  rw [List.cons_append, intercalate_cons_hyphenated, intercalate_cons_hyphenated,
    intercalate_cons_hyphenated]
  simp [hyphenated]

/-- Whatever stays in an identifier is in lower case already. -/
theorem lowercase_of_kept (h : isKept c = true ∨ c = '-') : lowercase c = [c] := by
  have hrange : c.val.toNat = 45 ∨ 48 ≤ c.val.toNat ∧ c.val.toNat ≤ 57 ∨
      97 ≤ c.val.toNat ∧ c.val.toNat ≤ 122 := by
    rcases h with h | rfl
    · unfold isKept Char.isLower Char.isDigit at h
      simp only [Bool.or_eq_true, Bool.and_eq_true, decide_eq_true_eq, ge_iff_le,
        UInt32.le_iff_toNat_le] at h
      exact .inr (h.elim .inr .inl)
    · exact .inl rfl
  have hupper : ¬(c.val ≥ 'A'.val ∧ c.val ≤ 'Z'.val) := by
    simp only [ge_iff_le, UInt32.le_iff_toNat_le, not_and_or]
    have hA : 'A'.val.toNat = 65 := rfl
    have hZ : 'Z'.val.toNat = 90 := rfl
    omega
  have hascii : c.toNat < 128 := by
    rw [← Char.toNat_val]
    omega
  rw [lowercase, if_pos hascii]
  unfold Char.toLower
  rw [dif_neg hupper]

theorem lowercase_ne_nil (c : Char) : lowercase c ≠ [] := by
  rw [lowercase]
  split_ifs
  · exact List.cons_ne_nil _ _
  · exact List.cons_ne_nil _ _
  · split <;> exact List.cons_ne_nil _ _

theorem isKept_or_of_mem_component (h : c ∈ component name) : isKept c = true ∨ c = '-' := by
  have hjoin : ∀ rs : List Text, (∀ r ∈ rs, ∀ c ∈ r, isKept c = true) →
      ∀ c ∈ List.intercalate ['-'] rs, isKept c = true ∨ c = '-' := by
    intro rs hrs c hc
    cases rs with
    | nil => cases hc
    | cons r rs =>
      rw [intercalate_cons_hyphenated, hyphenated, List.mem_append, List.mem_flatMap] at hc
      rcases hc with hc | ⟨r', hr', hc⟩
      · exact .inl (hrs r List.mem_cons_self c hc)
      · rcases List.mem_cons.mp hc with rfl | hc
        · exact .inr rfl
        · exact .inl (hrs r' (List.mem_cons_of_mem r hr') c hc)
  rw [component_eq_intercalate] at h
  exact hjoin _ (fun r hr ↦ isKept_of_mem_runs hr) c h

theorem flatMap_lowercase_component (name : Text) :
    (component name).flatMap lowercase = component name := by
  have hself : ∀ t : Text, (∀ c ∈ t, isKept c = true ∨ c = '-') → t.flatMap lowercase = t := by
    intro t ht
    induction t with
    | nil => rfl
    | cons c t ih =>
      rw [List.flatMap_cons, lowercase_of_kept (ht c List.mem_cons_self),
        ih fun d hd ↦ ht d (List.mem_cons_of_mem c hd), List.singleton_append]
  exact hself _ fun c hc ↦ isKept_or_of_mem_component hc

theorem component_component (name : Text) : component (component name) = component name := by
  rw [component_eq_intercalate (component name), flatMap_lowercase_component]
  nth_rewrite 1 [component_eq_intercalate name]
  rw [runs_intercalate fun r hr ↦ ⟨ne_nil_of_mem_runs hr, isKept_of_mem_runs hr⟩,
    ← component_eq_intercalate]

theorem component_append (ha : component a ≠ []) (hb : component b ≠ []) (hsep : sep ≠ [])
    (hdropped : ∀ c ∈ sep.flatMap lowercase, isKept c = false) :
    component (a ++ sep ++ b) = component a ++ '-' :: component b := by
  have hruns : ∀ {x : Text}, component x ≠ [] → runs (x.flatMap lowercase) ≠ [] := by
    intro x hx hnil
    rw [component_eq_intercalate, hnil] at hx
    exact hx rfl
  have hne : sep.flatMap lowercase ≠ [] := by
    obtain ⟨c, sep, rfl⟩ := List.exists_cons_of_ne_nil hsep
    rw [List.flatMap_cons]
    exact List.append_ne_nil_of_left_ne_nil (lowercase_ne_nil c) _
  rw [component_eq_intercalate, List.append_assoc, List.flatMap_append, List.flatMap_append,
    runs_append_append hdropped hne, intercalate_append (hruns ha) (hruns hb),
    ← component_eq_intercalate, ← component_eq_intercalate]

/-- **A component is made of runs.** It is the runs of kept characters of the lowercased name with
hyphens between them, none of them empty; it is its own component; and what stands between two names
and leaves no character becomes one hyphen between their components. -/
theorem component_runs (name : Text) :
    (component name = List.intercalate ['-'] (runs (name.flatMap lowercase)) ∧
      ∀ r ∈ runs (name.flatMap lowercase), r ≠ [] ∧ ∀ c ∈ r, isKept c = true) ∧
    component (component name) = component name ∧
    ∀ sep other : Text, component name ≠ [] → component other ≠ [] → sep ≠ [] →
      (∀ c ∈ sep.flatMap lowercase, isKept c = false) →
      component (name ++ sep ++ other) = component name ++ '-' :: component other :=
  ⟨⟨component_eq_intercalate name, fun _ hr ↦ ⟨ne_nil_of_mem_runs hr, isKept_of_mem_runs hr⟩⟩,
    component_component name, fun _ _ ↦ component_append⟩

/-- A letter whose lowercase has two characters, of which one is left out, and a separator beyond
ASCII. -/
theorem component_runs_dotted :
    (component "My İ2".toList ≠ [] ∧ component "K".toList ≠ [] ∧ "é — ".toList ≠ [] ∧
      ∀ c ∈ "é — ".toList.flatMap lowercase, isKept c = false) ∧
      component ("My İ2".toList ++ "é — ".toList ++ "K".toList) = "my-i-2-k".toList := by
  have hname : component "My İ2".toList = "my-i-2".toList := by decide +kernel
  have hother : component "K".toList = "k".toList := by decide +kernel
  have hall : ("é — ".toList.flatMap lowercase).all (!isKept ·) = true := by decide +kernel
  have hdropped : ∀ c ∈ "é — ".toList.flatMap lowercase, isKept c = false := fun c hc ↦ by
    simpa using List.all_eq_true.mp hall c hc
  have hne : component "My İ2".toList ≠ [] ∧ component "K".toList ≠ [] := by
    rw [hname, hother]
    decide
  refine ⟨⟨hne.1, hne.2, by decide, hdropped⟩, ?_⟩
  rw [(component_runs "My İ2".toList).2.2 _ _ hne.1 hne.2 (by decide) hdropped, hname, hother]
  decide

end PackageId

end PluginPack
