import PluginPack.Proofs.FileSystem.Location

/-!
# Canonical paths

The paths that normalizing can give are written without anything to leave out: a single dot, or the
root with names behind it, or steps up with names behind them. Such a path is told by where it
leads. For an absolute path one place is enough. A relative path leads somewhere from every working
directory, and one that lies deeper than the path goes up, under names that the path does not use,
shows both how far it goes up and what names follow. So two paths have the same canonical form
exactly when they lead to the same places.
-/

namespace PluginPack

open Text FileSystem

namespace Path

variable {p q a b base : Path} {loc names names' : Location} {k k' : Nat}
  {before : List Component}

/-- A path is written as its components, and these are a single dot, or the root and names, or steps
up and names. -/
structure IsCanonical (p : Path) : Prop where
  written : p = ofComponents p.components
  shape : p.components = [.here] ∨
    (∃ names : List Text, (∀ n ∈ names, IsFileName n) ∧
      p.components = .root :: names.map .name) ∨
    ∃ (k : Nat) (names : List Text), (k ≠ 0 ∨ names ≠ []) ∧ (∀ n ∈ names, IsFileName n) ∧
      p.components = List.replicate k .up ++ names.map .name

/-! ## The two kinds of canonical form -/

theorem isCanonical_here : IsCanonical ⟨['.']⟩ where
  written := by decide
  shape := .inl (by decide)

theorem isCanonical_ofLocation (h : ∀ n ∈ names, IsFileName n) :
    IsCanonical (ofLocation names) where
  written := by rw [components_ofLocation h, ofLocation]
  shape := .inr (.inl ⟨names, h, components_ofLocation h⟩)

theorem isCanonical_ofSteps (h : ∀ n ∈ names, IsFileName n) (hne : k ≠ 0 ∨ names ≠ []) :
    IsCanonical (ofSteps k names) where
  written := by rw [components_ofSteps k h, ofSteps]
  shape := .inr (.inr ⟨k, names, hne, h, components_ofSteps k h⟩)

/-- Normal components that do not begin at the root are steps up and then names. -/
theorem IsNormal.exists_steps (h : IsNormal before) (hstep : ∀ c ∈ before, c.IsStep) :
    ∃ (k : Nat) (names : List Text), (∀ n ∈ names, IsFileName n) ∧
      before.reverse = List.replicate k .up ++ names.map .name := by
  induction h with
  | root => exact absurd rfl (hstep .root List.mem_cons_self).1
  | ups k => exact ⟨k, [], List.forall_mem_nil _, by simp⟩
  | @name before n _ _ _ ih =>
    obtain ⟨hn, hbefore⟩ := List.forall_mem_cons.mp hstep
    obtain ⟨k, names, hnames, heq⟩ := ih hbefore
    refine ⟨k, names ++ [n], fun m hm ↦ ?_, ?_⟩
    · rcases List.mem_append.mp hm with hm | hm
      · exact hnames m hm
      · rw [List.mem_singleton.mp hm]
        exact hn.2.2 n rfl
    · rw [List.reverse_cons, heq, List.map_append, List.append_assoc]
      rfl

/-- The normal form of a relative path is a single dot where it leads nowhere else, and otherwise
goes up some steps and then down. -/
theorem exists_normalize_eq (h : p.isAbsolute = false) :
    ∃ k names, (∀ n ∈ names, IsFileName n) ∧
      p.normalize = if k = 0 ∧ names = [] then ⟨['.']⟩ else ofSteps k names := by
  have hstep := isStep_of_mem_normalComponents h
  obtain ⟨k, names, hnames, heq⟩ := (isNormal_foldl_components p).exists_steps
    fun c hc ↦ hstep c (List.mem_reverse.mpr hc)
  refine ⟨k, names, hnames, ?_⟩
  rw [normalize, normalComponents, heq]
  by_cases hnil : k = 0 ∧ names = []
  · obtain ⟨rfl, rfl⟩ := hnil
    rfl
  · rw [if_neg hnil]
    split
    · next hempty =>
      obtain ⟨hk, hmap⟩ := List.append_eq_nil_iff.mp hempty
      exact absurd ⟨by simpa using hk, List.map_eq_nil_iff.mp hmap⟩ hnil
    · rfl

theorem exists_normalize_eq_ofLocation (h : p.isAbsolute) :
    ∃ names, (∀ n ∈ names, IsFileName n) ∧ p.normalize = ofLocation names := by
  refine ⟨(withWorkingDirectory []).place p, isFileName_of_mem_place ?_,
    normalize_of_isAbsolute _ h⟩
  rw [start, if_pos h]
  exact List.forall_mem_nil _

theorem isCanonical_normalize (p : Path) : IsCanonical p.normalize := by
  cases h : p.isAbsolute with
  | true =>
    obtain ⟨names, hnames, heq⟩ := exists_normalize_eq_ofLocation h
    rw [heq]
    exact isCanonical_ofLocation hnames
  | false =>
    obtain ⟨k, names, hnames, heq⟩ := exists_normalize_eq h
    rw [heq]
    split_ifs with hnil
    · exact isCanonical_here
    · exact isCanonical_ofSteps hnames (not_and_or.mp hnil)

theorem isAbsolute_normalize (p : Path) : p.normalize.isAbsolute = p.isAbsolute := by
  cases h : p.isAbsolute with
  | true =>
    obtain ⟨names, -, heq⟩ := exists_normalize_eq_ofLocation h
    rw [heq]
    rfl
  | false =>
    obtain ⟨k, names, hnames, heq⟩ := exists_normalize_eq h
    rw [heq]
    split_ifs
    · rfl
    · exact isAbsolute_ofComponents (isStep_steps k hnames)

theorem isAbsolute_join_of_relative (ha : a.isAbsolute = false) (hb : b.isAbsolute = false) :
    (a.join b).isAbsolute = false := by
  by_cases hnil : a.text = []
  · rw [join, if_neg (by simp [hb]), if_pos (.inl hnil), hnil]
    exact hb
  · rw [isAbsolute_join hb hnil, ha]

/-! ## Where relative paths lead -/

/-- The place that a path leads to from a directory. -/
def placeFrom (loc : Location) (p : Path) : Location := (withWorkingDirectory loc).place p

/-- A directory deeper than two paths go up, under a name that neither uses, tells them apart. -/
theorem steps_unique {x : Text} {d : Nat} (hk : k ≤ d) (hk' : k' ≤ d) (hx : x ∉ names)
    (hx' : x ∉ names')
    (h : List.replicate (d - k) x ++ names = List.replicate (d - k') x ++ names') :
    k = k' ∧ names = names' := by
  have hcount := congrArg (List.count x) h
  rw [List.count_append, List.count_append, List.count_replicate_self, List.count_replicate_self,
    List.count_eq_zero_of_not_mem hx, List.count_eq_zero_of_not_mem hx'] at hcount
  obtain rfl : k = k' := by omega
  exact ⟨rfl, List.append_cancel_left h⟩

/-- There is always another name. -/
theorem exists_fresh_name (names : List Text) : ∃ x, IsFileName x ∧ x ∉ names := by
  refine ⟨List.replicate (names.flatten.length + 1) 'x', ⟨⟨by simp, ?_, ?_⟩, ?_⟩, fun hmem ↦ ?_⟩
  · intro heq
    exact absurd (heq ▸ List.mem_replicate.mpr ⟨by simp, rfl⟩ : 'x' ∈ ['.']) (by decide)
  · intro heq
    exact absurd (heq ▸ List.mem_replicate.mpr ⟨by simp, rfl⟩ : 'x' ∈ ['.', '.']) (by decide)
  · intro hslash
    exact absurd (List.eq_of_mem_replicate hslash) (by decide)
  · have hlength := (List.sublist_flatten_of_mem hmem).length_le
    rw [List.length_replicate] at hlength
    exact absurd hlength (Nat.not_succ_le_self _)

theorem placeFrom_steps (loc : Location) (k : Nat) (h : ∀ n ∈ names, IsFileName n) :
    placeFrom loc (if k = 0 ∧ names = [] then ⟨['.']⟩ else ofSteps k names) =
      loc.take (loc.length - k) ++ names := by
  split_ifs with hnil
  · obtain ⟨rfl, rfl⟩ := hnil
    rw [Nat.sub_zero, List.take_length, List.append_nil]
    rfl
  · exact place_ofSteps (withWorkingDirectory loc) k h

/-- **Relative paths that lead to the same places have the same normal form.** -/
theorem normalize_eq_of_placeFrom_eq (hp : p.isAbsolute = false) (hq : q.isAbsolute = false)
    (h : ∀ loc, (∀ n ∈ loc, IsFileName n) → placeFrom loc p = placeFrom loc q) :
    p.normalize = q.normalize := by
  obtain ⟨k, names, hnames, heq⟩ := exists_normalize_eq hp
  obtain ⟨k', names', hnames', heq'⟩ := exists_normalize_eq hq
  obtain ⟨x, hx, hfresh⟩ := exists_fresh_name (names ++ names')
  obtain ⟨hfresh, hfresh'⟩ := not_or.mp (mt List.mem_append.mpr hfresh)
  have hdeep := h (List.replicate (k + k') x) fun n hn ↦ List.eq_of_mem_replicate hn ▸ hx
  rw [placeFrom, placeFrom, ← place_normalize _ p, ← place_normalize _ q, heq, heq',
    ← placeFrom, ← placeFrom, placeFrom_steps _ k hnames, placeFrom_steps _ k' hnames',
    List.length_replicate, List.take_replicate, List.take_replicate,
    Nat.min_eq_left (Nat.sub_le _ _), Nat.min_eq_left (Nat.sub_le _ _)] at hdeep
  obtain ⟨rfl, rfl⟩ := steps_unique (by omega) (by omega) hfresh hfresh' hdeep
  rw [heq, heq']

theorem placeFrom_join (loc : Location) (hp : p.isAbsolute = false) :
    placeFrom loc (a.join p) = placeFrom (placeFrom loc a) p := by
  have hstart : (withWorkingDirectory (placeFrom loc a)).start p = placeFrom loc a := by
    rw [start, hp]
    rfl
  rw [placeFrom, place_join hp, ← placeFrom]
  conv_rhs => rw [placeFrom, place, hstart]

/-- Behind an absolute directory a relative path leads where it leads from there. -/
theorem normalize_join_of_isAbsolute (hbase : base.isAbsolute) (hp : p.isAbsolute = false) :
    (base.join p).normalize = ofLocation (placeFrom (placeFrom [] base) p) := by
  rw [normalize_of_isAbsolute (withWorkingDirectory []) (isAbsolute_join_of_isAbsolute hbase p),
    ← placeFrom_join [] hp, placeFrom]

theorem placeFrom_normalize (loc : Location) (p : Path) :
    placeFrom loc p.normalize = placeFrom loc p :=
  place_normalize _ p

/-! ## Normalizing -/

theorem foldl_normalStep_names (names : List Text) (before : List Component) :
    (names.map Component.name).foldl normalStep before =
      (names.map Component.name).reverse ++ before := by
  induction names generalizing before with
  | nil => rfl
  | cons n names ih =>
    rw [List.map_cons, List.foldl_cons, ih, List.reverse_cons, List.append_assoc]
    rfl

theorem foldl_normalStep_ups (k j : Nat) :
    (List.replicate k Component.up).foldl normalStep (List.replicate j .up) =
      List.replicate (j + k) .up := by
  induction k generalizing j with
  | zero => rfl
  | succ k ih =>
    have hstep : normalStep (List.replicate j .up) .up = List.replicate (j + 1) .up := by
      cases j with
      | zero => rfl
      | succ j => rfl
    rw [List.replicate_succ, List.foldl_cons, hstep, ih, Nat.add_assoc, Nat.add_comm 1 k]

theorem normalize_eq_of_normalComponents (h : p = ofComponents p.components)
    (hcomponents : p.normalComponents = p.components) (hne : p.components ≠ []) :
    p.normalize = p := by
  rw [normalize, hcomponents]
  split
  · next hnil => exact absurd hnil hne
  · exact h.symm

/-- Nothing is left to be done about a canonical path. -/
theorem IsCanonical.normalize_eq (h : IsCanonical p) : p.normalize = p := by
  rcases h.shape with hhere | ⟨names, -, hroot⟩ | ⟨k, names, hne, -, hsteps⟩
  · rw [h.written, hhere]
    rfl
  · refine normalize_eq_of_normalComponents h.written ?_ (hroot ▸ List.cons_ne_nil _ _)
    rw [normalComponents, hroot, List.foldl_cons]
    show ((names.map Component.name).foldl normalStep [.root]).reverse = _
    rw [foldl_normalStep_names, List.reverse_append, List.reverse_reverse]
    rfl
  · refine normalize_eq_of_normalComponents h.written ?_ fun hnil ↦ ?_
    · rw [normalComponents, hsteps, List.foldl_append]
      show ((names.map Component.name).foldl normalStep
        ((List.replicate k Component.up).foldl normalStep (List.replicate 0 .up))).reverse = _
      rw [foldl_normalStep_ups, foldl_normalStep_names, List.reverse_append, List.reverse_reverse,
        List.reverse_replicate, Nat.zero_add]
    · rw [hsteps, List.append_eq_nil_iff] at hnil
      exact hne.elim (fun hk ↦ hk (by simpa using hnil.1))
        fun hnames ↦ hnames (List.map_eq_nil_iff.mp hnil.2)

/-- Normalizing the directory first makes no difference. -/
theorem normalize_join_normalize (hb : b.isAbsolute = false) :
    (a.normalize.join b).normalize = (a.join b).normalize := by
  have hplace : ∀ loc, placeFrom loc (a.normalize.join b) = placeFrom loc (a.join b) := by
    intro loc
    rw [placeFrom_join loc hb, placeFrom_join loc hb, placeFrom_normalize]
  cases ha : a.isAbsolute with
  | true =>
    have hnormal := (isAbsolute_normalize a).trans ha
    rw [normalize_join_of_isAbsolute hnormal hb, normalize_join_of_isAbsolute ha hb,
      placeFrom_normalize]
  | false =>
    have hnormal := (isAbsolute_normalize a).trans ha
    exact normalize_eq_of_placeFrom_eq (isAbsolute_join_of_relative hnormal hb)
      (isAbsolute_join_of_relative ha hb) fun loc _ ↦ hplace loc

/-- Relative paths with one normal form can not be told apart behind any absolute directory, and
others can. -/
theorem normalize_eq_iff_forall_join (hp : p.isAbsolute = false) (hq : q.isAbsolute = false) :
    p.normalize = q.normalize ↔
      ∀ base : Path, base.isAbsolute → (base.join p).normalize = (base.join q).normalize := by
  constructor
  · intro h base hbase
    rw [normalize_join_of_isAbsolute hbase hp, normalize_join_of_isAbsolute hbase hq,
      ← placeFrom_normalize _ p, h, placeFrom_normalize]
  · intro h
    refine normalize_eq_of_placeFrom_eq hp hq fun loc hloc ↦ ?_
    have hbase : placeFrom [] (ofLocation loc) = loc := place_ofLocation _ hloc
    have hjoin := congrArg (placeFrom []) (h (ofLocation loc) rfl)
    rwa [placeFrom_normalize, placeFrom_normalize, placeFrom_join [] hp, placeFrom_join [] hq,
      hbase] at hjoin

/-- **Normalizing gives canonical paths.** Every normal form is canonical, and canonical paths are
the ones that are their own normal forms, so normalizing twice is normalizing once. A directory may
be normalized before a relative path is joined to it. Two relative paths have the same normal form
exactly when they have it behind every absolute directory. -/
theorem normalize_canonical :
    (∀ p : Path, IsCanonical p.normalize) ∧
      (∀ p : Path, p.normalize.normalize = p.normalize) ∧
      (∀ p : Path, IsCanonical p → p.normalize = p) ∧
      (∀ a b : Path, b.isAbsolute = false →
        (a.normalize.join b).normalize = (a.join b).normalize) ∧
      ∀ p q : Path, p.isAbsolute = false → q.isAbsolute = false →
        (p.normalize = q.normalize ↔
          ∀ base : Path, base.isAbsolute → (base.join p).normalize = (base.join q).normalize) :=
  ⟨isCanonical_normalize, fun p ↦ (isCanonical_normalize p).normalize_eq,
    fun _ h ↦ h.normalize_eq, fun _ _ hb ↦ normalize_join_normalize hb,
    fun _ _ hp hq ↦ normalize_eq_iff_forall_join hp hq⟩

/-- A path that goes up behind a name, and one that goes up before its name. -/
theorem normalize_canonical_steps :
    IsCanonical (⟨"a/./../../b//c".toList⟩ : Path).normalize ∧
      (⟨"a/./../../b//c".toList⟩ : Path).normalize = ⟨"../b/c".toList⟩ ∧
      (⟨"a/./../../b//c".toList⟩ : Path).normalize ≠ (⟨"b/c".toList⟩ : Path).normalize ∧
      ¬∀ base : Path, base.isAbsolute →
        (base.join ⟨"a/./../../b//c".toList⟩).normalize = (base.join ⟨"b/c".toList⟩).normalize := by
  obtain ⟨hcanonical, -, -, -, hcomplete⟩ := normalize_canonical
  have hne : (⟨"a/./../../b//c".toList⟩ : Path).normalize ≠ (⟨"b/c".toList⟩ : Path).normalize := by
    decide
  exact ⟨hcanonical _, by decide, hne, fun h ↦ hne ((hcomplete _ _ (by decide) (by decide)).mpr h)⟩

end Path

end PluginPack
