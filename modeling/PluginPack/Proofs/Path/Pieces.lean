import Mathlib.Tactic.SplitIfs
import PluginPack.Path

/-!
# The pieces of a path

The text of a path is its pieces with slashes between them, and joining a path to a directory puts
its pieces behind those of the directory. In a normal path all steps up stand in front, so nothing
that such a path passes is left again.
-/

namespace PluginPack.Path

open Text

variable {t piece : Text} {pieces ps : List Text} {c : Component} {before cs : List Component}

/-! ## Pieces and texts -/

theorem splitSlashes_ne_nil (t : Text) : splitSlashes t ≠ [] := by
  cases t with
  | nil => exact List.cons_ne_nil _ _
  | cons c t =>
    rw [splitSlashes]
    split_ifs
    · exact List.cons_ne_nil _ _
    · split
      · exact List.cons_ne_nil _ _
      · exact List.cons_ne_nil _ _

theorem splitSlashes_append_slash (t r : Text) :
    splitSlashes (t ++ '/' :: r) = splitSlashes t ++ splitSlashes r := by
  induction t with
  | nil => rfl
  | cons c t ih =>
    rw [List.cons_append, splitSlashes, splitSlashes, ih]
    by_cases hc : c = '/'
    · rw [if_pos hc, if_pos hc, List.cons_append]
    · rw [if_neg hc, if_neg hc]
      cases hpieces : splitSlashes t with
      | nil => exact absurd hpieces (splitSlashes_ne_nil t)
      | cons piece pieces => rfl

theorem splitSlashes_eq_singleton (h : '/' ∉ t) : splitSlashes t = [t] := by
  induction t with
  | nil => rfl
  | cons c t ih =>
    rw [List.mem_cons, not_or] at h
    rw [splitSlashes, if_neg (Ne.symm h.1), ih h.2]

theorem not_mem_of_mem_splitSlashes (h : piece ∈ splitSlashes t) : '/' ∉ piece := by
  induction t generalizing piece with
  | nil =>
    obtain rfl := List.mem_singleton.mp h
    exact List.not_mem_nil
  | cons c t ih =>
    rw [splitSlashes] at h
    split_ifs at h with hc
    · rcases List.mem_cons.mp h with rfl | h
      · exact List.not_mem_nil
      · exact ih h
    · cases hpieces : splitSlashes t with
      | nil => exact absurd hpieces (splitSlashes_ne_nil t)
      | cons first rest =>
        rw [hpieces] at h ih
        rcases List.mem_cons.mp h with rfl | h
        · rw [List.mem_cons, not_or]
          exact ⟨Ne.symm hc, ih List.mem_cons_self⟩
        · exact ih (List.mem_cons_of_mem first h)

/-- A slash stands behind every piece but the last. -/
theorem prefix_of_splitSlashes_eq {x y : Text} (h : splitSlashes t = x :: y :: ps) :
    x ++ ['/'] <+: t := by
  induction t generalizing x with
  | nil => exact absurd (List.cons.inj h).2.symm (List.cons_ne_nil y ps)
  | cons c t ih =>
    rw [splitSlashes] at h
    split_ifs at h with hc
    · obtain ⟨rfl, -⟩ := List.cons.inj h
      rw [hc]
      exact List.prefix_append ['/'] t
    · cases hpieces : splitSlashes t with
      | nil => exact absurd hpieces (splitSlashes_ne_nil t)
      | cons first rest =>
        rw [hpieces] at h
        obtain ⟨rfl, rfl⟩ := List.cons.inj h
        exact List.cons_prefix_cons.mpr ⟨rfl, ih hpieces⟩

theorem isInfix_of_splitSlashes_eq {x y : Text} (h : splitSlashes t = pieces ++ x :: y :: ps) :
    x ++ ['/'] <:+: t := by
  induction t generalizing pieces with
  | nil =>
    rw [splitSlashes] at h
    have hlength := congrArg List.length h
    simp at hlength
    omega
  | cons c t ih =>
    cases pieces with
    | nil => exact (prefix_of_splitSlashes_eq h).isInfix
    | cons first pieces =>
      have hcons := List.suffix_cons c t
      rw [splitSlashes] at h
      split_ifs at h with hc
      · exact (ih (List.cons.inj h).2).trans hcons.isInfix
      · cases hpieces : splitSlashes t with
        | nil => exact absurd hpieces (splitSlashes_ne_nil t)
        | cons second rest =>
          rw [hpieces] at h
          obtain ⟨-, rfl⟩ := List.cons.inj h
          have hfirst : splitSlashes t = (second :: pieces) ++ x :: y :: ps := hpieces
          exact (ih hfirst).trans hcons.isInfix

theorem splitSlashes_intercalate (hne : pieces ≠ []) (h : ∀ piece ∈ pieces, '/' ∉ piece) :
    splitSlashes (List.intercalate ['/'] pieces) = pieces := by
  induction pieces with
  | nil => exact absurd rfl hne
  | cons piece pieces ih =>
    have hpiece := splitSlashes_eq_singleton (h piece List.mem_cons_self)
    cases pieces with
    | nil => rw [List.intercalate_singleton, hpiece]
    | cons next pieces =>
      rw [List.intercalate_cons_cons, List.append_assoc, List.singleton_append,
        splitSlashes_append_slash, hpiece, List.singleton_append,
        ih (List.cons_ne_nil next pieces) fun x hx ↦ h x (List.mem_cons_of_mem piece hx)]

/-- Something written behind a path without a slash goes to its last piece. -/
theorem exists_splitSlashes_append (t : Text) {e : Text} (he : '/' ∉ e) :
    ∃ init last, splitSlashes t = init ++ [last] ∧
      splitSlashes (t ++ e) = init ++ [last ++ e] := by
  induction t with
  | nil => exact ⟨[], [], rfl, splitSlashes_eq_singleton he⟩
  | cons c t ih =>
    obtain ⟨init, last, ht, hte⟩ := ih
    rw [List.cons_append, splitSlashes, splitSlashes, ht, hte]
    by_cases hc : c = '/'
    · rw [if_pos hc, if_pos hc]
      exact ⟨[] :: init, last, rfl, rfl⟩
    · rw [if_neg hc, if_neg hc]
      cases init with
      | nil => exact ⟨[], c :: last, rfl, rfl⟩
      | cons first init => exact ⟨(c :: first) :: init, last, rfl, rfl⟩

theorem getLast?_of_splitSlashes_eq (h : splitSlashes t = pieces ++ [[]]) (hne : pieces ≠ []) :
    t.getLast? = some '/' := by
  rcases List.eq_nil_or_concat t with rfl | ⟨u, d, rfl⟩
  · have hlength := congrArg List.length h
    rw [List.length_append] at hlength
    exact absurd (List.length_eq_zero_iff.mp (Nat.succ.inj hlength).symm) hne
  · rw [List.concat_eq_append, List.getLast?_concat]
    by_cases hd : d = '/'
    · rw [hd]
    · obtain ⟨init, last, -, hlast⟩ := exists_splitSlashes_append u
        (show '/' ∉ [d] by simpa using Ne.symm hd)
      rw [List.concat_eq_append, hlast] at h
      have hnil := List.append_inj_right' h rfl
      simp at hnil

/-! ## Steps up in front -/

/-- The steps up among the pieces stand in front of all others. -/
inductive IsDirect : List Text → Prop
  | down {pieces : List Text} (h : ['.', '.'] ∉ pieces) : IsDirect pieces
  | up {pieces : List Text} (h : IsDirect pieces) : IsDirect (['.', '.'] :: pieces)

namespace IsDirect

theorem replicate_append (k : Nat) (h : IsDirect pieces) :
    IsDirect (List.replicate k ['.', '.'] ++ pieces) := by
  induction k with
  | zero => exact h
  | succ k ih => exact .up ih

theorem concat (h : IsDirect pieces) (hpiece : piece ≠ ['.', '.']) :
    IsDirect (pieces ++ [piece]) := by
  induction h with
  | down h =>
    refine .down fun hmem ↦ ?_
    rcases List.mem_append.mp hmem with hmem | hmem
    · exact h hmem
    · exact hpiece (List.mem_singleton.mp hmem).symm
  | up _ ih => exact .up ih

theorem of_append (h : IsDirect (pieces ++ ps)) : IsDirect pieces := by
  induction pieces with
  | nil => exact .down List.not_mem_nil
  | cons piece pieces ih =>
    rw [List.cons_append] at h
    cases h with
    | down h => exact .down fun hmem ↦ h (List.mem_append_left ps hmem)
    | up h => exact .up (ih h)

end IsDirect

/-! ## Normal paths -/

/-- Components of a normal path, the last one first: names over steps up, or over the root. -/
inductive IsNormal : List Component → Prop
  | root : IsNormal [.root]
  | ups (k : Nat) : IsNormal (List.replicate k .up)
  | name {before : List Component} {n : Text} (h : IsNormal before) (hup : n ≠ ['.', '.'])
      (hslash : '/' ∉ n) : IsNormal (.name n :: before)

/-- A component behind the first one of a path. -/
def Component.IsInner (c : Component) : Prop :=
  c ≠ .root ∧ ∀ n, c = .name n → n ≠ ['.', '.'] ∧ '/' ∉ n

theorem IsNormal.normalStep (h : IsNormal before) (hc : c.IsInner) :
    IsNormal (normalStep before c) := by
  cases c with
  | root => exact absurd rfl hc.1
  | here => exact h
  | name n => exact .name h (hc.2 n rfl).1 (hc.2 n rfl).2
  | up =>
    cases h with
    | root => exact .root
    | ups k =>
      cases k with
      | zero => exact .ups 1
      | succ k => exact .ups (k + 2)
    | name h => exact h

theorem IsNormal.foldl_normalStep (h : IsNormal before) (hcs : ∀ c ∈ cs, c.IsInner) :
    IsNormal (cs.foldl Path.normalStep before) := by
  induction cs generalizing before with
  | nil => exact h
  | cons c cs ih =>
    exact ih (h.normalStep (hcs c List.mem_cons_self)) fun c' hc' ↦
      hcs c' (List.mem_cons_of_mem c hc')

theorem Component.isInner_of_ofPiece? (h : Component.ofPiece? piece = some c)
    (hslash : '/' ∉ piece) :
    c.IsInner := by
  rw [Component.ofPiece?] at h
  split_ifs at h with hhere hup
  · obtain rfl := Option.some.inj h
    exact ⟨nofun, nofun⟩
  · obtain rfl := Option.some.inj h
    refine ⟨nofun, ?_⟩
    rintro n ⟨⟩
    exact ⟨hup, hslash⟩

theorem isNormal_foldl_components (p : Path) : IsNormal (p.components.foldl normalStep []) := by
  have hinner : ∀ c ∈ (splitSlashes p.text).filterMap Component.ofPiece?, c.IsInner := by
    intro c hc
    obtain ⟨piece, hpiece, hof⟩ := List.mem_filterMap.mp hc
    exact Component.isInner_of_ofPiece? hof (not_mem_of_mem_splitSlashes hpiece)
  rw [components, List.foldl_append]
  refine IsNormal.foldl_normalStep ?_ hinner
  split_ifs
  · exact .root
  · exact .ups 0
  · exact .ups 0

theorem IsNormal.isDirect (h : IsNormal before) : IsDirect (before.reverse.map Component.text) := by
  induction h with
  | root => exact .down (by decide)
  | ups k =>
    rw [List.reverse_replicate, List.map_replicate, ← List.append_nil (List.replicate k _)]
    exact .replicate_append k (.down List.not_mem_nil)
  | name _ hup _ ih =>
    rw [List.reverse_cons, List.map_append]
    exact ih.concat hup

theorem IsNormal.not_mem_text (h : IsNormal before) (hc : c ∈ before) : '/' ∉ c.text := by
  induction h with
  | root =>
    obtain rfl := List.mem_singleton.mp hc
    exact List.not_mem_nil
  | ups k =>
    obtain rfl := List.eq_of_mem_replicate hc
    decide
  | name _ _ hslash ih =>
    rcases List.mem_cons.mp hc with rfl | hc
    · exact hslash
    · exact ih hc

theorem IsNormal.isDirect_ofComponents (h : IsNormal before) (hne : before ≠ []) :
    IsDirect (splitSlashes (ofComponents before.reverse).text) := by
  have hdirect := h.isDirect
  have hslash : ∀ piece ∈ before.reverse.map Component.text, '/' ∉ piece := by
    intro piece hpiece
    obtain ⟨c, hc, rfl⟩ := List.mem_map.mp hpiece
    exact h.not_mem_text (List.mem_reverse.mp hc)
  have hmap : before.reverse.map Component.text ≠ [] := by simpa using hne
  have hpieces := splitSlashes_intercalate hmap hslash
  cases hcs : before.reverse with
  | nil => exact absurd (List.reverse_eq_nil_iff.mp hcs) hne
  | cons c cs =>
    rw [hcs] at hdirect hslash hpieces
    cases c with
    | root =>
      -- The slash of the root makes one piece more, which is empty as the text of the root is.
      show IsDirect ([] :: splitSlashes (List.intercalate ['/'] (cs.map Component.text)))
      cases cs with
      | nil => exact .down (by decide)
      | cons c cs =>
        have hrest : (c :: cs).map Component.text ≠ [] := List.cons_ne_nil _ _
        rw [splitSlashes_intercalate hrest fun piece hpiece ↦
          hslash piece (List.mem_cons_of_mem _ hpiece)]
        exact hdirect
    | here | up | name n => exact hpieces ▸ hdirect

/-- **A normal path goes up first**, and then only down. -/
theorem isDirect_normalize (p : Path) : IsDirect (splitSlashes p.normalize.text) := by
  have hnormal := isNormal_foldl_components p
  rw [normalize]
  split
  · exact .down (by decide)
  · next cs hne =>
    rw [normalComponents] at hne ⊢
    exact hnormal.isDirect_ofComponents fun hnil ↦ hne (by rw [hnil]; rfl)

/-- An ending behind a normal path does not make a step up of its last piece. -/
theorem isDirect_normalize_append (p : Path) {e : Text} (he : '/' ∉ e) (hlong : 2 < e.length) :
    IsDirect (splitSlashes (p.normalize.append e).text) := by
  obtain ⟨init, last, hlast, happend⟩ := exists_splitSlashes_append p.normalize.text he
  have hinit : IsDirect init := (hlast ▸ isDirect_normalize p).of_append
  rw [append, happend]
  refine hinit.concat fun heq ↦ ?_
  have hlength := congrArg List.length heq
  rw [List.length_append] at hlength
  simp only [List.length_cons, List.length_nil] at hlength
  omega

/-! ## Joined paths -/

theorem isAbsolute_join {dir p : Path} (hp : p.isAbsolute = false) (hdir : dir.text ≠ []) :
    (dir.join p).isAbsolute = dir.isAbsolute := by
  obtain ⟨c, t, hct⟩ := List.exists_cons_of_ne_nil hdir
  rw [join, if_neg (by simp [hp]), isAbsolute, isAbsolute]
  split_ifs
  · rw [hct, List.cons_append, List.head?_cons, List.head?_cons]
  · rw [hct, List.cons_append, List.head?_cons, List.head?_cons]

/-- The pieces of a joined path, up to one empty piece at the end of the directory. -/
theorem splitSlashes_join {dir p : Path} (hp : p.isAbsolute = false) (hdir : dir.text ≠ []) :
    splitSlashes (dir.join p).text = splitSlashes dir.text ++ splitSlashes p.text ∨
      ∃ pieces, splitSlashes dir.text = pieces ++ [[]] ∧
        splitSlashes (dir.join p).text = pieces ++ splitSlashes p.text := by
  rw [join, if_neg (by simp [hp])]
  by_cases hslash : dir.text.getLast? = some '/'
  · obtain ⟨t, ht⟩ := List.getLast?_eq_some_iff.mp hslash
    rw [if_pos (.inr hslash), ht]
    refine .inr ⟨splitSlashes t, splitSlashes_append_slash t [], ?_⟩
    rw [List.append_assoc, List.singleton_append, splitSlashes_append_slash]
  · rw [if_neg (not_or.mpr ⟨hdir, hslash⟩)]
    exact .inl (splitSlashes_append_slash dir.text p.text)

end PluginPack.Path
