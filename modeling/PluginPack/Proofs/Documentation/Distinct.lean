import Mathlib.Data.List.Basic
import PluginPack.Documentation.Function

/-!
# The first function of each name

Of functions with one name only the first is kept. What is kept of two lists, one behind the other,
is what is kept of the first and what is kept of the second without the names of the first.
-/

namespace PluginPack.Documentation

open Text

variable {taken taken' : List Text} {fs : List Function}

theorem distinctFrom_sublist (taken : List Text) (fs : List Function) :
    (distinctFrom taken fs).Sublist fs := by
  induction fs generalizing taken with
  | nil => exact List.Sublist.refl []
  | cons f fs ih =>
    by_cases hf : f.name ∈ taken
    · rw [distinctFrom, if_pos hf]
      exact (ih taken).cons f
    · rw [distinctFrom, if_neg hf]
      exact (ih _).cons_cons f

/-! ## Names -/

theorem nodup_map_name_distinctFrom (taken : List Text) (fs : List Function) :
    ((distinctFrom taken fs).map Function.name).Nodup ∧
      ∀ f ∈ distinctFrom taken fs, f.name ∉ taken := by
  induction fs generalizing taken with
  | nil => exact ⟨List.nodup_nil, fun f hf ↦ absurd hf List.not_mem_nil⟩
  | cons f fs ih =>
    rw [distinctFrom]
    split_ifs with hf
    · exact ih taken
    · obtain ⟨hnodup, hfree⟩ := ih (f.name :: taken)
      refine ⟨List.nodup_cons.mpr ⟨fun hmem ↦ ?_, hnodup⟩, fun g hg ↦ ?_⟩
      · obtain ⟨g, hg, hname⟩ := List.mem_map.mp hmem
        exact hfree g hg (hname ▸ List.mem_cons_self)
      · rcases List.mem_cons.mp hg with rfl | hg
        · exact hf
        · exact fun hmem ↦ hfree g hg (List.mem_cons_of_mem f.name hmem)

theorem map_name_distinctFrom (taken : List Text) (fs : List Function) :
    (distinctFrom taken fs).map (·.name) =
      ((fs.map (·.name)).filter (· ∉ taken)).eraseDups := by
  induction fs generalizing taken with
  | nil => rfl
  | cons f fs ih =>
    by_cases hf : f.name ∈ taken
    · rw [distinctFrom, if_pos hf, ih, List.map_cons, List.filter_cons_of_neg (by simpa using hf)]
    · rw [distinctFrom, if_neg hf, List.map_cons, ih, List.map_cons,
        List.filter_cons_of_pos (by simpa using hf), List.eraseDups_cons, List.filter_filter]
      congr 2
      refine List.filter_congr ?_
      intro name _
      simp [Bool.beq_eq_decide_eq]

theorem map_name_distinct (fs : List Function) :
    (distinct fs).map (·.name) = (fs.map (·.name)).eraseDups := by
  rw [distinct, map_name_distinctFrom]
  simp

theorem distinctFrom_eq_self (htaken : ∀ f ∈ fs, f.name ∉ taken)
    (hfs : (fs.map Function.name).Nodup) : distinctFrom taken fs = fs := by
  induction fs generalizing taken with
  | nil => rfl
  | cons f fs ih =>
    obtain ⟨hf, hfs⟩ := List.nodup_cons.mp hfs
    rw [distinctFrom, if_neg (htaken f List.mem_cons_self), ih ?_ hfs]
    intro g hg
    rw [List.mem_cons, not_or]
    refine ⟨fun heq ↦ hf ?_, htaken g (List.mem_cons_of_mem f hg)⟩
    exact heq ▸ List.mem_map_of_mem hg

/-- The first function is always kept. -/
theorem head?_distinct (fs : List Function) : (distinct fs).head? = fs.head? := by
  cases fs with
  | nil => rfl
  | cons f fs =>
    rw [distinct, distinctFrom, if_neg List.not_mem_nil, List.head?_cons, List.head?_cons]

/-! ## One list behind another -/

/-- It counts which names are taken, and not in what order. -/
theorem distinctFrom_congr (h : ∀ name, name ∈ taken ↔ name ∈ taken') :
    distinctFrom taken fs = distinctFrom taken' fs := by
  induction fs generalizing taken taken' with
  | nil => rfl
  | cons f fs ih =>
    have hcons : distinctFrom (f.name :: taken) fs = distinctFrom (f.name :: taken') fs :=
      ih fun name ↦ by rw [List.mem_cons, List.mem_cons, h]
    simp only [distinctFrom, h, ih h, hcons]

/-- Behind a list its names are taken, too. -/
theorem distinctFrom_append (taken : List Text) (fs gs : List Function) :
    distinctFrom taken (fs ++ gs) =
      distinctFrom taken fs ++ distinctFrom (fs.map Function.name ++ taken) gs := by
  induction fs generalizing taken with
  | nil => rfl
  | cons f fs ih =>
    by_cases hf : f.name ∈ taken
    · rw [List.cons_append, distinctFrom, if_pos hf, distinctFrom, if_pos hf, ih]
      refine congrArg _ (distinctFrom_congr fun name ↦ ?_)
      rw [List.map_cons, List.cons_append, List.mem_cons]
      exact (or_iff_right_of_imp fun heq ↦ List.mem_append_right _ (heq ▸ hf)).symm
    · rw [List.cons_append, distinctFrom, if_neg hf, distinctFrom, if_neg hf, ih, List.cons_append]
      refine congrArg _ (congrArg _ (distinctFrom_congr fun name ↦ ?_))
      simp only [List.map_cons, List.mem_append, List.mem_cons, or_left_comm, or_assoc]

/-- Names may as well be taken afterwards. -/
theorem filter_distinctFrom (names taken : List Text) (gs : List Function) :
    (distinctFrom taken gs).filter (·.name ∉ names) = distinctFrom (names ++ taken) gs := by
  induction gs generalizing taken with
  | nil => rfl
  | cons g gs ih =>
    have hcons : distinctFrom (names ++ g.name :: taken) gs =
        distinctFrom (g.name :: (names ++ taken)) gs :=
      distinctFrom_congr fun name ↦ by simp only [List.mem_append, List.mem_cons, or_left_comm]
    by_cases htaken : g.name ∈ taken
    · rw [distinctFrom, if_pos htaken, ih, distinctFrom, if_pos (List.mem_append_right _ htaken)]
    rw [distinctFrom, if_neg htaken]
    by_cases hnames : g.name ∈ names
    · rw [List.filter_cons_of_neg (by simpa using hnames), ih, hcons, distinctFrom,
        if_pos (List.mem_append_left _ hnames)]
      refine distinctFrom_congr fun name ↦ List.mem_cons.trans (or_iff_right_of_imp ?_)
      exact fun heq ↦ List.mem_append_left _ (heq ▸ hnames)
    · rw [List.filter_cons_of_pos (by simpa using hnames), ih, hcons, distinctFrom,
        if_neg fun hmem ↦ (List.mem_append.mp hmem).elim hnames htaken]

theorem distinct_append (fs gs : List Function) :
    distinct (fs ++ gs) =
      distinct fs ++ (distinct gs).filter (·.name ∉ (distinct fs).map Function.name) := by
  rw [distinct, distinctFrom_append, distinct, distinct, filter_distinctFrom]
  refine congrArg _ (distinctFrom_congr fun name ↦ ?_)
  have hnames := map_name_distinct fs
  rw [distinct] at hnames
  simp only [List.append_nil, hnames, List.mem_eraseDups]

theorem distinctFrom_map {f : Function → Function} (hf : ∀ g, (f g).name = g.name)
    (taken : List Text) (gs : List Function) :
    distinctFrom taken (gs.map f) = (distinctFrom taken gs).map f := by
  induction gs generalizing taken with
  | nil => rfl
  | cons g gs ih =>
    simp only [List.map_cons, distinctFrom, hf, ih]
    split_ifs <;> rfl

end PluginPack.Documentation
