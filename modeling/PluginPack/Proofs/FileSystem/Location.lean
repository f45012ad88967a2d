import PluginPack.Proofs.FileSystem.Effect

/-!
# Paths of locations

A location has one absolute path, and it is what every absolute path that leads there is normalized
to. From the working directory a location has a relative path that goes up some steps and then down
by names; there may be several of these, because a path can leave a directory and come back by its
name. Normalizing does not change where a path leads.
-/

namespace PluginPack

open Text FileSystem

namespace Path

variable {fs : FileSystem} {p q dir : Path} {l loc names : Location} {n e s : Text} {k : Nat}
  {c : Component} {before cs : List Component} {pieces : List Text}

/-- A text that can name a node in a directory. -/
def IsFileName (n : Text) : Prop := IsName n ∧ '/' ∉ n

instance (n : Text) : Decidable (IsFileName n) := inferInstanceAs (Decidable (IsName n ∧ '/' ∉ n))

/-- The absolute path to a location. -/
def ofLocation (l : Location) : Path := ofComponents (.root :: l.map .name)

/-- The relative path that goes up some steps, and then down by names. -/
def ofSteps (k : Nat) (names : List Text) : Path :=
  ofComponents (List.replicate k .up ++ names.map .name)

/-! ## Where components lead -/

/-- The place that a component leads to from another place. -/
def Component.move (loc : Location) : Component → Location
  | .root => []
  | .here => loc
  | .up => loc.dropLast
  | .name n => loc ++ [n]

theorem foldl_move_filterMap (pieces : List Text) (loc : Location) :
    (pieces.filterMap Component.ofPiece?).foldl Component.move loc =
      pieces.foldl FileSystem.move loc := by
  induction pieces generalizing loc with
  | nil => rfl
  | cons piece pieces ih =>
    rw [List.foldl_cons, ← ih, List.filterMap_cons, Component.ofPiece?, FileSystem.move]
    split_ifs with hhere hup
    · rfl
    · rfl
    · rfl

/-- The place of a path can be read off its components. -/
theorem foldl_move_components (fs : FileSystem) (p : Path) :
    p.components.foldl Component.move fs.workingDirectory = fs.place p := by
  rw [components, List.foldl_append, foldl_move_filterMap, place, start]
  split_ifs
  · rfl
  · rfl
  · rfl

/-- Taking a component into account leads where the component leads. -/
theorem foldl_move_normalStep (before : List Component) (c : Component) (loc : Location) :
    (normalStep before c).reverse.foldl Component.move loc =
      c.move (before.reverse.foldl Component.move loc) := by
  have hcons : ∀ c : Component, (c :: before).reverse.foldl Component.move loc =
      c.move (before.reverse.foldl Component.move loc) := fun c ↦ by
    rw [List.reverse_cons, List.foldl_append]
    rfl
  cases c with
  | root => exact hcons .root
  | here => rfl
  | name n => exact hcons (.name n)
  | up =>
    rcases before with _ | ⟨first, rest⟩
    · rfl
    · rw [List.reverse_cons, List.foldl_append]
      cases first with
      | name n => exact List.dropLast_concat.symm
      | root =>
        show ((Component.root :: rest).reverse).foldl Component.move loc = _
        rw [List.reverse_cons, List.foldl_append]
        rfl
      | here | up => rw [← List.foldl_append, ← List.reverse_cons]; exact hcons .up

theorem foldl_move_normalComponents (fs : FileSystem) (p : Path) :
    p.normalComponents.foldl Component.move fs.workingDirectory = fs.place p := by
  have hfold : ∀ (cs before : List Component) (loc : Location),
      (cs.foldl normalStep before).reverse.foldl Component.move loc =
        cs.foldl Component.move (before.reverse.foldl Component.move loc) := by
    intro cs
    induction cs with
    | nil => exact fun _ _ ↦ rfl
    | cons c cs ih =>
      intro before loc
      rw [List.foldl_cons, ih, foldl_move_normalStep, List.foldl_cons]
  rw [normalComponents, hfold, ← foldl_move_components fs p]
  rfl

/-! ## Components and texts -/

/-- A component that stands for a piece of a path as it is written. -/
def Component.IsStep (c : Component) : Prop :=
  c ≠ .root ∧ c ≠ .here ∧ ∀ n, c = .name n → IsFileName n

theorem Component.isStep_up : Component.up.IsStep :=
  ⟨by decide, by decide, fun n h ↦ by cases h⟩

theorem Component.isStep_name (h : IsFileName n) : (Component.name n).IsStep := by
  refine ⟨by rintro ⟨⟩, by rintro ⟨⟩, ?_⟩
  rintro _ ⟨⟩
  exact h

theorem Component.IsStep.ofPiece?_text (h : c.IsStep) : Component.ofPiece? c.text = some c := by
  cases c with
  | root => exact absurd rfl h.1
  | here => exact absurd rfl h.2.1
  | up => rfl
  | name n =>
    obtain ⟨⟨hnil, hhere, hup⟩, -⟩ := h.2.2 n rfl
    rw [Component.text, Component.ofPiece?, if_neg (not_or.mpr ⟨hnil, hhere⟩), if_neg hup]

theorem Component.IsStep.not_mem_text (h : c.IsStep) : '/' ∉ c.text := by
  cases c with
  | root => exact List.not_mem_nil
  | here | up => decide
  | name n => exact (h.2.2 n rfl).2

theorem filterMap_ofPiece?_text (h : ∀ c ∈ cs, c.IsStep) :
    (cs.map Component.text).filterMap Component.ofPiece? = cs := by
  induction cs with
  | nil => rfl
  | cons c cs ih =>
    obtain ⟨hc, hcs⟩ := List.forall_mem_cons.mp h
    rw [List.map_cons, List.filterMap_cons_some hc.ofPiece?_text, ih hcs]

theorem splitSlashes_intercalate_text (h : ∀ c ∈ cs, c.IsStep) (hne : cs ≠ []) :
    splitSlashes (List.intercalate ['/'] (cs.map Component.text)) = cs.map Component.text := by
  refine splitSlashes_intercalate (mt List.map_eq_nil_iff.mp hne) fun piece hpiece ↦ ?_
  obtain ⟨c, hc, rfl⟩ := List.mem_map.mp hpiece
  exact (h c hc).not_mem_text

theorem filterMap_splitSlashes_intercalate (h : ∀ c ∈ cs, c.IsStep) :
    (splitSlashes (List.intercalate ['/'] (cs.map Component.text))).filterMap Component.ofPiece? =
      cs := by
  rcases cs with _ | ⟨first, rest⟩
  · rfl
  · rw [splitSlashes_intercalate_text h (List.cons_ne_nil first rest), filterMap_ofPiece?_text h]

theorem components_ofComponents_root (h : ∀ c ∈ cs, c.IsStep) :
    (ofComponents (.root :: cs)).components = .root :: cs := by
  have hpieces := filterMap_splitSlashes_intercalate h
  rw [components, ofComponents]
  show [Component.root] ++ (splitSlashes ('/' :: _)).filterMap Component.ofPiece? = _
  rw [splitSlashes, if_pos rfl]
  exact congrArg _ hpieces

theorem text_ofComponents (h : ∀ c ∈ cs, c.IsStep) :
    (ofComponents cs).text = List.intercalate ['/'] (cs.map Component.text) := by
  unfold ofComponents
  split
  · exact absurd rfl (h _ List.mem_cons_self).1
  · rfl

theorem isAbsolute_iff_of_splitSlashes (p : Path) :
    p.isAbsolute ↔ ∃ pieces, pieces ≠ [] ∧ splitSlashes p.text = [] :: pieces := by
  obtain ⟨t⟩ := p
  rw [isAbsolute]
  rcases t with _ | ⟨d, t⟩
  · simp [splitSlashes]
  · by_cases hd : d = '/'
    · subst hd
      simpa [splitSlashes] using splitSlashes_ne_nil t
    · refine iff_of_false (by simpa using hd) ?_
      rintro ⟨pieces, -, heq⟩
      rw [splitSlashes, if_neg hd] at heq
      split at heq
      · exact absurd (List.cons.inj heq).1 (List.cons_ne_nil _ _)
      · exact absurd (List.cons.inj heq).1 (List.cons_ne_nil _ _)

theorem isAbsolute_ofComponents (h : ∀ c ∈ cs, c.IsStep) :
    (ofComponents cs).isAbsolute = false := by
  refine Bool.eq_false_iff.mpr fun habs ↦ ?_
  obtain ⟨pieces, hne, hpieces⟩ := (isAbsolute_iff_of_splitSlashes _).mp habs
  rw [text_ofComponents h] at hpieces
  rcases cs with _ | ⟨first, rest⟩
  · exact hne (List.cons.inj hpieces).2.symm
  · rw [splitSlashes_intercalate_text h (List.cons_ne_nil first rest), List.map_cons] at hpieces
    have hof := (h first List.mem_cons_self).ofPiece?_text
    rw [(List.cons.inj hpieces).1] at hof
    cases hof

theorem components_ofComponents (h : ∀ c ∈ cs, c.IsStep) : (ofComponents cs).components = cs := by
  have hhead : (splitSlashes (ofComponents cs).text).head? ≠ some ['.'] := by
    rw [text_ofComponents h]
    rcases cs with _ | ⟨first, rest⟩
    · simp [splitSlashes]
    · have hof := (h first List.mem_cons_self).ofPiece?_text
      rw [splitSlashes_intercalate_text h (List.cons_ne_nil first rest), List.map_cons,
        List.head?_cons]
      intro heq
      rw [Option.some.inj heq] at hof
      cases hof
  rw [components, isAbsolute_ofComponents h, if_neg Bool.false_ne_true, if_neg hhead,
    text_ofComponents h]
  exact filterMap_splitSlashes_intercalate h

/-! ## Normal forms -/

theorem isStep_of_mem_pieces (h : c ∈ (splitSlashes p.text).filterMap Component.ofPiece?) :
    c.IsStep := by
  obtain ⟨piece, hpiece, hof⟩ := List.mem_filterMap.mp h
  rw [Component.ofPiece?] at hof
  split_ifs at hof with hhere hup
  · obtain rfl := Option.some.inj hof
    exact Component.isStep_up
  · obtain rfl := Option.some.inj hof
    obtain ⟨hnil, hdot⟩ := not_or.mp hhere
    exact Component.isStep_name ⟨⟨hnil, hdot, hup⟩, not_mem_of_mem_splitSlashes hpiece⟩

/-- Over the root, steps up take back names and nothing else. -/
theorem foldl_normalStep_root (h : ∀ c ∈ cs, c.IsStep) (names : Location) :
    cs.foldl normalStep ((names.map .name).reverse ++ [.root]) =
      ((cs.foldl Component.move names).map .name).reverse ++ [.root] := by
  induction cs generalizing names with
  | nil => rfl
  | cons c cs ih =>
    obtain ⟨hc, hcs⟩ := List.forall_mem_cons.mp h
    have hstep : normalStep ((names.map .name).reverse ++ [.root]) c =
        ((c.move names).map .name).reverse ++ [.root] := by
      cases c with
      | root => exact absurd rfl hc.1
      | here => exact absurd rfl hc.2.1
      | name n => simp [normalStep, Component.move]
      | up =>
        rcases List.eq_nil_or_concat names with rfl | ⟨init, last, rfl⟩
        · rfl
        · simp [normalStep, Component.move]
    rw [List.foldl_cons, hstep, ih hcs, List.foldl_cons]

/-- **The normal form of an absolute path is the path of its place.** -/
theorem normalize_of_isAbsolute (fs : FileSystem) (h : p.isAbsolute) :
    p.normalize = ofLocation (fs.place p) := by
  have hcomponents : p.components =
      .root :: (splitSlashes p.text).filterMap Component.ofPiece? := by
    rw [components, if_pos h]
    rfl
  have hnormal : p.normalComponents = .root :: (fs.place p).map .name := by
    have hfold := foldl_normalStep_root (fun c ↦ isStep_of_mem_pieces (c := c) (p := p)) []
    rw [normalComponents, hcomponents, List.foldl_cons]
    show (List.foldl normalStep [Component.root] _).reverse = _
    rw [← foldl_move_components fs p, hcomponents, List.foldl_cons]
    rw [List.map_nil, List.reverse_nil, List.nil_append] at hfold
    rw [hfold, List.reverse_append, List.reverse_reverse]
    rfl
  rw [normalize, hnormal]
  rfl

theorem isStep_of_mem_normalStep (h : ∀ c ∈ before, c.IsStep) (hc : c.IsStep) :
    ∀ c' ∈ normalStep before c, c'.IsStep := by
  have hcons : ∀ c' ∈ c :: before, c'.IsStep := List.forall_mem_cons.mpr ⟨hc, h⟩
  cases c with
  | root => exact absurd rfl hc.1
  | here => exact absurd rfl hc.2.1
  | name n => exact hcons
  | up =>
    rcases before with _ | ⟨first, rest⟩
    · exact hcons
    · cases first with
      | name n => exact (List.forall_mem_cons.mp h).2
      | root => exact h
      | here | up => exact hcons

theorem isStep_of_mem_normalComponents (h : p.isAbsolute = false) :
    ∀ c ∈ p.normalComponents, c.IsStep := by
  have hfold : ∀ cs : List Component, (∀ c ∈ cs, c.IsStep) → ∀ before : List Component,
      (∀ c ∈ before, c.IsStep) → ∀ c ∈ cs.foldl normalStep before, c.IsStep := by
    intro cs hcs
    induction cs with
    | nil => exact fun _ hbefore ↦ hbefore
    | cons c cs ih =>
      obtain ⟨hc, hrest⟩ := List.forall_mem_cons.mp hcs
      exact fun before hbefore ↦ ih hrest _ (isStep_of_mem_normalStep hbefore hc)
  have hpieces := hfold _ (fun c ↦ isStep_of_mem_pieces (c := c) (p := p)) []
    (List.forall_mem_nil _)
  intro c hc
  rw [normalComponents, List.mem_reverse, components, h, if_neg Bool.false_ne_true] at hc
  -- A dot in front is dropped by the first step.
  split_ifs at hc
  · exact hpieces c hc
  · exact hpieces c hc

theorem isFileName_of_mem_place (hstart : ∀ n ∈ fs.start p, IsFileName n) :
    ∀ n ∈ fs.place p, IsFileName n := by
  have hfold : ∀ (pieces : List Text) (loc : Location), (∀ piece ∈ pieces, '/' ∉ piece) →
      (∀ n ∈ loc, IsFileName n) → ∀ n ∈ pieces.foldl FileSystem.move loc, IsFileName n := by
    intro pieces
    induction pieces with
    | nil => exact fun _ _ hloc ↦ hloc
    | cons piece pieces ih =>
      intro loc hpieces hloc
      obtain ⟨hpiece, hrest⟩ := List.forall_mem_cons.mp hpieces
      refine ih _ hrest fun n hn ↦ ?_
      rw [FileSystem.move] at hn
      split_ifs at hn with hhere hup
      · exact hloc n hn
      · exact hloc n (List.dropLast_subset loc hn)
      · rcases List.mem_append.mp hn with hn | hn
        · exact hloc n hn
        · obtain ⟨hnil, hdot⟩ := not_or.mp hhere
          rw [List.mem_singleton.mp hn]
          exact ⟨⟨hnil, hdot, hup⟩, hpiece⟩
  exact hfold _ _ (fun _ ↦ not_mem_of_mem_splitSlashes) hstart

theorem isStep_names (h : ∀ n ∈ names, IsFileName n) :
    ∀ c ∈ names.map Component.name, c.IsStep := by
  intro c hc
  obtain ⟨n, hn, rfl⟩ := List.mem_map.mp hc
  exact Component.isStep_name (h n hn)

theorem isStep_steps (k : Nat) (h : ∀ n ∈ names, IsFileName n) :
    ∀ c ∈ List.replicate k .up ++ names.map Component.name, c.IsStep := by
  intro c hc
  rcases List.mem_append.mp hc with hc | hc
  · rw [List.eq_of_mem_replicate hc]
    exact Component.isStep_up
  · exact isStep_names h c hc

theorem foldl_move_names (names loc : Location) :
    (names.map Component.name).foldl Component.move loc = loc ++ names := by
  induction names generalizing loc with
  | nil => exact (List.append_nil loc).symm
  | cons n names ih =>
    rw [List.map_cons, List.foldl_cons, ih, Component.move, List.append_assoc]
    rfl

theorem foldl_move_ups (k : Nat) (loc : Location) :
    (List.replicate k Component.up).foldl Component.move loc = loc.take (loc.length - k) := by
  induction k generalizing loc with
  | zero => rw [Nat.sub_zero, List.take_length]; rfl
  | succ k ih =>
    rw [List.replicate_succ, List.foldl_cons, ih, Component.move, List.length_dropLast,
      List.dropLast_eq_take, List.take_take]
    congr 1
    omega

theorem components_ofLocation (h : ∀ n ∈ l, IsFileName n) :
    (ofLocation l).components = .root :: l.map .name :=
  components_ofComponents_root (isStep_names h)

theorem components_ofSteps (k : Nat) (h : ∀ n ∈ names, IsFileName n) :
    (ofSteps k names).components = List.replicate k .up ++ names.map .name :=
  components_ofComponents (isStep_steps k h)

@[simp] theorem place_ofLocation (fs : FileSystem) (h : ∀ n ∈ l, IsFileName n) :
    fs.place (ofLocation l) = l := by
  rw [← foldl_move_components, components_ofLocation h, List.foldl_cons, foldl_move_names]
  rfl

theorem place_ofSteps (fs : FileSystem) (k : Nat) (h : ∀ n ∈ names, IsFileName n) :
    fs.place (ofSteps k names) =
      fs.workingDirectory.take (fs.workingDirectory.length - k) ++ names := by
  rw [← foldl_move_components, components_ofSteps k h, List.foldl_append, foldl_move_ups,
    foldl_move_names]

/-- **Normalizing does not change where a path leads.** -/
theorem place_normalize (fs : FileSystem) (p : Path) : fs.place p.normalize = fs.place p := by
  by_cases h : p.isAbsolute
  · rw [normalize_of_isAbsolute fs h, place_ofLocation]
    refine isFileName_of_mem_place ?_
    rw [start, if_pos h]
    exact List.forall_mem_nil _
  · rw [Bool.not_eq_true] at h
    have hsteps := isStep_of_mem_normalComponents h
    rw [← foldl_move_normalComponents fs p, normalize]
    split
    · next hnil => rw [hnil]; rfl
    · rw [← foldl_move_components, components_ofComponents hsteps]

/-! ## The parent and the ending -/

theorem isAbsolute_join_of_isAbsolute (h : dir.isAbsolute) (p : Path) :
    (dir.join p).isAbsolute := by
  by_cases hp : p.isAbsolute
  · rwa [join, if_pos hp]
  · rw [Bool.not_eq_true] at hp
    rwa [isAbsolute_join hp]
    intro hnil
    rw [isAbsolute, hnil] at h
    exact absurd h (by decide)

theorem parent?_ofLocation_concat (h : ∀ n' ∈ l ++ [n], IsFileName n') :
    (ofLocation (l ++ [n])).parent? = some (ofLocation l) := by
  rw [parent?, components_ofLocation h, List.map_append]
  split
  · next heq => cases heq
  · next heq => simp at heq
  · rw [← List.cons_append, List.map_singleton, List.dropLast_concat]
    rfl

theorem parent?_ofSteps_concat (k : Nat) (h : ∀ n' ∈ names ++ [n], IsFileName n') :
    (ofSteps k (names ++ [n])).parent? = some (ofSteps k names) := by
  rw [parent?, components_ofSteps k h, List.map_append, List.map_singleton, ← List.append_assoc]
  split
  · next heq => simp at heq
  · next heq =>
    have hlast := congrArg List.getLast? heq
    simp at hlast
  · rw [List.dropLast_concat]
    rfl

theorem fileName?_of_components (cs : List Component) (h : p.components = cs ++ [.name n]) :
    p.fileName? = some n := by
  rw [fileName?, h, List.getLast?_concat]

/-- Whether a path names a typed module depends on its last name. -/
theorem isTyped_ofLocation_concat (k : Nat) (hl : ∀ n' ∈ l ++ [n], IsFileName n')
    (hnames : ∀ n' ∈ names ++ [n], IsFileName n') :
    (ofLocation (l ++ [n])).isTyped = (ofSteps k (names ++ [n])).isTyped := by
  have habs : (ofLocation (l ++ [n])).fileName? = some n :=
    fileName?_of_components (.root :: l.map .name) (by rw [components_ofLocation hl]; simp)
  have hrel : (ofSteps k (names ++ [n])).fileName? = some n :=
    fileName?_of_components (List.replicate k .up ++ names.map .name)
      (by rw [components_ofSteps k hnames]; simp)
  rw [isTyped, isTyped, extension?, extension?, habs, hrel]

theorem intercalate_concat_append (pieces : List Text) (n e : Text) :
    List.intercalate ['/'] (pieces ++ [n ++ e]) = List.intercalate ['/'] (pieces ++ [n]) ++ e := by
  induction pieces with
  | nil => simp
  | cons piece pieces ih =>
    rcases pieces with _ | ⟨next, pieces⟩
    · simp [List.intercalate_cons_cons]
    · simp only [List.cons_append, List.intercalate_cons_cons] at ih ⊢
      rw [ih]
      simp only [List.append_assoc]

theorem text_ofLocation (l : Location) :
    (ofLocation l).text = '/' :: List.intercalate ['/'] l := by
  rw [ofLocation, ofComponents, List.map_map]
  show '/' :: List.intercalate ['/'] (l.map id) = _
  rw [List.map_id]

theorem text_ofSteps (k : Nat) (names : Location) :
    (ofSteps k names).text =
      List.intercalate ['/'] (List.replicate k ['.', '.'] ++ names) := by
  have hmap : (List.replicate k Component.up ++ names.map Component.name).map Component.text =
      List.replicate k ['.', '.'] ++ names := by
    rw [List.map_append, List.map_replicate, List.map_map]
    show List.replicate k ['.', '.'] ++ names.map id = _
    rw [List.map_id]
  rw [← hmap, ofSteps, ofComponents]
  intro cs hcs
  have hroot : Component.root ∈ List.replicate k Component.up ++ names.map Component.name :=
    hcs ▸ List.mem_cons_self
  simp at hroot

/-- Something written behind a path goes to its last name. -/
theorem append_ofLocation_concat (l : Location) (n e : Text) :
    (ofLocation (l ++ [n])).append e = ofLocation (l ++ [n ++ e]) := by
  rw [append, text_ofLocation, List.cons_append, ← intercalate_concat_append, ← text_ofLocation]

theorem append_ofSteps_concat (k : Nat) (names : Location) (n e : Text) :
    (ofSteps k (names ++ [n])).append e = ofSteps k (names ++ [n ++ e]) := by
  rw [append, text_ofSteps, ← List.append_assoc, ← intercalate_concat_append, List.append_assoc,
    ← text_ofSteps]

theorem mem_intercalate_iff {x : Char} (hx : x ≠ '/') :
    x ∈ List.intercalate ['/'] pieces ↔ ∃ piece ∈ pieces, x ∈ piece := by
  induction pieces with
  | nil => simp
  | cons piece pieces ih =>
    rcases pieces with _ | ⟨next, pieces⟩
    · simp
    · rw [List.intercalate_cons_cons, List.mem_append, List.mem_append, ih]
      simp [hx]

end Path

/-! ## Files under the two paths of a location -/

namespace FileSystem

open PluginPack.Path

variable {fs : FileSystem} {l l' loc names : Location} {k : Nat} {p q : Path}

/-- The names that lead to a location can be written in a path. -/
def HasPath (l : Location) : Prop :=
  ∀ n ∈ l, IsFileName n ∧ '\x00' ∉ n ∧ utf8Length n ≤ maxNameBytes

instance (l : Location) : Decidable (HasPath l) :=
  inferInstanceAs (Decidable (∀ n ∈ l, IsFileName n ∧ '\x00' ∉ n ∧ utf8Length n ≤ maxNameBytes))

theorem IsTree.node?_of_prefix (h : fs.IsTree) (hdir : fs.node? l' = some .dir) (hl : l <+: l') :
    fs.node? l = some .dir := by
  obtain ⟨below, rfl⟩ := hl
  by_cases hnil : below = []
  · rwa [hnil, List.append_nil] at hdir
  · exact h.node?_of_append hdir hnil

theorem foldl_move_of_isName (h : ∀ n ∈ names, IsName n) (loc : Location) :
    names.foldl move loc = loc ++ names := by
  induction names generalizing loc with
  | nil => exact (List.append_nil loc).symm
  | cons n names ih =>
    obtain ⟨hn, hnames⟩ := List.forall_mem_cons.mp h
    rw [List.foldl_cons, move_name hn, ih hnames, List.append_assoc]
    rfl

theorem foldl_move_replicate_up (k : Nat) (loc : Location) :
    (List.replicate k ['.', '.']).foldl move loc = loc.take (loc.length - k) := by
  rw [← foldl_move_ups, ← foldl_move_filterMap, List.filterMap_replicate]
  rfl

/-- The names of a directory can be followed from the root. -/
theorem follow_names (htree : fs.IsTree) (hdir : fs.node? l = some .dir) (hl : HasPath l) :
    fs.follow [] ([] :: l) = .ok l := by
  have hnames : ∀ n ∈ l, IsName n := fun n hn ↦ (hl n hn).1.1
  refine follow_eq_ok_iff.mpr ⟨(foldl_move_of_isName hnames []).symm, fun pre piece hpre ↦ ?_⟩
  rcases pre with _ | ⟨first, pre⟩
  · obtain ⟨rfl, -⟩ := List.cons_prefix_cons.mp hpre
    exact ⟨node?_nil fs, by decide⟩
  · obtain ⟨rfl, hrest⟩ := List.cons_prefix_cons.mp hpre
    have hmem : ∀ n ∈ pre ++ [piece], n ∈ l := fun n hn ↦ hrest.subset hn
    have hplace : ([] :: pre).foldl move [] = pre := by
      show pre.foldl move [] = pre
      rw [foldl_move_of_isName fun n hn ↦ hnames n (hmem n (List.mem_append_left [piece] hn)),
        List.nil_append]
    rw [hplace]
    refine ⟨htree.node?_of_prefix hdir ((List.prefix_append pre [piece]).trans hrest), ?_⟩
    exact (hl piece (hmem piece (List.mem_append_right pre List.mem_cons_self))).2.2

/-- The steps up from a directory can be followed. -/
theorem follow_ups (htree : fs.IsTree) (hdir : fs.node? l = some .dir) (k : Nat) :
    fs.follow l (List.replicate k ['.', '.']) = .ok (l.take (l.length - k)) := by
  refine follow_eq_ok_iff.mpr ⟨(foldl_move_replicate_up k l).symm, fun pre piece hpre ↦ ?_⟩
  have hmem : ∀ x ∈ pre ++ [piece], x = ['.', '.'] := fun x hx ↦
    List.eq_of_mem_replicate (hpre.subset hx)
  have hpre' : pre = List.replicate pre.length ['.', '.'] :=
    List.eq_replicate_iff.mpr ⟨rfl, fun x hx ↦ hmem x (List.mem_append_left _ hx)⟩
  rw [hpre', foldl_move_replicate_up, hmem piece (List.mem_append_right pre List.mem_cons_self)]
  exact ⟨htree.node?_of_prefix hdir (List.take_prefix _ l), by decide⟩

theorem follow_append_of_ok {pre rest : List Text} (h : fs.follow l pre = .ok l') :
    fs.follow l (pre ++ rest) = fs.follow l' rest := by
  rw [follow, List.foldlM_append, ← follow, h]
  rfl

theorem fileAt?_congr (hcheck : checkPath p = .ok () ↔ checkPath q = .ok ())
    (hfollow : fs.follow (fs.start p) (splitSlashes p.text) =
      fs.follow (fs.start q) (splitSlashes q.text)) : fs.fileAt? p = fs.fileAt? q := by
  have hlocate : ∀ l n, fs.locate p = .ok (l, n) ↔ fs.locate q = .ok (l, n) := fun l n ↦ by
    rw [locate_eq_ok_iff, locate_eq_ok_iff, hcheck, hfollow]
  refine Option.ext fun c ↦ ?_
  rw [fileAt?_eq_some_iff, fileAt?_eq_some_iff]
  constructor
  · intro h
    have h' := (hlocate _ _).mp h
    rwa [eq_place_of_locate h'] at h'
  · intro h
    have h' := (hlocate _ _).mpr h
    rwa [eq_place_of_locate h'] at h'

theorem text_ofSteps_ne_nil (k : Nat) (hnames : ∀ n ∈ names, IsFileName n) (hne : names ≠ []) :
    (ofSteps k names).text ≠ [] := by
  intro hnil
  have hcomponents := components_ofSteps k hnames
  rw [components, isAbsolute, hnil] at hcomponents
  simp [splitSlashes, Component.ofPiece?, hne] at hcomponents

/-- A character that no path may hold is not among the names of a directory. -/
theorem nul_mem_text_ofLocation_iff (hl : HasPath l) (k : Nat) (names : Location) :
    '\x00' ∈ (ofLocation (l ++ names)).text ↔ '\x00' ∈ (ofSteps k names).text := by
  rw [text_ofLocation, text_ofSteps, List.mem_cons, mem_intercalate_iff (by decide),
    mem_intercalate_iff (by decide)]
  constructor
  · rintro (h | ⟨n, hn, hmem⟩)
    · exact absurd h (by decide)
    · rcases List.mem_append.mp hn with hn | hn
      · exact absurd hmem (hl n hn).2.1
      · exact ⟨n, List.mem_append_right _ hn, hmem⟩
  · rintro ⟨n, hn, hmem⟩
    rcases List.mem_append.mp hn with hn | hn
    · rw [List.eq_of_mem_replicate hn] at hmem
      exact absurd hmem (by decide)
    · exact .inr ⟨n, List.mem_append_right _ hn, hmem⟩

/-- A relative path is followed from the directory that its steps up lead to. -/
theorem follow_ofSteps (htree : fs.IsTree) (k : Nat) (hnames : ∀ n ∈ names, IsFileName n)
    (hne : names ≠ []) :
    fs.follow (fs.start (ofSteps k names)) (splitSlashes (ofSteps k names).text) =
      fs.follow (fs.workingDirectory.take (fs.workingDirectory.length - k)) names := by
  have hrelative : (ofSteps k names).isAbsolute = false :=
    isAbsolute_ofComponents (isStep_steps k hnames)
  have hslash : ∀ n ∈ List.replicate k ['.', '.'] ++ names, '/' ∉ n := fun n hn ↦ by
    rcases List.mem_append.mp hn with hn | hn
    · rw [List.eq_of_mem_replicate hn]
      decide
    · exact (hnames n hn).2
  rw [start, hrelative, if_neg Bool.false_ne_true, text_ofSteps,
    splitSlashes_intercalate (by simp [hne]) hslash,
    follow_append_of_ok (follow_ups htree htree.working k)]

/-- An absolute path is followed from any directory above its end. -/
theorem follow_ofLocation (htree : fs.IsTree) (hdir : fs.node? l = some .dir) (hl : HasPath l)
    (hnames : ∀ n ∈ names, IsFileName n) (hne : names ≠ []) :
    fs.follow (fs.start (ofLocation (l ++ names))) (splitSlashes (ofLocation (l ++ names)).text) =
      fs.follow l names := by
  have hslash : ∀ n ∈ l ++ names, '/' ∉ n := fun n hn ↦ by
    rcases List.mem_append.mp hn with hn | hn
    · exact (hl n hn).1.2
    · exact (hnames n hn).2
  rw [start, if_pos (by rfl), text_ofLocation, splitSlashes, if_pos rfl,
    splitSlashes_intercalate (by simp [hne]) hslash, ← List.cons_append,
    follow_append_of_ok (follow_names htree hdir hl)]

/-- **A relative path and the absolute path of its place lead to the same file**, when neither is
too long. -/
theorem fileAt?_ofSteps (htree : fs.IsTree) (hwork : HasPath fs.workingDirectory)
    (hnames : ∀ n ∈ names, IsFileName n) (hne : names ≠ [])
    (hrel : utf8Length (ofSteps k names).text ≤ maxPathBytes)
    (habs : utf8Length (ofLocation (fs.place (ofSteps k names))).text ≤ maxPathBytes) :
    fs.fileAt? (ofLocation (fs.place (ofSteps k names))) = fs.fileAt? (ofSteps k names) := by
  have htop := List.take_prefix (fs.workingDirectory.length - k) fs.workingDirectory
  have hpath : HasPath (fs.workingDirectory.take (fs.workingDirectory.length - k)) :=
    fun n hn ↦ hwork n (htop.subset hn)
  have hdir := htree.node?_of_prefix htree.working htop
  rw [place_ofSteps fs k hnames] at habs ⊢
  -- Both paths can be named, and both are followed from the directory that the steps up lead to.
  refine fileAt?_congr ?_ ?_
  · have habsolute : (ofLocation (fs.workingDirectory.take (fs.workingDirectory.length - k) ++
        names)).text ≠ [] := by
      rw [text_ofLocation]
      exact List.cons_ne_nil _ _
    rw [checkPath_eq_ok_iff, checkPath_eq_ok_iff, nul_mem_text_ofLocation_iff hpath k]
    exact and_congr_right fun _ ↦
      ⟨fun _ ↦ ⟨text_ofSteps_ne_nil k hnames hne, hrel⟩, fun _ ↦ ⟨habsolute, habs⟩⟩
  · rw [follow_ofLocation htree hdir hpath hnames hne, follow_ofSteps htree k hnames hne]

end FileSystem

end PluginPack
