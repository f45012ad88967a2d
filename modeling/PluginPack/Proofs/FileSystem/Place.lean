import Mathlib.Data.List.Induction
import PluginPack.FileSystem.Basic
import PluginPack.Proofs.Path.Pieces

/-!
# Where paths lead

Without links, the location that a path names is read off its text: every piece moves to a place
below, to the place above, or nowhere. The file system only decides whether the path can be followed
there, which takes a directory at every place on the way. So an operation that succeeds works on the
place of its path, and a path goes on leading to its place as long as no directory on the way is
lost.
-/

namespace PluginPack.FileSystem

open Text

variable {fs fs' : FileSystem} {l l' loc : Location} {n : Node} {p : Path} {piece : Text}
  {pieces : List Text} {c : Content}

/-! ## Nodes -/

@[simp] theorem node?_nil (fs : FileSystem) : fs.node? [] = some .dir := if_pos rfl

theorem node?_of_ne_nil (h : l ≠ []) : fs.node? l = fs.nodes.lookup l := if_neg h

/-- Looking among the nodes whose locations pass a test. -/
theorem lookup_filter (q : Location → Bool) (nodes : List (Location × Node)) (l : Location) :
    (nodes.filter fun n ↦ q n.1).lookup l = if q l then nodes.lookup l else none := by
  induction nodes with
  | nil => simp
  | cons m nodes ih =>
    obtain ⟨k, n⟩ := m
    by_cases hk : l = k
    · subst hk
      by_cases hq : q l
      · simp [hq]
      · simp [hq, ih]
    · have hne : (l == k) = false := beq_false_of_ne hk
      by_cases hq : q k
      · simp [hq, List.lookup_cons, hne, ih]
      · simp [hq, List.lookup_cons, hne, ih]

theorem node?_setNode (fs : FileSystem) (n : Node) (h : loc ≠ []) (l : Location) :
    (fs.setNode loc n).node? l = if l = loc then some n else fs.node? l := by
  by_cases hl : l = []
  · subst hl
    rw [node?_nil, node?_nil, if_neg h.symm]
  · rw [node?_of_ne_nil hl, node?_of_ne_nil hl, setNode, List.lookup_cons,
      lookup_filter fun m ↦ decide (m ≠ loc)]
    by_cases hloc : l = loc
    · simp [hloc]
    · simp [hloc, beq_false_of_ne hloc]

@[simp] theorem node?_setNode_self (fs : FileSystem) (n : Node) (h : loc ≠ []) :
    (fs.setNode loc n).node? loc = some n := by
  rw [node?_setNode fs n h, if_pos rfl]

theorem node?_removeWhere (fs : FileSystem) (q : Location → Bool) (h : l ≠ []) :
    (fs.removeWhere q).node? l = if q l then none else fs.node? l := by
  rw [node?_of_ne_nil h, node?_of_ne_nil h, removeWhere, lookup_filter fun m ↦ !q m]
  by_cases hq : q l
  · simp [hq]
  · simp [hq]

/-- A location that is not removed keeps its node. -/
theorem node?_removeWhere_of_not {q : Location → Bool} (h : q l = false) :
    (fs.removeWhere q).node? l = fs.node? l := by
  by_cases hl : l = []
  · rw [hl, node?_nil, node?_nil]
  · rw [node?_removeWhere fs q hl, h, if_neg Bool.false_ne_true]

@[simp] theorem setNode_setNode (fs : FileSystem) (loc : Location) (n m : Node) :
    (fs.setNode loc n).setNode loc m = fs.setNode loc m := by
  simp [setNode, List.filter_filter]

@[simp] theorem workingDirectory_setNode (fs : FileSystem) (loc : Location) (n : Node) :
    (fs.setNode loc n).workingDirectory = fs.workingDirectory := rfl

@[simp] theorem workingDirectory_removeWhere (fs : FileSystem) (q : Location → Bool) :
    (fs.removeWhere q).workingDirectory = fs.workingDirectory := rfl

/-! ## Trees -/

/-- Every node stands in a directory, and the working directory is one. -/
structure IsTree (fs : FileSystem) : Prop where
  parent : ∀ m ∈ fs.nodes, fs.node? m.1.dropLast = some .dir
  working : fs.node? fs.workingDirectory = some .dir

instance (fs : FileSystem) : Decidable fs.IsTree :=
  decidable_of_iff
    ((∀ m ∈ fs.nodes, fs.node? m.1.dropLast = some .dir) ∧
      fs.node? fs.workingDirectory = some .dir)
    ⟨fun h ↦ ⟨h.1, h.2⟩, fun h ↦ ⟨h.parent, h.working⟩⟩

theorem mem_nodes_of_node? (h : l ≠ []) (hn : fs.node? l = some n) : (l, n) ∈ fs.nodes := by
  rw [node?_of_ne_nil h] at hn
  obtain ⟨before, behind, heq, -⟩ := List.lookup_eq_some_iff.mp hn
  rw [heq]
  simp

namespace IsTree

theorem node?_dropLast (h : fs.IsTree) (hn : fs.node? l = some n) :
    fs.node? l.dropLast = some .dir := by
  by_cases hl : l = []
  · rw [hl, List.dropLast_nil, node?_nil]
  · exact h.parent _ (mem_nodes_of_node? hl hn)

/-- On the way to a node there are only directories. -/
theorem node?_of_append (h : fs.IsTree) {below : Location} (hn : fs.node? (l ++ below) = some n)
    (hbelow : below ≠ []) : fs.node? l = some .dir := by
  induction below using List.reverseRecOn generalizing n with
  | nil => exact absurd rfl hbelow
  | append_singleton below x ih =>
    have hdir := h.node?_dropLast hn
    rw [← List.append_assoc, List.dropLast_concat] at hdir
    by_cases hnil : below = []
    · rwa [hnil, List.append_nil] at hdir
    · exact ih hdir hnil

/-- Nothing stands below a location where there is nothing. -/
theorem node?_eq_none_below (h : fs.IsTree) (hnone : fs.node? l = none) (hl : l <+: l') :
    fs.node? l' = none := by
  obtain ⟨below, rfl⟩ := hl
  by_cases hnil : below = []
  · rw [hnil, List.append_nil, hnone]
  · refine Option.eq_none_iff_forall_not_mem.mpr fun n hn ↦ ?_
    rw [h.node?_of_append hn hnil] at hnone
    exact absurd hnone nofun

end IsTree

/-! ## Places -/

/-- The place that a piece of a path leads to from another place. -/
def move (loc : Location) (piece : Text) : Location :=
  if piece = [] ∨ piece = ['.'] then loc
  else if piece = ['.', '.'] then loc.dropLast
  else loc ++ [piece]

/-- The place that a path names. -/
def place (fs : FileSystem) (p : Path) : Location :=
  (Path.splitSlashes p.text).foldl move (fs.start p)

theorem start_congr (h : fs'.workingDirectory = fs.workingDirectory) (p : Path) :
    fs'.start p = fs.start p := by
  rw [start, start, h]

theorem place_congr (h : fs'.workingDirectory = fs.workingDirectory) (p : Path) :
    fs'.place p = fs.place p := by
  rw [place, place, start_congr h]

@[simp] theorem place_setNode (fs : FileSystem) (loc : Location) (n : Node) (p : Path) :
    (fs.setNode loc n).place p = fs.place p := rfl

/-- A piece that is a name. -/
def IsName (piece : Text) : Prop := piece ≠ [] ∧ piece ≠ ['.'] ∧ piece ≠ ['.', '.']

instance (piece : Text) : Decidable (IsName piece) :=
  inferInstanceAs (Decidable (piece ≠ [] ∧ piece ≠ ['.'] ∧ piece ≠ ['.', '.']))

theorem move_name (h : IsName piece) (loc : Location) : move loc piece = loc ++ [piece] := by
  rw [move, if_neg (not_or.mpr ⟨h.1, h.2.1⟩), if_neg h.2.2]

/-- Only a step up leaves a place. -/
theorem prefix_move (h : piece ≠ ['.', '.']) (loc : Location) : loc <+: move loc piece := by
  by_cases hhere : piece = [] ∨ piece = ['.']
  · simp only [move, if_pos hhere, List.prefix_refl]
  · simp only [move, if_neg hhere, if_neg h, List.prefix_append]

theorem prefix_foldl_move (h : ['.', '.'] ∉ pieces) (loc : Location) :
    loc <+: pieces.foldl move loc := by
  induction pieces generalizing loc with
  | nil => exact List.prefix_refl loc
  | cons piece pieces ih =>
    have hpiece : piece ≠ ['.', '.'] := fun hp ↦ h (hp ▸ List.mem_cons_self)
    have hpieces : ['.', '.'] ∉ pieces := fun hp ↦ h (List.mem_cons_of_mem piece hp)
    exact (prefix_move hpiece loc).trans (ih hpieces (move loc piece))

theorem foldl_move_replicate_nil (k : Nat) (loc : Location) :
    (List.replicate k []).foldl move loc = loc := by
  induction k with
  | zero => rfl
  | succ k ih => rw [List.replicate_succ, List.foldl_cons, move, if_pos (.inl rfl), ih]

/-- A joined path leads on from the place of the directory. -/
theorem place_join {dir : Path} (hp : p.isAbsolute = false) :
    fs.place (dir.join p) = (Path.splitSlashes p.text).foldl move (fs.place dir) := by
  by_cases hdir : dir.text = []
  · have hjoin : dir.join p = p := by
      rw [Path.join, if_neg (by simp [hp]), if_pos (.inl hdir), hdir, List.nil_append]
    rw [hjoin, place, place, start, if_neg (by simp [hp]), start, Path.isAbsolute, hdir]
    rfl
  · have hstart : fs.start (dir.join p) = fs.start dir := by
      rw [start, start, Path.isAbsolute_join hp hdir]
    rw [place, place, hstart]
    rcases Path.splitSlashes_join hp hdir with heq | ⟨pieces, hpieces, heq⟩
    · rw [heq, List.foldl_append]
    · -- An empty piece at the end of the directory does not lead anywhere else.
      rw [heq, hpieces, List.foldl_append, List.foldl_append]
      rfl

/-! ## Following -/

theorem step_dir (hdir : fs.node? loc = some .dir) :
    fs.step loc piece =
      if maxNameBytes < utf8Length piece then .error .nameTooLong else .ok (move loc piece) := by
  have hshort : ¬maxNameBytes < utf8Length [] ∧ ¬maxNameBytes < utf8Length ['.'] ∧
      ¬maxNameBytes < utf8Length ['.', '.'] := by decide
  simp only [step, hdir, move]
  by_cases hhere : piece = [] ∨ piece = ['.']
  · rw [if_pos hhere, if_pos hhere]
    rcases hhere with rfl | rfl
    · rw [if_neg hshort.1]
    · rw [if_neg hshort.2.1]
  · rw [if_neg hhere, if_neg hhere]
    by_cases hup : piece = ['.', '.']
    · rw [if_pos hup, if_pos hup, hup, if_neg hshort.2.2]
    · rw [if_neg hup, if_neg hup]

theorem step_eq_ok_iff :
    fs.step loc piece = .ok l ↔
      fs.node? loc = some .dir ∧ utf8Length piece ≤ maxNameBytes ∧ l = move loc piece := by
  by_cases hdir : fs.node? loc = some .dir
  · rw [step_dir hdir]
    by_cases hlong : maxNameBytes < utf8Length piece
    · simp [hlong, Nat.not_le.mpr hlong]
    · simp [hlong, hdir, Nat.not_lt.mp hlong, eq_comm]
  · constructor
    · intro h
      simp only [step] at h
      split at h
      · exact absurd h nofun
      · exact absurd h nofun
      · contradiction
    · rintro ⟨h, -, -⟩
      exact absurd h hdir

theorem step_eq_notFound_iff : fs.step loc piece = .error .notFound ↔ fs.node? loc = none := by
  cases hnode : fs.node? loc with
  | none => simp [step, hnode]
  | some n =>
    cases n with
    | file c => simp [step, hnode]
    | dir =>
      simp only [step, hnode, reduceCtorEq, iff_false]
      split_ifs <;> exact nofun

theorem follow_cons (fs : FileSystem) (loc : Location) (piece : Text) (pieces : List Text) :
    fs.follow loc (piece :: pieces) = (fs.step loc piece).bind (fs.follow · pieces) := rfl

/-- A path that can be followed leads to its place, and every place on the way is a directory. -/
theorem follow_eq_ok_iff :
    fs.follow loc pieces = .ok l ↔
      l = pieces.foldl move loc ∧ ∀ pre piece, pre ++ [piece] <+: pieces →
        fs.node? (pre.foldl move loc) = some .dir ∧ utf8Length piece ≤ maxNameBytes := by
  induction pieces generalizing loc with
  | nil =>
    have hnone : ∀ pre (piece : Text), ¬pre ++ [piece] <+: [] := fun pre piece h ↦ by
      simpa using List.prefix_nil.mp h
    constructor
    · intro h
      exact ⟨(Except.ok.inj h).symm, fun pre piece hpre ↦ absurd hpre (hnone pre piece)⟩
    · rintro ⟨rfl, -⟩
      rfl
  | cons first pieces ih =>
    rw [follow_cons]
    constructor
    · intro h
      cases hstep : fs.step loc first with
      | error e =>
        rw [hstep] at h
        exact absurd h nofun
      | ok loc' =>
        rw [hstep] at h
        obtain ⟨hdir, hlength, rfl⟩ := step_eq_ok_iff.mp hstep
        obtain ⟨rfl, hway⟩ := ih.mp h
        refine ⟨rfl, fun pre piece hpre ↦ ?_⟩
        rcases pre with _ | ⟨x, pre⟩
        · obtain ⟨rfl, -⟩ := List.cons_prefix_cons.mp hpre
          exact ⟨hdir, hlength⟩
        · rw [List.cons_append] at hpre
          obtain ⟨rfl, hrest⟩ := List.cons_prefix_cons.mp hpre
          exact hway pre piece hrest
    · rintro ⟨rfl, hway⟩
      obtain ⟨hdir, hlength⟩ := hway [] first (List.prefix_append [first] pieces)
      have hstep : fs.step loc first = .ok (move loc first) :=
        step_eq_ok_iff.mpr ⟨hdir, hlength, rfl⟩
      rw [hstep]
      refine ih.mpr ⟨rfl, fun pre piece hpre ↦ ?_⟩
      exact hway (first :: pre) piece (List.cons_prefix_cons.mpr ⟨rfl, hpre⟩)

theorem eq_of_follow (h : fs.follow loc pieces = .ok l) : l = pieces.foldl move loc :=
  (follow_eq_ok_iff.mp h).1

/-- When nothing is found, something on the way is missing. -/
theorem exists_of_follow_notFound (h : fs.follow loc pieces = .error .notFound) :
    ∃ pre, pre <+: pieces ∧ fs.node? (pre.foldl move loc) = none := by
  induction pieces generalizing loc with
  | nil => exact absurd h nofun
  | cons first pieces ih =>
    rw [follow_cons] at h
    cases hstep : fs.step loc first with
    | error e =>
      rw [hstep] at h
      obtain rfl := Except.error.inj h
      exact ⟨[], List.nil_prefix, step_eq_notFound_iff.mp hstep⟩
    | ok loc' =>
      rw [hstep] at h
      obtain ⟨-, -, rfl⟩ := step_eq_ok_iff.mp hstep
      obtain ⟨pre, hpre, hnone⟩ := ih h
      exact ⟨first :: pre, List.cons_prefix_cons.mpr ⟨rfl, hpre⟩, hnone⟩

/-! ## Paths that can be named -/

theorem checkPath_eq_ok_iff :
    checkPath p = .ok () ↔
      '\x00' ∉ p.text ∧ p.text ≠ [] ∧ utf8Length p.text ≤ maxPathBytes := by
  simp only [checkPath, List.contains_iff_mem]
  split_ifs with hnul hempty hlong
  · simp [hnul]
  · simp [hempty]
  · simp [hlong]
  · simp [hnul, hempty, Nat.not_lt.mp hlong]

/-! ## Locating -/

theorem locate_eq_ok_iff :
    fs.locate p = .ok (l, n) ↔
      checkPath p = .ok () ∧ fs.follow (fs.start p) (Path.splitSlashes p.text) = .ok l ∧
        fs.node? l = some n := by
  unfold locate
  cases hcheck : checkPath p with
  | error e => simp [bind, Except.bind]
  | ok u =>
    cases hfollow : fs.follow (fs.start p) (Path.splitSlashes p.text) with
    | error e => simp [bind, Except.bind]
    | ok l' =>
      cases hnode : fs.node? l' with
      | none =>
        simp only [bind, Except.bind, hnode, reduceCtorEq, Except.ok.injEq, true_and, false_iff,
          not_and]
        rintro rfl
        rw [hnode]
        exact nofun
      | some m =>
        simp only [bind, Except.bind, hnode, Except.ok.injEq, Prod.mk.injEq, true_and]
        constructor
        · rintro ⟨rfl, rfl⟩
          exact ⟨rfl, hnode⟩
        · rintro ⟨rfl, hm⟩
          exact ⟨rfl, Option.some.inj (hnode.symm.trans hm)⟩

theorem eq_place_of_locate (h : fs.locate p = .ok (l, n)) : l = fs.place p :=
  eq_of_follow (locate_eq_ok_iff.mp h).2.1

theorem locate_place (h : fs.locate p = .ok (l, n)) : fs.node? (fs.place p) = some n := by
  rw [← eq_place_of_locate h]
  exact (locate_eq_ok_iff.mp h).2.2

/-- Where a path leads to nothing, something on the way is missing. -/
theorem exists_missing_of_notFound (h : fs.locate p = .error .notFound) (hne : p.text ≠ []) :
    ∃ pre, pre <+: Path.splitSlashes p.text ∧ fs.node? (pre.foldl move (fs.start p)) = none := by
  unfold locate at h
  cases hcheck : checkPath p with
  | error e =>
    -- Only the empty path is refused in this way.
    rw [hcheck] at h
    obtain rfl : e = .notFound := Except.error.inj h
    simp only [checkPath, if_neg hne] at hcheck
    split_ifs at hcheck
    · cases hcheck
    · cases hcheck
  | ok u =>
    rw [hcheck] at h
    cases hfollow : fs.follow (fs.start p) (Path.splitSlashes p.text) with
    | error e =>
      simp only [bind, Except.bind, hfollow, Except.error.injEq] at h
      subst h
      exact exists_of_follow_notFound hfollow
    | ok l' =>
      obtain rfl := eq_of_follow hfollow
      refine ⟨_, List.prefix_refl _, ?_⟩
      simp only [bind, Except.bind, hfollow] at h
      cases hnode : fs.node? ((Path.splitSlashes p.text).foldl move (fs.start p)) with
      | none => rfl
      | some m =>
        rw [hnode] at h
        cases h

/-- Where a path without steps up leads to nothing, nothing stands at its place or below. -/
theorem node?_eq_none_of_notFound (htree : fs.IsTree) (h : fs.locate p = .error .notFound)
    (hne : p.text ≠ []) (hup : ['.', '.'] ∉ Path.splitSlashes p.text)
    (hl : fs.place p <+: l) : fs.node? l = none := by
  obtain ⟨pre, ⟨post, hpost⟩, hnone⟩ := exists_missing_of_notFound h hne
  rw [← hpost] at hup
  refine htree.node?_eq_none_below hnone (List.IsPrefix.trans ?_ hl)
  rw [place, ← hpost, List.foldl_append]
  exact prefix_foldl_move (fun hmem ↦ hup (List.mem_append_right pre hmem)) _

/-! ## Files -/

theorem fileAt?_eq_some_iff :
    fs.fileAt? p = some c ↔ fs.locate p = .ok (fs.place p, .file c) := by
  constructor
  · intro h
    unfold fileAt? at h
    split at h
    · next l c' hlocate =>
      obtain rfl := Option.some.inj h
      rwa [← eq_place_of_locate hlocate]
    · cases h
  · intro h
    rw [fileAt?, h]

theorem readText_eq_ok_iff {t : Text} :
    fs.readText p = .ok t ↔ fs.fileAt? p = some (.text t) := by
  unfold readText fileAt?
  split
  · next l t' hlocate => simp [hlocate]
  · next l b hlocate => simp [hlocate]
  · next l hlocate => simp [hlocate]
  · next e hlocate => simp [hlocate]

end PluginPack.FileSystem
