import PluginPack.Proofs.FileSystem.Directory
import PluginPack.Proofs.FileSystem.Location

/-!
# Directories that can be removed again

Making directories and writing files leaves a tree a tree. Whether a path leads to a directory
depends only on its steps, so a directory that was made under one path is there under every other
path with the same steps. A path without steps up whose last piece is a name leads to a directory
that can be removed with all that is below it, and afterwards nothing is there.
-/

namespace PluginPack

open Text FileSystem

/-! ## Steps -/

namespace Path

variable {p q dir : Path} {cs : List Component} {name : Text}

/-- The components of a path behind its root or the dot in front of it. -/
def steps (p : Path) : List Component := (splitSlashes p.text).filterMap Component.ofPiece?

theorem isStep_of_mem_steps {c : Component} (h : c ∈ p.steps) : c.IsStep := isStep_of_mem_pieces h

theorem foldl_move_steps (fs : FileSystem) (p : Path) :
    p.steps.foldl Component.move (fs.start p) = fs.place p :=
  foldl_move_filterMap _ _

/-- What stands in front of the steps among the components. -/
theorem exists_components_eq (p : Path) :
    ∃ lead, p.components = lead ++ p.steps ∧
      (p.isAbsolute = true ∧ lead = [.root] ∨
        p.isAbsolute = false ∧ (lead = [.here] ∨ lead = [])) := by
  rw [components]
  split_ifs with habsolute hhere
  · exact ⟨[.root], rfl, .inl ⟨habsolute, rfl⟩⟩
  · exact ⟨[.here], rfl, .inr ⟨Bool.eq_false_iff.mpr habsolute, .inl rfl⟩⟩
  · exact ⟨[], rfl, .inr ⟨Bool.eq_false_iff.mpr habsolute, .inr rfl⟩⟩

theorem steps_ofComponents (h : ∀ c ∈ cs, c.IsStep) : (ofComponents cs).steps = cs := by
  rw [steps, text_ofComponents h, filterMap_splitSlashes_intercalate h]

theorem steps_ofComponents_root (h : ∀ c ∈ cs, c.IsStep) :
    (ofComponents (.root :: cs)).steps = cs := by
  rw [steps, ofComponents, splitSlashes, if_pos rfl]
  exact filterMap_splitSlashes_intercalate h

theorem steps_ofComponents_here (h : ∀ c ∈ cs, c.IsStep) :
    (ofComponents (.here :: cs)).steps = cs ∧ (ofComponents (.here :: cs)).isAbsolute = false := by
  cases cs with
  | nil => exact ⟨rfl, rfl⟩
  | cons c cs =>
    have htext : (ofComponents (.here :: c :: cs)).text =
        ['.'] ++ '/' :: List.intercalate ['/'] ((c :: cs).map Component.text) := by
      rw [ofComponents, List.map_cons, List.map_cons, List.intercalate_cons_cons]
      · simp only [Component.text, List.cons_append, List.nil_append]
      · rintro _ ⟨⟩
    constructor
    · rw [steps, htext, splitSlashes_append_slash, List.filterMap_append,
        filterMap_splitSlashes_intercalate h]
      rfl
    · rw [isAbsolute, htext]
      rfl

/-- The paths above a path have the first ones of its steps. -/
theorem exists_steps_eq_of_mem_ancestors (h : q ∈ ancestors p) :
    q = p ∨ q.isAbsolute = p.isAbsolute ∧ ∃ j, j < p.steps.length ∧ q.steps = p.steps.take j := by
  rw [ancestors, List.mem_cons] at h
  refine h.imp_right fun h ↦ ?_
  obtain ⟨cs, hcs, rfl⟩ := List.mem_map.mp h
  obtain ⟨hmem, hne⟩ := List.mem_filter.mp hcs
  obtain ⟨hnil, hroot⟩ := of_decide_eq_true hne
  obtain ⟨k, hk, rfl⟩ := List.mem_map.mp hmem
  rw [List.mem_reverse, List.mem_range] at hk
  have hstep : ∀ j, ∀ c ∈ p.steps.take j, c.IsStep := fun j c hc ↦
    isStep_of_mem_steps (List.mem_of_mem_take hc)
  obtain ⟨lead, heq, ⟨habsolute, rfl⟩ | ⟨hrelative, rfl | rfl⟩⟩ := exists_components_eq p
  · rw [heq] at hk hnil hroot ⊢
    rcases k with _ | k
    · exact absurd rfl hnil
    · rw [List.singleton_append, List.take_succ_cons, habsolute]
      refine ⟨rfl, k, ?_, steps_ofComponents_root (hstep k)⟩
      simpa using hk
  · rw [heq] at hk hnil ⊢
    rcases k with _ | k
    · exact absurd rfl hnil
    · rw [List.singleton_append, List.take_succ_cons, hrelative]
      obtain ⟨hsteps, habs⟩ := steps_ofComponents_here (hstep k)
      refine ⟨habs, k, ?_, hsteps⟩
      simpa using hk
  · rw [heq] at hk ⊢
    rw [List.nil_append, hrelative]
    exact ⟨isAbsolute_ofComponents (hstep k), k, hk, steps_ofComponents (hstep k)⟩

theorem steps_join (hname : IsFileName name) (hdir : dir.text ≠ []) :
    (dir.join ⟨name⟩).steps = dir.steps ++ [.name name] := by
  have hof : Component.ofPiece? name = some (.name name) :=
    (Component.isStep_name hname).ofPiece?_text
  have hrelative : (⟨name⟩ : Path).isAbsolute = false := by
    refine beq_false_of_ne fun heq ↦ hname.2 ?_
    exact List.mem_of_mem_head? heq
  rw [steps, steps]
  rcases splitSlashes_join hrelative hdir with heq | ⟨pieces, hpieces, heq⟩
  · rw [heq, splitSlashes_eq_singleton hname.2, List.filterMap_append,
      List.filterMap_cons_some hof, List.filterMap_nil]
  · rw [heq, hpieces, splitSlashes_eq_singleton hname.2, List.filterMap_append,
      List.filterMap_append, List.filterMap_cons_some hof, List.filterMap_nil]
    exact congrArg (· ++ _) (List.append_nil _).symm

/-- A path without steps up goes down by its names. -/
theorem exists_steps_eq_names (hup : ['.', '.'] ∉ splitSlashes p.text) :
    ∃ names : List Text, p.steps = names.map .name := by
  have hname : ∀ c ∈ p.steps, ∃ n, Component.name n = c := by
    intro c hc
    obtain ⟨piece, hpiece, hof⟩ := List.mem_filterMap.mp hc
    rw [Component.ofPiece?] at hof
    split_ifs at hof with hhere hdots
    · exact absurd (hdots ▸ hpiece) hup
    · exact ⟨piece, Option.some.inj hof⟩
  generalize p.steps = cs at hname
  induction cs with
  | nil => exact ⟨[], rfl⟩
  | cons c cs ih =>
    obtain ⟨⟨n, rfl⟩, hcs⟩ := List.forall_mem_cons.mp hname
    obtain ⟨names, rfl⟩ := ih hcs
    exact ⟨n :: names, rfl⟩

end Path

namespace FileSystem

open PluginPack.Path PluginPack.Bundle

variable {fs fs' : FileSystem} {l loc : Location} {n : Node} {p q dir : Path}
  {ps missing : List Path}
  {c : Content} {pieces : List Text}

/-! ## Trees -/

/-- A path begins in a directory. -/
theorem IsTree.node?_start (h : fs.IsTree) (p : Path) : fs.node? (fs.start p) = some .dir := by
  rw [start]
  split_ifs
  · rfl
  · exact h.working

theorem IsTree.setNode (h : fs.IsTree) (hsite : fs.HasSite p)
    (hn : fs.node? (fs.place p) = some .dir → n = .dir) : (fs.setNode (fs.place p) n).IsTree := by
  have hdir : ∀ l, fs.node? l = some .dir → (fs.setNode (fs.place p) n).node? l = some .dir := by
    intro l hl
    rw [node?_setNode _ _ hsite.place_ne_nil]
    split_ifs with heq
    · rw [hn (heq ▸ hl)]
    · exact hl
  refine ⟨fun m hm ↦ hdir _ ?_, hdir _ h.working⟩
  rcases List.mem_cons.mp hm with rfl | hm
  · obtain ⟨loc, name, -, heq, hloc⟩ := hsite.exists_place_eq
    rwa [heq, List.dropLast_concat]
  · exact h.parent m (List.mem_filter.mp hm).1

theorem IsTree.makeDir (h : fs.IsTree) (hmake : fs.makeDir p = .ok fs') : fs'.IsTree := by
  obtain ⟨hsite, -, rfl⟩ := makeDir_eq_ok_iff.mp hmake
  exact h.setNode hsite fun _ ↦ rfl

theorem IsTree.writeFile (h : fs.IsTree) (hwrite : fs.writeFile p c = .ok fs') : fs'.IsTree := by
  obtain ⟨hsite, hdir, -, rfl⟩ := writeFile_eq_ok_iff.mp hwrite
  exact h.setNode hsite fun hdir' ↦ absurd hdir' hdir

/-! ## What making directories keeps -/

variable {P : FileSystem → Prop}

theorem makeDirsDown_induction (h : P fs)
    (hstep : ∀ fs fs' q, q ∈ ps → P fs → fs.makeDir q = .ok fs' → P fs') :
    P (fs.makeDirsDown ps).1 := by
  induction ps generalizing fs with
  | nil => exact h
  | cons q ps ih =>
    have hrest : ∀ fs fs' x, x ∈ ps → P fs → fs.makeDir x = .ok fs' → P fs' :=
      fun fs fs' x hx ↦ hstep fs fs' x (List.mem_cons_of_mem q hx)
    rw [makeDirsDown]
    split
    · next fs₁ hmake => exact ih (hstep fs fs₁ q List.mem_cons_self h hmake) hrest
    · split
      · exact ih h hrest
      · exact h
    · exact h

theorem makeDirsUp_induction (h : P fs)
    (hstep : ∀ fs fs' q, q ∈ missing ∨ q ∈ ps → P fs → fs.makeDir q = .ok fs' → P fs') :
    P (fs.makeDirsUp missing ps).1 := by
  have hdown : ∀ {fs}, P fs → P (fs.makeDirsDown missing).1 := fun h ↦
    makeDirsDown_induction h fun fs fs' q hq ↦ hstep fs fs' q (.inl hq)
  induction ps generalizing missing with
  | nil => exact hdown h
  | cons q ps ih =>
    rw [makeDirsUp]
    split
    · next fs₁ hmake => exact hdown (hstep fs fs₁ q (.inr List.mem_cons_self) h hmake)
    · refine ih (fun fs fs' x hx ↦ hstep fs fs' x ?_) fun h ↦ ?_
      · rcases hx with hx | hx
        · exact (List.mem_cons.mp hx).elim (fun heq ↦ .inr (heq ▸ List.mem_cons_self)) .inl
        · exact .inr (List.mem_cons_of_mem q hx)
      · refine makeDirsDown_induction h fun fs fs' x hx ↦ hstep fs fs' x ?_
        exact (List.mem_cons.mp hx).elim (fun heq ↦ .inr (heq ▸ List.mem_cons_self)) .inl
    · split
      · exact hdown h
      · exact h
    · exact h

/-- What every single directory that is made keeps, making a directory with those above it keeps,
whether it succeeds or not. -/
theorem makeDirs_induction (h : P fs)
    (hstep : ∀ fs fs' q, q ∈ ancestors p → P fs → fs.makeDir q = .ok fs' → P fs') :
    P (fs.makeDirs p).1 := by
  rw [makeDirs]
  split_ifs
  · exact h
  · exact makeDirsUp_induction h fun fs fs' q hq ↦
      hstep fs fs' q (hq.resolve_left List.not_mem_nil)

/-! ## Paths with the same steps -/

theorem isDir_iff :
    fs.isDir p ↔ checkPath p = .ok () ∧
      fs.follow (fs.start p) (splitSlashes p.text) = .ok (fs.place p) ∧
        fs.node? (fs.place p) = some .dir := by
  rw [← locate_eq_ok_iff, isDir]
  constructor
  · intro h
    split at h
    · next l hlocate => rw [hlocate, ← eq_place_of_locate hlocate]
    · exact absurd h Bool.false_ne_true
  · intro h
    rw [h]

theorem isDir_mono (h : fs.isDir p) (hwork : fs'.workingDirectory = fs.workingDirectory)
    (hdirs : ∀ l, fs.node? l = some .dir → fs'.node? l = some .dir) : fs'.isDir p := by
  obtain ⟨hcheck, hfollow, hnode⟩ := isDir_iff.mp h
  rw [isDir_iff, start_congr hwork, place_congr hwork]
  exact ⟨hcheck, follow_mono hfollow hdirs, hdirs _ hnode⟩

/-- Pieces that lead nowhere else do not matter on the way to a directory. -/
theorem follow_eq_ok_iff_filterMap (hl : fs.node? l = some .dir) :
    fs.follow loc pieces = .ok l ↔
      fs.follow loc ((pieces.filterMap Component.ofPiece?).map Component.text) = .ok l := by
  induction pieces generalizing loc with
  | nil => rfl
  | cons piece pieces ih =>
    by_cases hhere : piece = [] ∨ piece = ['.']
    · have hskip : Component.ofPiece? piece = none := by rw [Component.ofPiece?, if_pos hhere]
      rw [List.filterMap_cons_none hskip, ← ih, follow_cons]
      have hstep : ∀ hdir : fs.node? loc = some .dir, fs.step loc piece = .ok loc := by
        intro hdir
        rw [step_eq_ok_iff]
        exact ⟨hdir, by rcases hhere with rfl | rfl <;> decide, by rw [move, if_pos hhere]⟩
      constructor
      · intro h
        obtain ⟨loc', hloc', h⟩ := bind_eq_ok_iff.mp h
        rw [hstep (step_eq_ok_iff.mp hloc').1] at hloc'
        rwa [Except.ok.inj hloc']
      · intro h
        have hdir : fs.node? loc = some .dir := by
          rcases pieces with _ | ⟨next, pieces⟩
          · rwa [← Except.ok.inj h] at hl
          · exact ((follow_eq_ok_iff.mp h).2 [] next ⟨pieces, rfl⟩).1
        rw [hstep hdir]
        exact h
    · obtain ⟨c, hc, htext⟩ : ∃ c, Component.ofPiece? piece = some c ∧ c.text = piece := by
        rw [Component.ofPiece?, if_neg hhere]
        split_ifs with hup
        · exact ⟨.up, rfl, hup.symm⟩
        · exact ⟨.name piece, rfl, rfl⟩
      rw [List.filterMap_cons_some hc, List.map_cons, htext, follow_cons, follow_cons]
      exact bind_eq_ok_iff.trans
        ((exists_congr fun loc' ↦ and_congr_right fun _ ↦ ih).trans bind_eq_ok_iff.symm)

/-- A directory is there under every path with the same steps. -/
theorem isDir_congr (habsolute : q.isAbsolute = p.isAbsolute) (hsteps : q.steps = p.steps)
    (hcheck : checkPath p = .ok ()) (h : fs.isDir q) : fs.isDir p := by
  obtain ⟨-, hfollow, hnode⟩ := isDir_iff.mp h
  have hstart : fs.start q = fs.start p := by rw [start, start, habsolute]
  have hplace : fs.place q = fs.place p := by
    rw [← foldl_move_steps, ← foldl_move_steps, hsteps, hstart]
  rw [hplace] at hnode hfollow
  rw [hstart, follow_eq_ok_iff_filterMap hnode, ← steps, hsteps, steps,
    ← follow_eq_ok_iff_filterMap hnode] at hfollow
  exact isDir_iff.mpr ⟨hcheck, hfollow, hnode⟩

/-! ## Removal -/

/-- What is not below the place of a path without steps up is not touched by emptying it, so the
way to the directory stays. -/
theorem follow_removeWhere (hup : ['.', '.'] ∉ pieces) (h : fs.follow loc pieces = .ok l) :
    (fs.removeWhere fun m ↦ l.isPrefixOf m && m != l).follow loc pieces = .ok l := by
  obtain ⟨rfl, hway⟩ := follow_eq_ok_iff.mp h
  refine follow_eq_ok_iff.mpr ⟨rfl, fun pre piece hpre ↦ ?_⟩
  obtain ⟨hdir, hshort⟩ := hway pre piece hpre
  refine ⟨?_, hshort⟩
  rw [node?_removeWhere_of_not, hdir]
  obtain ⟨rest, rfl⟩ := hpre
  have habove : pre.foldl move loc <+: (pre ++ [piece] ++ rest).foldl move loc := by
    rw [List.append_assoc, List.foldl_append]
    exact prefix_foldl_move (fun hmem ↦ hup (by simp_all)) _
  rw [Bool.and_eq_false_iff]
  by_contra hbelow
  obtain ⟨hunder, hne⟩ := not_or.mp hbelow
  rw [Bool.not_eq_false, List.isPrefixOf_iff_prefix] at hunder
  rw [Bool.not_eq_false, bne_iff_ne] at hne
  exact hne (hunder.eq_of_length_le habove.length_le).symm

theorem node?_of_removeWhere {f : Location → Bool} (h : (fs.removeWhere f).node? l = some n) :
    fs.node? l = some n := by
  by_cases hf : f l
  · rcases eq_or_ne l [] with rfl | hne
    · exact h
    · rw [node?_removeWhere _ _ hne, if_pos hf] at h
      cases h
  · rwa [node?_removeWhere_of_not (Bool.eq_false_iff.mpr hf)] at h

theorem node?_eq_some_of_removeEmptyDir (hremove : fs.removeEmptyDir p = .ok fs')
    (h : fs'.node? l = some n) : fs.node? l = some n := by
  obtain ⟨⟨loc, last⟩, -, hremove⟩ := bind_eq_ok_iff.mp hremove
  cases last with
  | name name =>
    obtain rfl := Except.ok.inj hremove
    exact node?_of_removeWhere h
  | here => cases hremove
  | up => cases hremove
  | root => cases hremove

/-- Removing a directory makes nothing, whether it succeeds or not, and of a directory that is there
nothing but itself may be left. -/
theorem node?_of_removeDirAll (h : (fs.removeDirAll p).1.node? l = some n) :
    fs.node? l = some n ∧ (fs.isDir p → fs.place p <+: l → l = fs.place p) := by
  rw [removeDirAll] at h
  split at h
  · next e hlocate => exact ⟨h, fun hdir ↦ absurd hdir (by simp [isDir, hlocate])⟩
  · next loc c hlocate => exact ⟨h, fun hdir ↦ absurd hdir (by simp [isDir, hlocate])⟩
  · next loc hlocate =>
    have hemptied :
        (fs.removeWhere fun m ↦ loc.isPrefixOf m && m != loc).node? l = some n := by
      simp only at h
      split at h
      · next fs' hremove => exact node?_eq_some_of_removeEmptyDir hremove h
      · exact h
      · exact h
    refine ⟨node?_of_removeWhere hemptied, fun _ hl ↦ ?_⟩
    by_contra hne
    rw [← eq_place_of_locate hlocate] at hl hne
    have hnil : l ≠ [] := by
      rintro rfl
      exact hne (List.prefix_nil.mp hl).symm
    rw [node?_removeWhere _ _ hnil, if_pos] at hemptied
    · cases hemptied
    · rw [Bool.and_eq_true, List.isPrefixOf_iff_prefix, bne_iff_ne]
      exact ⟨hl, hne⟩

/-- Nothing but slashes leads nowhere. -/
theorem place_eq_start_of_root (h : (splitLast p).2 = .root) : fs.place p = fs.start p := by
  obtain ⟨k, hk⟩ := exists_splitSlashes_eq p
  have hnil : (splitLast p).1 = [] := by
    unfold splitLast at h ⊢
    split at h
    · rfl
    · simp only at h
      split_ifs at h
  rw [place, hk, h, hnil, LastPiece.pieces, List.append_nil, List.nil_append,
    foldl_move_replicate_nil]

/-- A directory whose path ends in a name is emptied and then taken out itself. -/
theorem removeDirAll_of_name (h : fs.isDir p) (hup : ['.', '.'] ∉ splitSlashes p.text)
    {name : Text} (hlast : (splitLast p).2 = .name name) :
    fs.removeDirAll p =
      ((fs.removeWhere fun m ↦ (fs.place p).isPrefixOf m && m != fs.place p).removeWhere
        (· = fs.place p), .ok ()) := by
  obtain ⟨hcheck, hfollow, hnode⟩ := isDir_iff.mp h
  obtain ⟨k, hk⟩ := exists_splitSlashes_eq p
  set emptied := fs.removeWhere fun m ↦ (fs.place p).isPrefixOf m && m != fs.place p with hemptied
  have hfollow' := follow_removeWhere hup hfollow
  rw [← hemptied, hk, follow_append] at hfollow'
  obtain ⟨loc', hpieces, -⟩ := hfollow'
  obtain ⟨loc, hparent, hname⟩ := follow_append.mp hpieces
  have hloc : emptied.node? loc = some .dir := by
    rw [hlast] at hname
    exact ((follow_eq_ok_iff.mp hname).2 [] name (List.prefix_refl _)).1
  have hplace : fs.place p = loc ++ [name] := by
    rw [place_eq_concat hlast, eq_of_follow hparent]
  have hremove : emptied.removeEmptyDir p = .ok (emptied.removeWhere (· = fs.place p)) := by
    have hlocate := locateParent_eq_ok_iff.mpr ⟨hcheck, hparent, hloc, rfl⟩
    rw [removeEmptyDir, hlocate, hlast, hplace]
    rfl
  rw [removeDirAll, locate_eq_ok_iff.mpr ⟨hcheck, hfollow, hnode⟩]
  simp only
  rw [← hemptied, hremove]

/-- **A directory whose path ends in a name can be removed**, and nothing is left of it. -/
theorem removeDirAll_of_isDir (h : fs.isDir p) (hup : ['.', '.'] ∉ splitSlashes p.text)
    (hdot : (splitLast p).2 ≠ .here) (hdown : fs.place p ≠ fs.start p) :
    ∃ fs', fs.removeDirAll p = (fs', .ok ()) ∧ ∀ l, fs.place p <+: l → fs'.node? l = none := by
  cases hlast : (splitLast p).2 with
  | here => exact absurd hlast hdot
  | up =>
    obtain ⟨k, hk⟩ := exists_splitSlashes_eq p
    refine absurd ?_ hup
    rw [hk, hlast, LastPiece.pieces]
    simp
  | root => exact absurd (place_eq_start_of_root hlast) hdown
  | name name =>
    have hremoved := removeDirAll_of_name h hup hlast
    refine ⟨_, hremoved, fun l hl ↦ Option.eq_none_iff_forall_ne_some.mpr fun n hn ↦ ?_⟩
    have hplace : l = fs.place p :=
      (node?_of_removeDirAll (by rwa [hremoved])).2 h hl
    have hne : l ≠ [] := by
      rw [hplace, place_eq_concat hlast]
      exact List.concat_ne_nil name _
    rw [node?_removeWhere _ _ hne, if_pos (decide_eq_true hplace)] at hn
    cases hn

end FileSystem

end PluginPack
