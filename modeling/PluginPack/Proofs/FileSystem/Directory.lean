import PluginPack.Proofs.FileSystem.Effect

/-!
# Directories that were made

When a directory and those above it are made with success, the path leads to a directory, and a file
can be named in it. What is made stands at the places of the path and of the paths above it, and
nowhere else.
-/

namespace PluginPack.FileSystem

open Text PluginPack.Path PluginPack.Bundle

variable {fs fs' : FileSystem} {l loc : Location} {n : Node} {p q dir : Path}
  {ps missing : List Path} {c : Content} {name : Text}

/-! ## Where directories are made -/

theorem node?_makeDirsDown (h : ∀ q ∈ ps, fs.place q ≠ l) :
    (fs.makeDirsDown ps).1.node? l = fs.node? l := by
  induction ps generalizing fs with
  | nil => rfl
  | cons q ps ih =>
    have hrest : ∀ q ∈ ps, fs.place q ≠ l := fun x hx ↦ h x (List.mem_cons_of_mem q hx)
    rw [makeDirsDown]
    split
    · next fs₁ hmake =>
      obtain ⟨hsite, -, rfl⟩ := makeDir_eq_ok_iff.mp hmake
      have hdown : ((fs.setNode (fs.place q) .dir).makeDirsDown ps).1.node? l =
          (fs.setNode (fs.place q) .dir).node? l := ih hrest
      rw [hdown, node?_setNode _ _ hsite.place_ne_nil, if_neg (h q List.mem_cons_self).symm]
    · split
      · exact ih hrest
      · rfl
    · rfl

theorem node?_makeDirsUp (hmissing : ∀ q ∈ missing, fs.place q ≠ l)
    (h : ∀ q ∈ ps, fs.place q ≠ l) : (fs.makeDirsUp missing ps).1.node? l = fs.node? l := by
  induction ps generalizing missing with
  | nil => exact node?_makeDirsDown hmissing
  | cons q ps ih =>
    have hq := h q List.mem_cons_self
    rw [makeDirsUp]
    split
    · next fs₁ hmake =>
      obtain ⟨hsite, -, rfl⟩ := makeDir_eq_ok_iff.mp hmake
      have hdown : ((fs.setNode (fs.place q) .dir).makeDirsDown missing).1.node? l =
          (fs.setNode (fs.place q) .dir).node? l := node?_makeDirsDown hmissing
      rw [hdown, node?_setNode _ _ hsite.place_ne_nil, if_neg hq.symm]
    · exact ih (List.forall_mem_cons.mpr ⟨hq, hmissing⟩)
        fun x hx ↦ h x (List.mem_cons_of_mem q hx)
    · split
      · exact node?_makeDirsDown hmissing
      · rfl
    · rfl

/-- Making a directory with those above it changes nothing away from their places, whether it
succeeds or not. -/
theorem node?_makeDirs (h : ∀ q ∈ ancestors p, fs.place q ≠ l) :
    (fs.makeDirs p).1.node? l = fs.node? l := by
  rw [makeDirs]
  split_ifs
  · rfl
  · exact node?_makeDirsUp (fun q hq ↦ absurd hq List.not_mem_nil) h

/-! ## What was made is there -/

theorem isDir_of_makeDir (h : fs.makeDir p = .ok fs') : fs'.isDir p := by
  have hdirs := (AddsDirs.of_makeDir h)
  obtain ⟨hsite, -, rfl⟩ := makeDir_eq_ok_iff.mp h
  have hnode := node?_setNode_self fs .dir hsite.place_ne_nil
  obtain ⟨n, hn, hfollow⟩ := hsite.site
  obtain ⟨k, hk⟩ := exists_splitSlashes_eq p
  set fs₁ := fs.setNode (fs.place p) .dir
  have hfollow₁ : fs₁.follow (fs₁.start p) ((splitLast p).1 ++ [n]) = .ok (fs.place p) :=
    follow_mono hfollow fun _ hl ↦ hdirs.node?_eq_some hl
  -- Trailing slashes stay where they are.
  have hslashes : fs₁.follow (fs.place p) (List.replicate k []) = .ok (fs.place p) := by
    refine follow_eq_ok_iff.mpr ⟨(foldl_move_replicate_nil k _).symm, fun pre piece hpre ↦ ?_⟩
    have hmem : ∀ x ∈ pre ++ [piece], x = [] := fun x hx ↦
      List.eq_of_mem_replicate (hpre.subset hx)
    have hpre' : pre = List.replicate pre.length [] :=
      List.eq_replicate_iff.mpr ⟨rfl, fun x hx ↦ hmem x (List.mem_append_left _ hx)⟩
    rw [hpre', foldl_move_replicate_nil, hmem piece (List.mem_append_right _ List.mem_cons_self)]
    exact ⟨hnode, by decide⟩
  have hall : fs₁.follow (fs₁.start p) (splitSlashes p.text) = .ok (fs.place p) := by
    rw [hk, hn, follow_append]
    exact ⟨_, hfollow₁, hslashes⟩
  rw [isDir, locate_eq_ok_iff.mpr ⟨hsite.check, hall, hnode⟩]

theorem isDir_of_makeDirsDown (h : fs.makeDirsDown ps = (fs', .ok ())) (hp : ps.getLast? = some p) :
    fs'.isDir p := by
  induction ps generalizing fs with
  | nil => cases hp
  | cons q ps ih =>
    rw [makeDirsDown] at h
    rw [List.getLast?_cons] at hp
    cases hlast : ps.getLast? with
    | none =>
      obtain rfl := List.getLast?_eq_none_iff.mp hlast
      obtain rfl : q = p := Option.some.inj hp
      split at h
      · next fs₁ hmake =>
        obtain rfl : fs₁ = fs' := (Prod.mk.inj h).1
        exact isDir_of_makeDir hmake
      · split_ifs at h with hdir
        · obtain rfl : fs = fs' := (Prod.mk.inj h).1
          exact hdir
        · cases (Prod.mk.inj h).2
      · cases (Prod.mk.inj h).2
    | some x =>
      rw [hlast, Option.getD_some] at hp
      obtain rfl := Option.some.inj hp
      split at h
      · exact ih h hlast
      · split_ifs at h
        · exact ih h hlast
        · cases (Prod.mk.inj h).2
      · cases (Prod.mk.inj h).2

/-- The directories found missing end in the one that is wanted, which is the first one that is
looked at. -/
theorem isDir_of_makeDirsUp (h : fs.makeDirsUp missing ps = (fs', .ok ()))
    (hp : missing = [] ∧ ps.head? = some p ∨ missing.getLast? = some p) : fs'.isDir p := by
  induction ps generalizing missing with
  | nil => exact isDir_of_makeDirsDown h (hp.resolve_left fun hnil ↦ by cases hnil.2)
  | cons q ps ih =>
    have hlast : (q :: missing).getLast? = some p := by
      rw [List.getLast?_cons]
      rcases hp with ⟨rfl, hhead⟩ | hlast
      · exact hhead
      · rw [hlast, Option.getD_some]
    -- Once `q` is there, the directories below it are made.
    have hdown : ∀ {fs₁ : FileSystem}, fs₁.isDir q → fs₁.makeDirsDown missing = (fs', .ok ()) →
        fs'.isDir p := by
      intro fs₁ hdir hmake
      rcases hp with ⟨rfl, hhead⟩ | hlast
      · obtain rfl : fs₁ = fs' := (Prod.mk.inj hmake).1
        exact Option.some.inj hhead ▸ hdir
      · exact isDir_of_makeDirsDown hmake hlast
    rw [makeDirsUp] at h
    split at h
    · next fs₁ hmake => exact hdown (isDir_of_makeDir hmake) h
    · exact ih h (.inr hlast)
    · split_ifs at h with hdir
      · exact hdown hdir h
      · cases (Prod.mk.inj h).2
    · cases (Prod.mk.inj h).2

/-- Between the slashes of a path without a parent nothing stands but single dots. -/
theorem eq_nil_or_dot_of_parent?_eq_none (hparent : p.parent? = none) :
    ∀ piece ∈ splitSlashes p.text, piece = [] ∨ piece = ['.'] := by
  have hpieces : (splitSlashes p.text).filterMap Component.ofPiece? = [] := by
    rw [parent?, components] at hparent
    split at hparent
    · next h => exact (List.append_eq_nil_iff.mp h).2
    · next h =>
      -- A root that stands alone is the one in front, since no piece is read as a root.
      split_ifs at h
      · exact (List.cons.inj h).2
      · cases (List.cons.inj h).1
      · have hmem : Component.root ∈ (splitSlashes p.text).filterMap Component.ofPiece? := by
          rw [List.nil_append] at h
          rw [h]
          exact List.mem_cons_self
        obtain ⟨piece, hpiece, hof⟩ := List.mem_filterMap.mp hmem
        exact absurd rfl (Component.isInner_of_ofPiece? hof (not_mem_of_mem_splitSlashes hpiece)).1
    · cases hparent
  intro piece hpiece
  have hnone := List.filterMap_eq_nil_iff.mp hpieces piece hpiece
  rw [Component.ofPiece?] at hnone
  split_ifs at hnone with h
  exact h

/-- A path without a parent is empty or leads to the root. -/
theorem follow_of_parent?_eq_none (hparent : p.parent? = none)
    (hstart : fs.node? (fs.start p) = some .dir) :
    fs.follow (fs.start p) (splitSlashes p.text) = .ok (fs.start p) := by
  have hstay := eq_nil_or_dot_of_parent?_eq_none hparent
  have hfold : ∀ pre : List Text, pre ⊆ splitSlashes p.text →
      pre.foldl move (fs.start p) = fs.start p := by
    intro pre hpre
    induction pre with
    | nil => rfl
    | cons piece pre ih =>
      obtain ⟨hpiece, hpre⟩ := List.cons_subset.mp hpre
      rw [List.foldl_cons, move, if_pos (hstay piece hpiece), ih hpre]
  refine follow_eq_ok_iff.mpr ⟨(hfold _ (List.Subset.refl _)).symm, fun pre piece hpre ↦ ?_⟩
  rw [hfold pre (List.Subset.trans (List.prefix_append pre [piece]).subset hpre.subset)]
  refine ⟨hstart, ?_⟩
  rcases hstay piece (hpre.subset (List.mem_append_right pre List.mem_cons_self)) with rfl | rfl
  · decide
  · decide

/-- **A directory that was made is there.** -/
theorem follow_of_makeDirs (h : fs.makeDirs p = (fs', .ok ()))
    (hwork : fs.node? fs.workingDirectory = some .dir) :
    ∃ loc, fs'.follow (fs'.start p) (splitSlashes p.text) = .ok loc ∧
      fs'.node? loc = some .dir := by
  rw [makeDirs] at h
  split_ifs at h with hparent
  · obtain rfl : fs = fs' := (Prod.mk.inj h).1
    have hstart : fs.node? (fs.start p) = some .dir := by
      rw [start]
      split_ifs
      · exact node?_nil fs
      · exact hwork
    exact ⟨_, follow_of_parent?_eq_none (Option.isNone_iff_eq_none.mp hparent) hstart, hstart⟩
  · have hdir : fs'.isDir p := isDir_of_makeDirsUp h (.inl ⟨rfl, rfl⟩)
    unfold isDir at hdir
    split at hdir
    · next loc hlocate =>
      obtain ⟨-, hfollow, hnode⟩ := locate_eq_ok_iff.mp hlocate
      exact ⟨loc, hfollow, hnode⟩
    · exact absurd hdir Bool.false_ne_true

/-- Only a path that can be named is made, apart from one without a parent, for which there is
nothing to make. -/
theorem checkPath_of_makeDirs (h : fs.makeDirs p = (fs', .ok ())) :
    checkPath p = .ok () ∨ p.parent? = none := by
  cases hcheck : checkPath p with
  | ok u => exact .inl rfl
  | error e =>
    rw [makeDirs] at h
    split_ifs at h with hparent
    · exact .inr (Option.isNone_iff_eq_none.mp hparent)
    · have hmake : fs.makeDir p = .error e := by
        rw [makeDir, locateParent, hcheck]
        rfl
      rw [ancestors, makeDirsUp, hmake] at h
      unfold checkPath at hcheck
      split_ifs at hcheck with hnul hempty
      · obtain rfl := Except.error.inj hcheck
        cases (Prod.mk.inj h).2
      · refine absurd ?_ hparent
        obtain ⟨t⟩ := p
        obtain rfl : t = [] := hempty
        decide
      · obtain rfl := Except.error.inj hcheck
        cases (Prod.mk.inj h).2

/-! ## Names in a directory -/

theorem splitLast_of_splitSlashes {pieces : List Text} (h : splitSlashes p.text = pieces ++ [name])
    (hname : IsName name) : splitLast p = (pieces, .name name) := by
  have hrest : (splitSlashes p.text).reverse.dropWhile (· = []) = name :: pieces.reverse := by
    rw [h, List.reverse_append, List.reverse_singleton, List.singleton_append,
      List.dropWhile_cons_of_neg (by simpa using hname.1)]
  unfold splitLast
  rw [hrest]
  simp only [List.reverse_reverse, if_neg hname.2.1, if_neg hname.2.2]

/-- The pieces in front of a name lead to the directory, with or without an empty one at the end of
its path. -/
theorem exists_follow_join (hname : name ≠ []) (hslash : '/' ∉ name)
    (hfollow : fs.follow (fs.start dir) (splitSlashes dir.text) = .ok loc) :
    ∃ pieces, splitSlashes (dir.join ⟨name⟩).text = pieces ++ [name] ∧
      fs.follow (fs.start (dir.join ⟨name⟩)) pieces = .ok loc := by
  have hrelative : (⟨name⟩ : Path).isAbsolute = false := by
    obtain ⟨d, r, rfl⟩ := List.exists_cons_of_ne_nil hname
    rw [isAbsolute, List.head?_cons]
    exact beq_false_of_ne fun heq ↦ hslash (Option.some.inj heq ▸ List.mem_cons_self)
  have hstay : ∀ {l : Location}, fs.follow l [[]] = .ok loc → l = loc := fun h ↦
    (eq_of_follow h).symm
  by_cases hdir : dir.text = []
  -- A name joined to the empty path stands alone, without a slash in front.
  · have hjoin : dir.join ⟨name⟩ = ⟨name⟩ := by
      rw [join, if_neg (by simp [hrelative]), if_pos (.inl hdir), hdir, List.nil_append]
    have hstart : fs.start (dir.join ⟨name⟩) = fs.start dir := by
      rw [hjoin, start, hrelative, start, isAbsolute, hdir]
      rfl
    rw [hdir] at hfollow
    refine ⟨[], by rw [hjoin, splitSlashes_eq_singleton hslash, List.nil_append], ?_⟩
    rw [hstart, hstay hfollow]
    rfl
  · have hstart : fs.start (dir.join ⟨name⟩) = fs.start dir := by
      rw [start, start, isAbsolute_join hrelative hdir]
    rw [hstart]
    rcases splitSlashes_join hrelative hdir with heq | ⟨pieces, hpieces, heq⟩
    · exact ⟨_, by rw [heq, splitSlashes_eq_singleton hslash], hfollow⟩
    · rw [hpieces] at hfollow
      obtain ⟨l, hl, hlast⟩ := follow_append.mp hfollow
      exact ⟨pieces, by rw [heq, splitSlashes_eq_singleton hslash], hstay hlast ▸ hl⟩

/-- Where a directory is, every name in it is the site of a file. -/
theorem hasSite_join (hname : IsName name) (hslash : '/' ∉ name)
    (hshort : utf8Length name ≤ maxNameBytes) (hcheck : checkPath (dir.join ⟨name⟩) = .ok ())
    (hfollow : fs.follow (fs.start dir) (splitSlashes dir.text) = .ok loc)
    (hnode : fs.node? loc = some .dir) : fs.HasSite (dir.join ⟨name⟩) := by
  have hstep : fs.follow loc [name] = .ok (loc ++ [name]) := by
    rw [follow_cons, step_eq_ok_iff.mpr ⟨hnode, hshort, (move_name hname loc).symm⟩]
    rfl
  obtain ⟨pieces, hpieces, hreach⟩ := exists_follow_join hname.1 hslash hfollow
  have hlast := splitLast_of_splitSlashes hpieces hname
  refine ⟨hcheck, name, by rw [hlast], ?_⟩
  rw [hlast, place, hpieces, List.foldl_append, ← eq_of_follow hreach]
  exact follow_append.mpr ⟨loc, hreach, by rw [hstep, List.foldl_cons, move_name hname]; rfl⟩

/-! ## Files at a site -/

/-- Where a path names a place, it leads to the file there. -/
theorem HasSite.fileAt?_eq (h : fs.HasSite p) (hslash : p.text.getLast? ≠ some '/') :
    fs.fileAt? p = match fs.node? (fs.place p) with
      | some (.file c) => some c
      | _ => none := by
  cases hnode : fs.node? (fs.place p) with
  | none =>
    refine Option.eq_none_iff_forall_ne_some.mpr fun c hc ↦ ?_
    rw [locate_place (fileAt?_eq_some_iff.mp hc)] at hnode
    cases hnode
  | some n =>
    rw [fileAt?, h.locate_eq hslash hnode]
    cases n <;> rfl

theorem removeFile_eq_bind (fs : FileSystem) (p : Path) :
    fs.removeFile p = fs.locate p >>= fun d ↦
      match d with
      | (_, .dir) => .error .isADirectory
      | (loc, .file _) => .ok (fs.removeWhere (· = loc)) := rfl

theorem removeFile_eq_ok_iff :
    fs.removeFile p = .ok fs' ↔
      ∃ l c, fs.locate p = .ok (l, .file c) ∧ fs' = fs.removeWhere (· = l) := by
  rw [removeFile_eq_bind, bind_eq_ok_iff]
  constructor
  · rintro ⟨⟨l, n⟩, hlocate, h⟩
    cases n with
    | dir => cases h
    | file c => exact ⟨l, c, hlocate, (Except.ok.inj h).symm⟩
  · rintro ⟨l, c, hlocate, rfl⟩
    exact ⟨(l, .file c), hlocate, rfl⟩

/-- Removing a file takes no directory away. -/
theorem node?_eq_dir_of_removeFile (h : fs.removeFile p = .ok fs') :
    fs'.node? l = some .dir ↔ fs.node? l = some .dir := by
  obtain ⟨loc, c, hlocate, rfl⟩ := removeFile_eq_ok_iff.mp h
  by_cases hl : l = loc
  · subst hl
    have hnode := (locate_eq_ok_iff.mp hlocate).2.2
    have hne : l ≠ [] := fun hnil ↦ by
      rw [hnil, node?_nil] at hnode
      cases hnode
    rw [node?_removeWhere _ _ hne, if_pos (decide_eq_true rfl), hnode]
    simp
  · rw [node?_removeWhere_of_not (decide_eq_false hl)]

theorem workingDirectory_of_removeFile (h : fs.removeFile p = .ok fs') :
    fs'.workingDirectory = fs.workingDirectory := by
  obtain ⟨l, c, -, rfl⟩ := removeFile_eq_ok_iff.mp h
  rfl

end PluginPack.FileSystem
