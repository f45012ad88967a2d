import PluginPack.Proofs.FileSystem.Location
import PluginPack.Proofs.Scaffold.Frame

/-!
# Where a project is made

A project whose directory is given by a relative path is made in the working directory or below, and
whatever is removed again is removed there. Steps up are only let through at the end of a path. Such
a step takes back a name that stands before it, and then leads no further than the working
directory; where no name stands before it, it leads to the directory above, which is there, so that
nothing is made at all.
-/

namespace PluginPack

open Text PluginPack.Path FileSystem

variable {fs : FileSystem} {W l : Location} {pieces init rest : List Text} {n : Text} {p q : Path}
  {cs : List Component}

/-! ## Ways that keep to a place -/

namespace FileSystem

/-- Wherever one stops on the way along some pieces, one is at the place or below. -/
def Keeps (W : Location) (pieces : List Text) : Prop :=
  ∀ pre, pre <+: pieces → W <+: pre.foldl move W

theorem keeps_of_not_mem (h : ['.', '.'] ∉ pieces) (W : Location) : Keeps W pieces :=
  fun _ hpre ↦ prefix_foldl_move (fun hmem ↦ h (hpre.subset hmem)) W

/-- Behind a name there is a step to take back. -/
theorem prefix_dropLast_foldl_move (h : ['.', '.'] ∉ init) (hn : IsName n) (hmem : n ∈ init)
    (W : Location) : W <+: (init.foldl move W).dropLast := by
  obtain ⟨before, behind, rfl⟩ := List.append_of_mem hmem
  have hbefore : ['.', '.'] ∉ before := fun hup ↦ h (List.mem_append_left _ hup)
  have hbehind : ['.', '.'] ∉ behind := fun hup ↦
    h (List.mem_append_right _ (List.mem_cons_of_mem _ hup))
  obtain ⟨x, hx⟩ := prefix_foldl_move hbefore W
  obtain ⟨y, hy⟩ := prefix_foldl_move hbehind (W ++ x ++ [n])
  rw [List.foldl_append, List.foldl_cons, ← hx, move_name hn, ← hy, List.append_assoc,
    List.append_assoc, List.dropLast_append_of_ne_nil (by simp)]
  exact List.prefix_append _ _

/-- A step up behind a name keeps to the place. -/
theorem keeps_up (h : ['.', '.'] ∉ init) (hn : IsName n) (hmem : n ∈ init)
    (hrest : ['.', '.'] ∉ rest) (W : Location) : Keeps W (init ++ ['.', '.'] :: rest) := by
  intro pre hpre
  rcases List.prefix_or_prefix_of_prefix hpre (List.prefix_append init _) with hinit | ⟨x, rfl⟩
  · exact keeps_of_not_mem h W pre hinit
  · rcases x with _ | ⟨piece, x⟩
    · rw [List.append_nil]
      exact prefix_foldl_move h W
    · rw [List.prefix_append_right_inj] at hpre
      obtain ⟨rfl, hx⟩ := List.cons_prefix_cons.mp hpre
      rw [List.foldl_append, List.foldl_cons]
      exact (prefix_dropLast_foldl_move h hn hmem W).trans
        (prefix_foldl_move (fun hup ↦ hrest (hx.subset hup)) _)

/-! ## Paths above a path -/

/-- Components without a root lead where their path leads. -/
theorem place_ofComponents (h : ∀ c ∈ cs, c = .here ∨ c.IsStep) (hne : cs ≠ []) :
    fs.place (ofComponents cs) = cs.foldl Component.move fs.workingDirectory := by
  have htext : (ofComponents cs).text = List.intercalate ['/'] (cs.map Component.text) := by
    unfold ofComponents
    split
    · rcases h _ List.mem_cons_self with hroot | hstep
      · cases hroot
      · exact absurd rfl hstep.1
    · rfl
  have hslash : ∀ piece ∈ cs.map Component.text, '/' ∉ piece := by
    intro piece hpiece
    obtain ⟨c, hc, rfl⟩ := List.mem_map.mp hpiece
    rcases h c hc with rfl | hstep
    · decide
    · exact hstep.not_mem_text
  have hpieces : splitSlashes (ofComponents cs).text = cs.map Component.text := by
    rw [htext, splitSlashes_intercalate (mt List.map_eq_nil_iff.mp hne) hslash]
  have hmove : ∀ c ∈ cs, c.text ≠ [] ∧ ∀ loc, move loc c.text = c.move loc := by
    intro c hc
    rcases h c hc with rfl | hstep
    · exact ⟨by decide, fun _ ↦ rfl⟩
    · have hof := hstep.ofPiece?_text
      refine ⟨fun hnil ↦ ?_, fun loc ↦ ?_⟩
      · rw [hnil] at hof
        cases hof
      · have hfold := foldl_move_filterMap [c.text] loc
        rw [List.filterMap_cons_some hof] at hfold
        exact hfold.symm
  have hrelative : (ofComponents cs).isAbsolute = false := by
    refine Bool.eq_false_iff.mpr fun habsolute ↦ ?_
    obtain ⟨pieces, -, hcons⟩ := (isAbsolute_iff_of_splitSlashes _).mp habsolute
    obtain ⟨c, cs, rfl⟩ := List.exists_cons_of_ne_nil hne
    rw [hpieces, List.map_cons] at hcons
    exact (hmove c List.mem_cons_self).1 (List.cons.inj hcons).1
  rw [place, start, hrelative, hpieces, List.foldl_map]
  exact List.foldl_ext _ _ _ fun loc c hc ↦ (hmove c hc).2 loc

/-- The first components of a relative path lead where some of its first pieces lead. -/
theorem exists_foldl_move_eq (hp : p.isAbsolute = false) (h : cs <+: p.components)
    (loc : Location) : ∃ pre, pre <+: splitSlashes p.text ∧
      cs.foldl Component.move loc = pre.foldl move loc := by
  have hpieces : ∀ cs, cs <+: (splitSlashes p.text).filterMap Component.ofPiece? →
      ∃ pre, pre <+: splitSlashes p.text ∧
        cs.foldl Component.move loc = pre.foldl move loc := by
    intro cs hcs
    obtain ⟨pre, hpre, rfl⟩ := List.prefix_filterMap_iff.mp hcs
    exact ⟨pre, hpre, foldl_move_filterMap pre loc⟩
  rw [components, hp, if_neg Bool.false_ne_true] at h
  split_ifs at h
  · rcases cs with _ | ⟨c, cs⟩
    · exact ⟨[], List.nil_prefix, rfl⟩
    · -- The dot in front of the path is a component of its own, but leads nowhere.
      obtain ⟨rfl, hcs⟩ := List.cons_prefix_cons.mp h
      exact hpieces cs hcs
  · exact hpieces cs h

/-- What is above a relative path that keeps to the working directory is not outside. -/
theorem prefix_place_of_mem_ancestors (hp : p.isAbsolute = false)
    (h : Keeps fs.workingDirectory (splitSlashes p.text)) (hq : q ∈ ancestors p) :
    fs.workingDirectory <+: fs.place q := by
  have hstart : fs.start p = fs.workingDirectory := by
    rw [start, hp]
    rfl
  rw [ancestors, List.mem_cons] at hq
  rcases hq with rfl | hq
  · rw [place, hstart]
    exact h _ (List.prefix_refl _)
  · -- Above the path are the paths of its first components, which are its first pieces.
    obtain ⟨c, hc, rfl⟩ := List.mem_map.mp hq
    obtain ⟨hmem, hne⟩ := List.mem_filter.mp hc
    obtain ⟨k, -, rfl⟩ := List.mem_map.mp hmem
    have hsteps : ∀ c ∈ p.components.take k, c = .here ∨ c.IsStep := by
      intro c hc
      have hc := List.mem_of_mem_take hc
      rw [components, hp, if_neg Bool.false_ne_true, List.mem_append] at hc
      rcases hc with hc | hc
      · split_ifs at hc
        · exact .inl (List.mem_singleton.mp hc)
        · cases hc
      · exact .inr (isStep_of_mem_pieces hc)
    obtain ⟨pre, hpre, heq⟩ :=
      exists_foldl_move_eq hp (List.take_prefix k p.components) fs.workingDirectory
    rw [place_ofComponents hsteps (of_decide_eq_true hne).1, heq]
    exact h pre hpre

end FileSystem

/-! ## The target -/

namespace Scaffold

variable {o : Options} {c : Console} {d t : Text} {target : Path}

/-- A directory as it is looked at: with slashes in the place of backslashes. -/
def slashed (d : Text) : Text := d.map fun c ↦ if c = '\\' then '/' else c

theorem eq_slashed_of_validatePath (h : validatePath d = .ok t) : t = slashed d := by
  rw [validatePath] at h
  split_ifs at h
  exact (Except.ok.inj h).symm

/-- Where a relative path that is let through goes up behind no name, it leads to a directory. -/
theorem locate_ne_notFound (htree : fs.IsTree) (hrelative : p.isAbsolute = false)
    (hpieces : splitSlashes p.text = init ++ [['.', '.']])
    (hinit : ∀ piece ∈ init, ¬IsName piece) (hup : ['.', '.'] ∉ init) :
    fs.locate p ≠ .error .notFound := by
  intro hmissing
  have hne : p.text ≠ [] := by
    intro hnil
    rw [hnil] at hpieces
    have hlast := congrArg List.getLast? hpieces
    simp [splitSlashes] at hlast
  have hstart : fs.start p = fs.workingDirectory := by
    rw [start, hrelative]
    rfl
  have hstay : ∀ pre, pre <+: init → pre.foldl move fs.workingDirectory = fs.workingDirectory := by
    intro pre hpre
    induction pre using List.reverseRecOn with
    | nil => rfl
    | append_singleton pre piece ih =>
      have hmem : piece ∈ init := hpre.subset (List.mem_append_right pre List.mem_cons_self)
      have hdot : piece = [] ∨ piece = ['.'] := by
        by_contra hne
        obtain ⟨hnil, hhere⟩ := not_or.mp hne
        exact hinit piece hmem ⟨hnil, hhere, fun heq ↦ hup (heq ▸ hmem)⟩
      rw [List.foldl_append, ih ((List.prefix_append pre [piece]).trans hpre)]
      exact if_pos hdot
  obtain ⟨pre, hpre, hnone⟩ := exists_missing_of_notFound hmissing hne
  rw [hstart] at hnone
  rw [hpieces, List.prefix_concat_iff] at hpre
  rcases hpre with rfl | hpre
  · rw [List.foldl_append, hstay init (List.prefix_refl init)] at hnone
    cases hnone.symm.trans (htree.node?_dropLast htree.working)
  · rw [hstay pre hpre] at hnone
    cases hnone.symm.trans htree.working

/-- A relative target that is missing keeps to the working directory, and so does what is joined to
it. -/
theorem keeps_of_missing (htree : fs.IsTree) (hvalid : validatePath d = .ok t)
    (hrelative : (⟨t⟩ : Path).isAbsolute = false) (hmissing : fs.locate ⟨t⟩ = .error .notFound)
    (hrest : ['.', '.'] ∉ rest) : Keeps fs.workingDirectory (splitSlashes t ++ rest) := by
  by_cases hup : ['.', '.'] ∈ splitSlashes t
  · rcases List.eq_nil_or_concat (splitSlashes t) with hnil | ⟨init, last, hlast⟩
    · exact absurd hnil (splitSlashes_ne_nil t)
    · rw [List.concat_eq_append] at hlast
      have hinit := up_not_mem_of_validatePath hvalid hlast
      obtain rfl : last = ['.', '.'] := by
        rw [hlast] at hup
        exact (List.mem_singleton.mp ((List.mem_append.mp hup).resolve_left hinit)).symm
      rw [hlast, List.append_assoc, List.singleton_append]
      by_cases hname : ∃ n ∈ init, IsName n
      · obtain ⟨n, hmem, hn⟩ := hname
        exact keeps_up hinit hn hmem hrest _
      · exact absurd hmissing (locate_ne_notFound htree hrelative hlast
          (fun n hmem hn ↦ hname ⟨n, hmem, hn⟩) hinit)
  · exact keeps_of_not_mem (fun hmem ↦ (List.mem_append.mp hmem).elim hup hrest) _

theorem keeps_join_of_missing (htree : fs.IsTree) (hvalid : validatePath d = .ok t)
    (hrelative : (⟨t⟩ : Path).isAbsolute = false) (hmissing : fs.locate ⟨t⟩ = .error .notFound)
    (hp : p.isAbsolute = false) (hup : ['.', '.'] ∉ splitSlashes p.text) :
    Keeps fs.workingDirectory (splitSlashes ((⟨t⟩ : Path).join p).text) := by
  by_cases hdir : t = []
  · have hjoin : (⟨t⟩ : Path).join p = p := by
      rw [join, if_neg (by simp [hp]), if_pos (.inl hdir), hdir, List.nil_append]
    rw [hjoin]
    exact keeps_of_not_mem hup _
  · rcases splitSlashes_join hp hdir with heq | ⟨pieces, hpieces, heq⟩
    · rw [heq]
      exact keeps_of_missing htree hvalid hrelative hmissing hup
    · -- The path ends in a slash, so that no step up can stand in it.
      have hinit := up_not_mem_of_validatePath hvalid hpieces
      rw [heq]
      exact keeps_of_not_mem (fun hmem ↦ (List.mem_append.mp hmem).elim hinit hup) _

/-- A missing relative target is in the working directory. -/
theorem prefix_place_of_missing (htree : fs.IsTree) (hvalid : validatePath d = .ok t)
    (hrelative : (⟨t⟩ : Path).isAbsolute = false) (hmissing : fs.locate ⟨t⟩ = .error .notFound) :
    fs.workingDirectory <+: fs.place ⟨t⟩ := by
  have hkeeps := keeps_of_missing htree hvalid hrelative hmissing List.not_mem_nil
  rw [place, start, hrelative, ← List.append_nil (splitSlashes t)]
  exact hkeeps _ (List.prefix_refl _)

/-! ## Making a project -/

namespace Confines

theorem writeProject (htree : c.files.IsTree) (hvalid : validatePath o.directory = .ok t)
    (hrelative : (⟨t⟩ : Path).isAbsolute = false)
    (hmissing : c.files.locate ⟨t⟩ = .error .notFound) :
    Confines c.files.workingDirectory c (writeProject c ⟨t⟩ o).1 := by
  have hsource : (⟨"src".toList⟩ : Path).isAbsolute = false := by decide
  have hjoin : ((⟨t⟩ : Path).join ⟨"src".toList⟩).isAbsolute = false := by
    by_cases hdir : t = []
    · rw [join, if_neg (by rw [hsource]; exact Bool.false_ne_true), if_pos (.inl hdir), hdir]
      rfl
    · rw [isAbsolute_join hsource hdir, hrelative]
  have hkeeps := keeps_join_of_missing htree hvalid hrelative hmissing hsource (by decide)
  have hdirs : Confines c.files.workingDirectory c (withDirs c ⟨t⟩) := by
    refine .of_files (addsDirs_makeDirs _ _).working fun l hl ↦ node?_makeDirs fun q hq ↦ ?_
    rintro rfl
    exact hl (prefix_place_of_mem_ancestors hjoin hkeeps hq)
  have htarget := prefix_place_of_missing htree hvalid hrelative hmissing
  refine writeProject_induction hdirs fun d hd f hf fs hwrite ↦ hd.trans (.withFile hwrite ?_ _)
  rw [← place_congr hd.working] at htarget
  exact htarget.trans (prefix_place_of_mem_files d.files hf)

/-- A run keeps to the working directory, whether it succeeds or cleans up. -/
theorem run (htree : c.files.IsTree)
    (hrelative : (⟨slashed o.directory⟩ : Path).isAbsolute = false) :
    Confines c.files.workingDirectory c (run c o).1 := by
  rcases run_cases c o with heq | ⟨t, hvalid, hmissing, hrun⟩
  · rw [heq]
    exact .refl _ c
  rw [← eq_slashed_of_validatePath hvalid] at hrelative
  have hwrite := writeProject (o := o) htree hvalid hrelative hmissing
  rcases hrun with ⟨heq, -⟩ | heq
  · rwa [heq]
  · have htarget := prefix_place_of_missing htree hvalid hrelative hmissing
    rw [← place_congr hwrite.working] at htarget
    rw [heq]
    exact hwrite.trans ((cleanUp _ ⟨t⟩).mono htarget)

end Confines

/-- **A project stays inside the working directory.** When the directory of a project is a relative
path, then nothing is made, changed or removed outside the working directory, whether the project is
made, is refused, or is begun and taken away again. Only the log of the program, where there is one,
may stand outside and grow. -/
theorem run_stays_inside (o : Options) (htree : c.files.IsTree)
    (hrelative : (⟨slashed o.directory⟩ : Path).isAbsolute = false)
    (hl : ¬c.files.workingDirectory <+: l) :
    (c.logFile = none → (run c o).1.files.node? l = c.files.node? l) ∧
      ((run c o).1.files.node? l = c.files.node? l ∨
        c.logPlace? = some l ∧ ∃ x t,
          (c.files.node? l = some (.file x) ∨ c.files.node? l = none ∧ x = .text []) ∧
            (run c o).1.files.node? l = some (.file (x.append t))) := by
  have hnode := (Confines.run htree hrelative).node l hl
  refine ⟨fun hlog ↦ hnode.resolve_right fun hplace ↦ ?_, hnode⟩
  rw [Console.logPlace?, hlog] at hplace
  cases hplace.1

/-- A working directory beside another one, which has a file of the same name. -/
def neighbours : Console where
  files :=
    { nodes :=
        [(["v".toList], .dir), (["v".toList, "package.toml".toList], .file (.text "v".toList)),
          (["w".toList], .dir), (["w".toList, "package.toml".toList], .file (.text "w".toList))]
      workingDirectory := ["w".toList] }
  stamp := []
  logFile := none
  verbosity := 0
  output := []
  errors := []

/-- The same directories, with a log beside the neighbour's file. -/
def logged : Console := { neighbours with logFile := some ⟨"/v/log".toList⟩ }

/-- A step up at the end of the directory does not lead to the neighbour, where the log alone is
made. -/
theorem run_stays_inside_logged :
    (logged.files.IsTree ∧ (⟨slashed "a\\..".toList⟩ : Path).isAbsolute = false ∧
      ¬logged.files.workingDirectory <+: ["v".toList, "package.toml".toList] ∧
      ¬logged.files.workingDirectory <+: ["v".toList, "log".toList]) ∧
      (run logged (optionsIn "a\\..")).1.files.node? ["v".toList, "package.toml".toList] =
        some (.file (.text "v".toList)) ∧
      ∀ n, (run logged (optionsIn "a\\..")).1.files.node? ["v".toList, "log".toList] = some n →
        ∃ t, n = .file (.text t) := by
  have htree : logged.files.IsTree := by decide
  have hrelative : (⟨slashed "a\\..".toList⟩ : Path).isAbsolute = false := by decide
  have hother : ¬logged.files.workingDirectory <+: ["v".toList, "package.toml".toList] := by
    decide
  have hlog : ¬logged.files.workingDirectory <+: ["v".toList, "log".toList] := by decide
  have hmanifest : logged.files.node? ["v".toList, "package.toml".toList] =
      some (.file (.text "v".toList)) := by decide
  have hmissing : logged.files.node? ["v".toList, "log".toList] = none := by decide
  refine ⟨⟨htree, hrelative, hother, hlog⟩, ?_, fun n hn ↦ ?_⟩
  · rcases (run_stays_inside (optionsIn "a\\..") htree hrelative hother).2 with hsame | ⟨hplace, -⟩
    · rw [hsame, hmanifest]
    · exact absurd hplace (by decide)
  · rcases (run_stays_inside (optionsIn "a\\..") htree hrelative hlog).2 with
      hsame | ⟨-, x, t, hx | ⟨-, rfl⟩, hgrown⟩
    · rw [hsame, hmissing] at hn
      cases hn
    · rw [hmissing] at hx
      cases hx
    · rw [hgrown] at hn
      exact ⟨[] ++ t, (Option.some.inj hn).symm⟩

/-- A log outside the working directory is made by the first message of a run. -/
theorem not_forall_unchanged :
    ¬∀ (c : Console) (o : Options) (l : Location), c.files.IsTree →
      (⟨slashed o.directory⟩ : Path).isAbsolute = false → ¬c.files.workingDirectory <+: l →
        (run c o).1.files.node? l = c.files.node? l := by
  intro h
  have hsame := h logged (optionsIn "p") ["v".toList, "log".toList] (by decide) (by decide)
    (by decide)
  exact absurd hsame (by decide +kernel)

end Scaffold

end PluginPack
