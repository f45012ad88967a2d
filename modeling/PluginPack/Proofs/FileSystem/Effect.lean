import PluginPack.Proofs.Bundle.Visit
import PluginPack.Proofs.FileSystem.Place

/-!
# What operations change

Each operation changes the place of its path and nothing else: writing a file puts a file there,
making a directory puts a directory where there was nothing, and removing a directory takes away
what stands at its place or below. Making a directory with those above it only adds directories,
also when it fails half-way.
-/

namespace PluginPack

/-! ## Contents -/

theorem toList_loop_eq_append_drop (b : ByteArray) (i : Nat) (r : List UInt8) :
    ByteArray.toList.loop b i r = r.reverse ++ b.data.toList.drop i := by
  rw [ByteArray.toList.loop]
  split_ifs with hi
  · have hlt : i < b.data.toList.length := hi
    have hget : b.get! i = b.data.toList[i] := by
      show b.data[i]! = _
      rw [getElem!_pos b.data i hi, Array.getElem_toList]
    rw [toList_loop_eq_append_drop b (i + 1), List.drop_eq_getElem_cons hlt, hget,
      List.reverse_cons, List.append_assoc, List.singleton_append]
  · rw [List.drop_eq_nil_of_le (Nat.not_lt.mp hi), List.append_nil]
termination_by b.size - i

/-- Texts written behind a content one after the other are one text. -/
theorem Content.append_append (x : Content) (t s : Text) :
    (x.append t).append s = x.append (t ++ s) := by
  cases x with
  | text u => rw [append, append, append, List.append_assoc]
  | bytes b =>
    have hdata : ∀ b : ByteArray, b.toList = b.data.toList :=
      fun b ↦ toList_loop_eq_append_drop b 0 []
    have hutf8 : (String.ofList (t ++ s)).toUTF8.toList =
        (String.ofList t).toUTF8.toList ++ (String.ofList s).toUTF8.toList := by
      rw [String.ofList_append]
      simp [hdata, String.toUTF8]
    rw [append, append, append, hutf8, List.append_assoc]

theorem Content.append_nil (x : Content) : x.append [] = x := by
  cases x with
  | text u => rw [append, List.append_nil]
  | bytes b =>
    have hnil : (String.ofList []).toUTF8.toList = [] := toList_loop_eq_append_drop _ 0 []
    rw [append, hnil, List.append_nil]

namespace FileSystem

open Text PluginPack.Path PluginPack.Bundle

variable {fs fs' fs₁ fs₂ : FileSystem} {l loc : Location} {n : Node} {p : Path} {ps : List Path}
  {c : Content} {last : LastPiece} {e : FileError}

/-! ## The last piece of a path -/

/-- The pieces that a last piece is written with, without trailing slashes. -/
def LastPiece.pieces : LastPiece → List Text
  | .root => []
  | .here => [['.']]
  | .up => [['.', '.']]
  | .name n => [n]

/-- The pieces of a path end in empty ones, one for each trailing slash. -/
theorem exists_splitSlashes_eq_append_replicate (p : Path) :
    ∃ k, splitSlashes p.text =
      ((splitSlashes p.text).reverse.dropWhile (· = [])).reverse ++ List.replicate k [] := by
  have hall : ∀ x ∈ (splitSlashes p.text).reverse.takeWhile (· = []), x = [] := fun x hx ↦
    of_decide_eq_true (List.all_eq_true.mp List.all_takeWhile x hx)
  refine ⟨((splitSlashes p.text).reverse.takeWhile (· = [])).length, ?_⟩
  rw [← List.reverse_replicate, ← List.eq_replicate_iff.mpr ⟨rfl, hall⟩, ← List.reverse_append,
    List.takeWhile_append_dropWhile, List.reverse_reverse]

/-- A path is written with its last piece behind the others, up to trailing slashes. -/
theorem exists_splitSlashes_eq (p : Path) :
    ∃ k, splitSlashes p.text =
      (splitLast p).1 ++ (splitLast p).2.pieces ++ List.replicate k [] := by
  obtain ⟨k, hk⟩ := exists_splitSlashes_eq_append_replicate p
  refine ⟨k, hk.trans (congrArg (· ++ List.replicate k []) ?_)⟩
  unfold splitLast
  cases (splitSlashes p.text).reverse.dropWhile (· = []) with
  | nil => rfl
  | cons piece rest =>
    rw [List.reverse_cons]
    by_cases hhere : piece = ['.']
    · simp [hhere, LastPiece.pieces]
    · by_cases hup : piece = ['.', '.']
      · simp [hup, LastPiece.pieces]
      · simp [hhere, hup, LastPiece.pieces]

theorem isName_of_splitLast {n : Text} (h : (splitLast p).2 = .name n) : IsName n := by
  unfold splitLast at h
  have hhead : ∀ piece rest, (splitSlashes p.text).reverse.dropWhile (· = []) =
      piece :: rest → piece ≠ [] := fun piece rest heq hnil ↦ by
    have := List.head?_dropWhile_not (· = []) (splitSlashes p.text).reverse
    rw [heq] at this
    simp [hnil] at this
  cases hrest : (splitSlashes p.text).reverse.dropWhile (· = []) with
  | nil =>
    rw [hrest] at h
    exact absurd h nofun
  | cons piece rest =>
    rw [hrest] at h
    by_cases hhere : piece = ['.']
    · simp [hhere] at h
    · by_cases hup : piece = ['.', '.']
      · simp [hup] at h
      · obtain rfl : piece = n := by simpa [hhere, hup] using h
        exact ⟨hhead piece rest hrest, hhere, hup⟩

/-- A path that names its last piece leads to a place below the one that the pieces before it lead
to. -/
theorem place_eq_concat {n : Text} (h : (splitLast p).2 = .name n) :
    fs.place p = (splitLast p).1.foldl move (fs.start p) ++ [n] := by
  obtain ⟨k, hk⟩ := exists_splitSlashes_eq p
  rw [place, hk, h, List.foldl_append, foldl_move_replicate_nil, List.foldl_append]
  exact move_name (isName_of_splitLast h) _

/-! ## Following in a larger file system -/

theorem follow_mono {pieces : List Text} (h : fs.follow loc pieces = .ok l)
    (hdirs : ∀ l, fs.node? l = some .dir → fs'.node? l = some .dir) :
    fs'.follow loc pieces = .ok l := by
  obtain ⟨rfl, hway⟩ := follow_eq_ok_iff.mp h
  exact follow_eq_ok_iff.mpr ⟨rfl, fun pre piece hpre ↦
    ⟨hdirs _ (hway pre piece hpre).1, (hway pre piece hpre).2⟩⟩

theorem follow_append {xs ys : List Text} :
    fs.follow loc (xs ++ ys) = .ok l ↔
      ∃ l', fs.follow loc xs = .ok l' ∧ fs.follow l' ys = .ok l := by
  rw [follow, List.foldlM_append]
  exact bind_eq_ok_iff

/-- A path that leads to a node goes on doing so while no directory is lost and the node stays. -/
theorem locate_mono (h : fs.locate p = .ok (l, n))
    (hwork : fs'.workingDirectory = fs.workingDirectory)
    (hdirs : ∀ l, fs.node? l = some .dir → fs'.node? l = some .dir)
    (hnode : fs'.node? l = some n) : fs'.locate p = .ok (l, n) := by
  obtain ⟨hcheck, hfollow, -⟩ := locate_eq_ok_iff.mp h
  rw [← start_congr hwork] at hfollow
  exact locate_eq_ok_iff.mpr ⟨hcheck, follow_mono hfollow hdirs, hnode⟩

/-! ## Sites -/

theorem locateParent_eq_ok_iff :
    fs.locateParent p = .ok (loc, last) ↔
      checkPath p = .ok () ∧ fs.follow (fs.start p) (splitLast p).1 = .ok loc ∧
        fs.node? loc = some .dir ∧ last = (splitLast p).2 := by
  unfold locateParent
  cases hcheck : checkPath p with
  | error e => simp [bind, Except.bind]
  | ok u =>
    cases hfollow : fs.follow (fs.start p) (splitLast p).1 with
    | error e => simp [bind, Except.bind, hfollow]
    | ok loc' =>
      cases hnode : fs.node? loc' with
      | none =>
        simp only [bind, Except.bind, hfollow, hnode, reduceCtorEq, Except.ok.injEq, true_and,
          false_iff, not_and]
        rintro rfl hdir
        rw [hnode] at hdir
        exact absurd hdir nofun
      | some m =>
        cases m with
        | file c =>
          simp only [bind, Except.bind, hfollow, hnode, reduceCtorEq, Except.ok.injEq, true_and,
            false_iff, not_and]
          rintro rfl hdir
          rw [hnode] at hdir
          exact absurd hdir nofun
        | dir =>
          simp only [bind, Except.bind, hfollow, hnode, Except.ok.injEq, Prod.mk.injEq, true_and]
          constructor
          · rintro ⟨rfl, rfl⟩
            exact ⟨rfl, hnode, rfl⟩
          · rintro ⟨rfl, -, rfl⟩
            exact ⟨rfl, rfl⟩

/-- The path names a place in a directory that exists, whether or not anything stands there. -/
structure HasSite (fs : FileSystem) (p : Path) : Prop where
  check : checkPath p = .ok ()
  site : ∃ n, (splitLast p).2 = .name n ∧
    fs.follow (fs.start p) ((splitLast p).1 ++ [n]) = .ok (fs.place p)

namespace HasSite

theorem exists_place_eq (h : fs.HasSite p) :
    ∃ loc n, IsName n ∧ fs.place p = loc ++ [n] ∧ fs.node? loc = some .dir := by
  obtain ⟨n, hn, hfollow⟩ := h.site
  obtain ⟨-, hway⟩ := follow_eq_ok_iff.mp hfollow
  exact ⟨_, n, isName_of_splitLast hn, place_eq_concat hn, (hway _ n (List.prefix_refl _)).1⟩

theorem place_ne_nil (h : fs.HasSite p) : fs.place p ≠ [] := by
  obtain ⟨loc, n, -, heq, -⟩ := h.exists_place_eq
  rw [heq]
  exact List.concat_ne_nil n loc

theorem mono (h : fs.HasSite p) (hwork : fs'.workingDirectory = fs.workingDirectory)
    (hdirs : ∀ l, fs.node? l = some .dir → fs'.node? l = some .dir) : fs'.HasSite p where
  check := h.check
  site := by
    obtain ⟨n, hn, hfollow⟩ := h.site
    rw [start_congr hwork, place_congr hwork]
    exact ⟨n, hn, follow_mono hfollow hdirs⟩

/-- A path without a trailing slash leads to what stands at its site. -/
theorem locate_eq (h : fs.HasSite p) (hslash : p.text.getLast? ≠ some '/')
    (hn : fs.node? (fs.place p) = some n) : fs.locate p = .ok (fs.place p, n) := by
  obtain ⟨name, hlast, hfollow⟩ := h.site
  obtain ⟨k, hk⟩ := exists_splitSlashes_eq p
  have hpieces : splitSlashes p.text = (splitLast p).1 ++ [name] := by
    cases k with
    | zero => rw [hk, hlast, List.replicate_zero, List.append_nil, LastPiece.pieces]
    | succ k =>
      rw [List.replicate_succ', ← List.append_assoc, hlast] at hk
      refine absurd (getLast?_of_splitSlashes_eq hk ?_) hslash
      simp [LastPiece.pieces]
  rw [← hpieces] at hfollow
  exact locate_eq_ok_iff.mpr ⟨h.check, hfollow, hn⟩

end HasSite

/-- An operation that begins at the site of its path. -/
theorem site_bind_eq_ok_iff {α : Type} {g : Location → Except FileError α} {a : α} :
    (fs.locateParent p >>= fun d ↦
      match d.2 with
      | .name n => fs.step d.1 n >>= g
      | _ => .error e) = .ok a ↔ fs.HasSite p ∧ g (fs.place p) = .ok a := by
  rw [bind_eq_ok_iff]
  constructor
  · rintro ⟨⟨loc, last⟩, hparent, h⟩
    obtain ⟨hcheck, hfollow, hdir, rfl⟩ := locateParent_eq_ok_iff.mp hparent
    cases hlast : (splitLast p).2 with
    | name n =>
      simp only [hlast] at h
      obtain ⟨loc', hstep, hg⟩ := bind_eq_ok_iff.mp h
      have hsite : fs.follow (fs.start p) ((splitLast p).1 ++ [n]) = .ok loc' :=
        follow_append.mpr ⟨loc, hfollow, by rw [follow_cons, hstep]; rfl⟩
      obtain rfl : loc' = fs.place p := by
        rw [eq_of_follow hsite, place_eq_concat hlast, List.foldl_append]
        exact move_name (isName_of_splitLast hlast) _
      exact ⟨⟨hcheck, n, hlast, hsite⟩, hg⟩
    | root =>
      simp only [hlast] at h
      exact absurd h nofun
    | here =>
      simp only [hlast] at h
      exact absurd h nofun
    | up =>
      simp only [hlast] at h
      exact absurd h nofun
  · rintro ⟨⟨hcheck, n, hlast, hsite⟩, hg⟩
    obtain ⟨loc, hfollow, hstep⟩ := follow_append.mp hsite
    have hstep' : fs.step loc n = .ok (fs.place p) := by
      obtain ⟨loc', hloc', h⟩ := bind_eq_ok_iff.mp hstep
      rw [hloc', Except.ok.inj h]
    refine ⟨(loc, (splitLast p).2), locateParent_eq_ok_iff.mpr
      ⟨hcheck, hfollow, (step_eq_ok_iff.mp hstep').1, rfl⟩, ?_⟩
    simp only [hlast]
    exact bind_eq_ok_iff.mpr ⟨fs.place p, hstep', hg⟩

/-! ## Writing a file -/

theorem writeFile_eq_ok_iff :
    fs.writeFile p c = .ok fs' ↔
      fs.HasSite p ∧ fs.node? (fs.place p) ≠ some .dir ∧ p.text.getLast? ≠ some '/' ∧
        fs' = fs.setNode (fs.place p) (.file c) := by
  have hbind : fs.writeFile p c = fs.locateParent p >>= fun d ↦
      match d.2 with
      | .name n => fs.step d.1 n >>= fun loc ↦
        if fs.node? loc = some .dir ∨ p.text.getLast? = some '/' then .error .isADirectory
        else .ok (fs.setNode loc (.file c))
      | _ => .error .isADirectory := rfl
  rw [hbind, site_bind_eq_ok_iff]
  refine and_congr_right fun _ ↦ ?_
  by_cases h : fs.node? (fs.place p) = some .dir ∨ p.text.getLast? = some '/'
  · rw [if_pos h]
    constructor
    · exact nofun
    · rintro ⟨hdir, hslash, -⟩
      exact absurd h (not_or.mpr ⟨hdir, hslash⟩)
  · rw [if_neg h]
    obtain ⟨hdir, hslash⟩ := not_or.mp h
    constructor
    · intro heq
      exact ⟨hdir, hslash, (Except.ok.inj heq).symm⟩
    · rintro ⟨-, -, rfl⟩
      rfl

/-- Writing a file takes no directory away. -/
theorem node?_eq_dir_of_writeFile (h : fs.writeFile p c = .ok fs') (hl : fs.node? l = some .dir) :
    fs'.node? l = some .dir := by
  obtain ⟨hsite, hdir, -, rfl⟩ := writeFile_eq_ok_iff.mp h
  rw [node?_setNode _ _ hsite.place_ne_nil, if_neg, hl]
  rintro rfl
  exact hdir hl

theorem workingDirectory_of_writeFile (h : fs.writeFile p c = .ok fs') :
    fs'.workingDirectory = fs.workingDirectory := by
  obtain ⟨-, -, -, rfl⟩ := writeFile_eq_ok_iff.mp h
  rfl

theorem hasSite_of_writeFile (h : fs.writeFile p c = .ok fs') : fs'.HasSite p :=
  (writeFile_eq_ok_iff.mp h).1.mono (workingDirectory_of_writeFile h)
    fun _ hl ↦ node?_eq_dir_of_writeFile h hl

/-- A file that was written is found under its path. -/
theorem locate_of_writeFile (h : fs.writeFile p c = .ok fs') :
    fs'.locate p = .ok (fs.place p, .file c) := by
  have hsite' := hasSite_of_writeFile h
  obtain ⟨hsite, -, hslash, rfl⟩ := writeFile_eq_ok_iff.mp h
  exact hsite'.locate_eq hslash (node?_setNode_self fs _ hsite.place_ne_nil)

/-- Writing the same file again changes nothing. -/
theorem writeFile_again (h : fs.writeFile p c = .ok fs') : fs'.writeFile p c = .ok fs' := by
  have hsite' := hasSite_of_writeFile h
  obtain ⟨hsite, -, hslash, rfl⟩ := writeFile_eq_ok_iff.mp h
  refine writeFile_eq_ok_iff.mpr ⟨hsite', ?_, hslash, ?_⟩
  · rw [place_setNode, node?_setNode_self fs _ hsite.place_ne_nil]
    simp
  · rw [place_setNode, setNode_setNode]

/-! ## Making directories -/

theorem makeDir_eq_bind (fs : FileSystem) (p : Path) :
    fs.makeDir p = fs.locateParent p >>= fun d ↦
      match d.2 with
      | .name n => fs.step d.1 n >>= fun loc ↦
        match fs.node? loc with
        | some _ => .error .alreadyExists
        | none => .ok (fs.setNode loc .dir)
      | _ => .error .alreadyExists := rfl

theorem makeDir_eq_ok_iff :
    fs.makeDir p = .ok fs' ↔
      fs.HasSite p ∧ fs.node? (fs.place p) = none ∧ fs' = fs.setNode (fs.place p) .dir := by
  rw [makeDir_eq_bind, site_bind_eq_ok_iff]
  refine and_congr_right fun _ ↦ ?_
  cases fs.node? (fs.place p) with
  | some m => simp
  | none => simp [eq_comm]

/-- What adding directories to a file system may change. -/
structure AddsDirs (fs fs' : FileSystem) : Prop where
  working : fs'.workingDirectory = fs.workingDirectory
  node : ∀ l, fs'.node? l = fs.node? l ∨ fs.node? l = none ∧ fs'.node? l = some .dir

namespace AddsDirs

theorem refl (fs : FileSystem) : fs.AddsDirs fs where
  working := rfl
  node _ := .inl rfl

theorem trans (h : fs.AddsDirs fs₁) (h' : fs₁.AddsDirs fs₂) : fs.AddsDirs fs₂ where
  working := h'.working.trans h.working
  node l := by
    rcases h.node l with heq | ⟨hnone, hdir⟩
    · rcases h'.node l with heq' | ⟨hnone, hdir⟩
      · exact .inl (heq'.trans heq)
      · exact .inr ⟨heq.symm.trans hnone, hdir⟩
    · rcases h'.node l with heq' | ⟨hnone', -⟩
      · exact .inr ⟨hnone, heq'.trans hdir⟩
      · rw [hdir] at hnone'
        exact absurd hnone' nofun

theorem node?_eq_some (h : fs.AddsDirs fs') (hn : fs.node? l = some n) : fs'.node? l = some n := by
  rcases h.node l with heq | ⟨hnone, -⟩
  · rw [heq, hn]
  · rw [hnone] at hn
    exact absurd hn nofun

/-- Adding directories does not touch regular files. -/
theorem node?_eq_file_iff (h : fs.AddsDirs fs') :
    fs'.node? l = some (.file c) ↔ fs.node? l = some (.file c) := by
  refine ⟨fun hfile ↦ ?_, h.node?_eq_some⟩
  rcases h.node l with heq | ⟨-, hdir⟩
  · rw [← heq, hfile]
  · rw [hdir] at hfile
    exact absurd hfile (by simp)

theorem of_makeDir (h : fs.makeDir p = .ok fs') : fs.AddsDirs fs' := by
  obtain ⟨hsite, hnone, rfl⟩ := makeDir_eq_ok_iff.mp h
  refine ⟨rfl, fun l ↦ ?_⟩
  rw [node?_setNode fs .dir hsite.place_ne_nil]
  by_cases hl : l = fs.place p
  · exact .inr ⟨hl ▸ hnone, if_pos hl⟩
  · exact .inl (if_neg hl)

end AddsDirs

theorem addsDirs_makeDirsDown (fs : FileSystem) (ps : List Path) :
    fs.AddsDirs (fs.makeDirsDown ps).1 := by
  induction ps generalizing fs with
  | nil => exact .refl fs
  | cons p ps ih =>
    rw [makeDirsDown]
    split
    · next fs' hmake => exact (AddsDirs.of_makeDir hmake).trans (ih fs')
    · split
      · exact ih fs
      · exact .refl fs
    · exact .refl fs

theorem addsDirs_makeDirsUp (fs : FileSystem) (missing ps : List Path) :
    fs.AddsDirs (fs.makeDirsUp missing ps).1 := by
  induction ps generalizing missing with
  | nil => exact addsDirs_makeDirsDown fs missing
  | cons p ps ih =>
    rw [makeDirsUp]
    split
    · next fs' hmake =>
      exact (AddsDirs.of_makeDir hmake).trans (addsDirs_makeDirsDown fs' missing)
    · exact ih (p :: missing)
    · split
      · exact addsDirs_makeDirsDown fs missing
      · exact .refl fs
    · exact .refl fs

/-- **Making a directory with those above it adds directories and changes nothing else**, whether it
succeeds or not. -/
theorem addsDirs_makeDirs (fs : FileSystem) (p : Path) : fs.AddsDirs (fs.makeDirs p).1 := by
  rw [makeDirs]
  split_ifs
  · exact .refl fs
  · exact addsDirs_makeDirsUp fs [] (ancestors p)

/-- A directory that is there can not be made again. -/
theorem makeDir_of_isDir (h : fs.isDir p) : fs.makeDir p = .error .alreadyExists := by
  obtain ⟨l, hlocate⟩ : ∃ l, fs.locate p = .ok (l, .dir) := by
    unfold isDir at h
    split at h
    · next l hl => exact ⟨l, hl⟩
    · exact absurd h Bool.false_ne_true
  obtain ⟨hcheck, hfollow, hnode⟩ := locate_eq_ok_iff.mp hlocate
  obtain ⟨k, hk⟩ := exists_splitSlashes_eq p
  rw [hk, follow_append] at hfollow
  obtain ⟨l', hpieces, hslashes⟩ := hfollow
  obtain ⟨loc, hparent, hlast⟩ := follow_append.mp hpieces
  obtain rfl : l = l' := by rw [eq_of_follow hslashes, foldl_move_replicate_nil]
  have hdir : fs.node? loc = some .dir := by
    cases hpiece : (splitLast p).2 with
    | root =>
      rw [hpiece] at hlast
      obtain rfl : l = loc := eq_of_follow hlast
      exact hnode
    | here =>
      rw [hpiece] at hlast
      exact ((follow_eq_ok_iff.mp hlast).2 [] _ (List.prefix_refl _)).1
    | up =>
      rw [hpiece] at hlast
      exact ((follow_eq_ok_iff.mp hlast).2 [] _ (List.prefix_refl _)).1
    | name n =>
      rw [hpiece] at hlast
      exact ((follow_eq_ok_iff.mp hlast).2 [] _ (List.prefix_refl _)).1
  unfold makeDir
  rw [locateParent_eq_ok_iff.mpr ⟨hcheck, hparent, hdir, rfl⟩]
  cases hpiece : (splitLast p).2 with
  | root => rfl
  | here => rfl
  | up => rfl
  | name n =>
    rw [hpiece] at hlast
    obtain ⟨l', hstep, hl'⟩ := bind_eq_ok_iff.mp hlast
    obtain rfl := Except.ok.inj hl'
    simp only [bind, Except.bind, hstep, hnode]

/-- Nothing is made for a directory that is there. -/
theorem makeDirs_of_isDir (h : fs.isDir p) : fs.makeDirs p = (fs, .ok ()) := by
  rw [makeDirs]
  split_ifs
  · rfl
  · rw [ancestors, makeDirsUp, makeDir_of_isDir h]
    simp only [h, if_true]
    rfl

/-! ## Removing a directory -/

theorem node?_of_removeEmptyDir (h : fs.removeEmptyDir p = .ok fs') (hl : l ≠ fs.place p) :
    fs'.node? l = fs.node? l := by
  obtain ⟨⟨loc, last⟩, hparent, h⟩ := bind_eq_ok_iff.mp h
  obtain ⟨-, hfollow, -, rfl⟩ := locateParent_eq_ok_iff.mp hparent
  cases hlast : (splitLast p).2 with
  | name n =>
    rw [hlast] at h
    obtain rfl := Except.ok.inj h
    refine node?_removeWhere_of_not (decide_eq_false fun heq ↦ hl ?_)
    rw [heq, place_eq_concat hlast, eq_of_follow hfollow]
  | root =>
    rw [hlast] at h
    exact absurd h nofun
  | here =>
    rw [hlast] at h
    exact absurd h nofun
  | up =>
    rw [hlast] at h
    exact absurd h nofun

theorem workingDirectory_of_removeEmptyDir (h : fs.removeEmptyDir p = .ok fs') :
    fs'.workingDirectory = fs.workingDirectory := by
  obtain ⟨⟨loc, last⟩, -, h⟩ := bind_eq_ok_iff.mp h
  cases last with
  | name n =>
    obtain rfl := Except.ok.inj h
    rfl
  | root => exact absurd h nofun
  | here => exact absurd h nofun
  | up => exact absurd h nofun

theorem workingDirectory_removeDirAll (fs : FileSystem) (p : Path) :
    (fs.removeDirAll p).1.workingDirectory = fs.workingDirectory := by
  unfold removeDirAll
  split
  · rfl
  · rfl
  · simp only
    split
    · next fs' h =>
      exact (workingDirectory_of_removeEmptyDir h).trans (workingDirectory_removeWhere fs _)
    · rfl
    · rfl

/-- **Removing a directory changes nothing outside its place**, whether it succeeds or not. -/
theorem node?_removeDirAll (hl : ¬fs.place p <+: l) :
    (fs.removeDirAll p).1.node? l = fs.node? l := by
  unfold removeDirAll
  split
  · rfl
  · rfl
  · next loc hlocate =>
    obtain rfl := eq_place_of_locate hlocate
    have hkept : (fs.removeWhere fun l ↦ (fs.place p).isPrefixOf l && l != fs.place p).node? l =
        fs.node? l := by
      refine node?_removeWhere_of_not ?_
      rw [Bool.and_eq_false_iff]
      exact .inl (Bool.eq_false_iff.mpr fun hprefix ↦ hl (List.isPrefixOf_iff_prefix.mp hprefix))
    simp only
    split
    · next fs' h =>
      rw [node?_of_removeEmptyDir h, hkept]
      rintro rfl
      exact hl (List.prefix_refl _)
    · exact hkept
    · exact hkept

end FileSystem

end PluginPack
