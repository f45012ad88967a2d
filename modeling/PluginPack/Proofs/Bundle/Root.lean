import PluginPack.Proofs.Bundle.Exploration
import PluginPack.Proofs.FileSystem.Location

/-!
# How the root of a project is spelled

A bundle that is made from the working directory can be made from its absolute path as well. Every
module then has another path, the absolute path of its place, and apart from that the two visits go
the same way. They can only differ where a module has several relative paths, since modules are told
apart by their paths: a path may leave the working directory and come back by its name. Absolute
paths are normalized to one path for each place, so nothing is inlined twice from an absolute root.
-/

namespace PluginPack

open Text FileSystem PluginPack.Path

namespace FileSystem

variable {fs : FileSystem} {p p' : Path} {k k' : Nat} {names names' : List Text}
  {e specifier : Text}

/-- The absolute path of the place that a path leads to. -/
def absolute (fs : FileSystem) (p : Path) : Path := ofLocation (fs.place p)

/-- A path goes up some steps from the working directory, and then down by names. It does not come
back into a directory that it has left. -/
structure GoesStraight (fs : FileSystem) (p : Path) (k : Nat) (names : List Text) : Prop where
  eq : p = ofSteps k names
  ne_nil : names ≠ []
  isFileName : ∀ n ∈ names, IsFileName n
  up_le : k ≤ fs.workingDirectory.length
  away : ∀ n next rest, names = n :: next :: rest → k ≠ 0 →
    fs.workingDirectory[fs.workingDirectory.length - k]? ≠ some n

/-- A path goes straight, and neither it nor the absolute path of its place is too long, with any of
the endings under which modules are looked for. -/
def LeadsStraight (fs : FileSystem) (p : Path) : Prop :=
  ∃ k names, fs.GoesStraight p k names ∧ utf8Length p.text + 3 ≤ maxPathBytes ∧
    utf8Length (fs.absolute p).text + 3 ≤ maxPathBytes

/-! ## Endings -/

theorem extension_cases (he : e ∈ ModuleStore.extensions) :
    '/' ∉ e ∧ utf8Length e ≤ 3 ∧ (e = [] ∨ 3 ≤ e.length) := by
  simp only [ModuleStore.extensions, List.mem_cons, List.not_mem_nil, or_false] at he
  rcases he with rfl | rfl | rfl
  · decide
  · decide
  · decide

theorem isFileName_append {n : Text} (hn : IsFileName n) (he : e ∈ ModuleStore.extensions) :
    IsFileName (n ++ e) := by
  obtain ⟨hslash, -, rfl | hlong⟩ := extension_cases he
  · rwa [List.append_nil]
  · have hlength : ∀ t : Text, t.length ≤ 2 → n ++ e ≠ t := by
      rintro t ht rfl
      rw [List.length_append] at ht
      omega
    refine ⟨⟨hlength _ (by decide), hlength _ (by decide), hlength _ (by decide)⟩, ?_⟩
    rw [List.mem_append, not_or]
    exact ⟨hn.2, hslash⟩

namespace GoesStraight

theorem place_eq (h : fs.GoesStraight p k names) :
    fs.place p = fs.workingDirectory.take (fs.workingDirectory.length - k) ++ names := by
  rw [h.eq, place_ofSteps fs k h.isFileName]

theorem isFileName_place (hwork : HasPath fs.workingDirectory) (h : fs.GoesStraight p k names) :
    ∀ n ∈ fs.place p, IsFileName n := by
  intro n hn
  rw [h.place_eq] at hn
  rcases List.mem_append.mp hn with hn | hn
  · exact (hwork n (List.take_subset _ _ hn)).1
  · exact h.isFileName n hn

theorem exists_concat (h : fs.GoesStraight p k names) : ∃ init n, names = init ++ [n] := by
  rcases List.eq_nil_or_concat names with hnil | ⟨init, n, hconcat⟩
  · exact absurd hnil h.ne_nil
  · exact ⟨init, n, by rw [hconcat, List.concat_eq_append]⟩

/-- With an ending a path still goes straight, to the place with the ending. -/
theorem append {init : List Text} {n : Text} (h : fs.GoesStraight p k (init ++ [n]))
    (he : e ∈ ModuleStore.extensions) : fs.GoesStraight (p.append e) k (init ++ [n ++ e]) where
  eq := by rw [h.eq, append_ofSteps_concat]
  ne_nil := List.concat_ne_nil _ init
  isFileName x hx := by
    rcases List.mem_append.mp hx with hx | hx
    · exact h.isFileName x (List.mem_append_left [n] hx)
    · rw [List.mem_singleton.mp hx]
      exact isFileName_append (h.isFileName n (List.mem_append_right init List.mem_cons_self)) he
  up_le := h.up_le
  away x next rest heq := by
    rcases init with _ | ⟨first, _ | ⟨second, init⟩⟩
    · exact absurd (List.cons.inj heq).2.symm (List.cons_ne_nil next rest)
    · obtain ⟨rfl, -⟩ := List.cons.inj heq
      exact h.away first n [] rfl
    · obtain ⟨rfl, -⟩ := List.cons.inj heq
      exact h.away first second (init ++ [n]) rfl

theorem absolute_append (h : fs.GoesStraight p k names) (he : e ∈ ModuleStore.extensions) :
    fs.absolute (p.append e) = (fs.absolute p).append e := by
  obtain ⟨init, n, rfl⟩ := h.exists_concat
  rw [absolute, absolute, (h.append he).place_eq, h.place_eq, ← List.append_assoc,
    ← List.append_assoc, append_ofLocation_concat]

/-- **Straight paths to one place are one path.** -/
theorem eq_of_place_eq (h : fs.GoesStraight p k names) (h' : fs.GoesStraight p' k' names')
    (heq : fs.place p = fs.place p') : p = p' := by
  wlog hle : k ≤ k' generalizing p p' k k' names names'
  · exact (this h' h heq.symm (Nat.le_of_not_le hle)).symm
  rw [h.place_eq, h'.place_eq] at heq
  rcases Nat.lt_or_eq_of_le hle with hlt | rfl
  · -- The second path goes up further, and comes back by the names in between.
    set D := fs.workingDirectory with hD
    have hup : k' ≤ D.length := h'.up_le
    have hlength : D.length - k' < D.length := by omega
    have htake : D.take (D.length - k) =
        D.take (D.length - k') ++ (D.drop (D.length - k')).take (k' - k) := by
      have hk : D.length - k = (D.length - k') + (k' - k) := by omega
      rw [hk, List.take_add]
    rw [htake, List.append_assoc, List.append_cancel_left_eq, List.drop_eq_getElem_cons hlength,
      List.take_cons (by omega), List.cons_append] at heq
    obtain ⟨next, rest, hrest⟩ := List.exists_cons_of_ne_nil
      (List.append_ne_nil_of_right_ne_nil ((D.drop (D.length - k' + 1)).take (k' - k - 1)) h.ne_nil)
    rw [hrest] at heq
    refine absurd ?_ (h'.away _ next rest heq.symm (by omega))
    exact List.getElem?_eq_getElem hlength
  · rw [h.eq, h'.eq, List.append_cancel_left heq]

theorem isTyped_absolute (hwork : HasPath fs.workingDirectory) (h : fs.GoesStraight p k names) :
    (fs.absolute p).isTyped = p.isTyped := by
  obtain ⟨init, n, rfl⟩ := h.exists_concat
  have hplace := h.isFileName_place hwork
  rw [h.place_eq, ← List.append_assoc] at hplace
  rw [absolute, h.place_eq, ← List.append_assoc, isTyped_ofLocation_concat k hplace h.isFileName,
    ← h.eq]

/-- What a specifier stands for is at the same place, whichever way its module is named. -/
theorem resolveImport_absolute (hwork : HasPath fs.workingDirectory)
    (h : fs.GoesStraight p k names) (specifier : Text) :
    resolveImport (fs.absolute p) specifier = fs.absolute (resolveImport p specifier) := by
  obtain ⟨init, n, rfl⟩ := h.exists_concat
  have hplace := h.isFileName_place hwork
  rw [h.place_eq, ← List.append_assoc] at hplace
  set top := fs.workingDirectory.take (fs.workingDirectory.length - k) with htop
  have hinit : ∀ n' ∈ init, IsFileName n' := fun n' hn' ↦
    h.isFileName n' (List.mem_append_left [n] hn')
  have hdir : ∀ n' ∈ top ++ init, IsFileName n' := fun n' hn' ↦
    hplace n' (List.mem_append_left [n] hn')
  -- The two paths of the module lead to one directory, from which the specifier goes on.
  have hsame : fs.place ((ofLocation (top ++ init)).join ⟨specifier⟩) =
      fs.place ((ofSteps k init).join ⟨specifier⟩) := by
    by_cases hspecifier : (⟨specifier⟩ : Path).isAbsolute
    · rw [join, join, if_pos hspecifier, if_pos hspecifier]
    · rw [Bool.not_eq_true] at hspecifier
      rw [place_join hspecifier, place_join hspecifier, place_ofLocation fs hdir,
        place_ofSteps fs k hinit]
  have habs : ((ofLocation (top ++ init)).join ⟨specifier⟩).isAbsolute :=
    isAbsolute_join_of_isAbsolute rfl _
  rw [absolute, h.place_eq, ← htop, ← List.append_assoc, resolveImport,
    parent?_ofLocation_concat hplace, absolute, resolveImport, h.eq,
    parent?_ofSteps_concat k h.isFileName, Option.getD_some, Option.getD_some,
    normalize_of_isAbsolute fs habs, place_normalize, hsame]

end GoesStraight

theorem findSome?_eq_map {α β γ : Type} {f : α → Option γ} {g : α → Option β} {φ : β → γ}
    {xs : List α} (h : ∀ x ∈ xs, f x = (g x).map φ) :
    xs.findSome? f = (xs.findSome? g).map φ := by
  induction xs with
  | nil => rfl
  | cons x xs ih =>
    obtain ⟨hx, hxs⟩ := List.forall_mem_cons.mp h
    rw [List.findSome?_cons, List.findSome?_cons, hx, ih hxs]
    cases g x with
    | none => rfl
    | some b => rfl

/-- **A straight path and the absolute path of its place lead to the same module.** -/
theorem resolve?_absolute (htree : fs.IsTree) (hwork : HasPath fs.workingDirectory)
    (h : fs.LeadsStraight p) :
    fs.moduleStore.resolve? (fs.absolute p) =
      (fs.moduleStore.resolve? p).map fun x ↦ (fs.absolute x.1, x.2) := by
  obtain ⟨k, names, hstraight, hrel, habs⟩ := h
  obtain ⟨init, n, rfl⟩ := hstraight.exists_concat
  refine findSome?_eq_map fun e he ↦ ?_
  have happend := hstraight.append he
  have hlength := (extension_cases he).2.1
  have hfile : fs.fileAt? (fs.absolute (p.append e)) = fs.fileAt? (p.append e) := by
    have hrel' : utf8Length (p.append e).text ≤ maxPathBytes := by
      rw [Path.append, utf8Length_append]
      omega
    have habs' : utf8Length (fs.absolute (p.append e)).text ≤ maxPathBytes := by
      rw [hstraight.absolute_append he, Path.append, utf8Length_append]
      omega
    rw [absolute, happend.eq] at habs' ⊢
    rw [happend.eq] at hrel'
    exact fileAt?_ofSteps htree hwork happend.isFileName happend.ne_nil hrel' habs'
  rw [← hstraight.absolute_append he]
  show (fs.fileAt? _).map _ = ((fs.fileAt? _).map _).map _
  rw [hfile, Option.map_map]
  rfl

theorem exists_goesStraight_of_resolve? {file : Path} {content : Content} (h : fs.LeadsStraight p)
    (hfile : fs.moduleStore.resolve? p = some (file, content)) :
    ∃ k names, fs.GoesStraight file k names := by
  obtain ⟨k, names, hstraight, -⟩ := h
  obtain ⟨init, n, rfl⟩ := hstraight.exists_concat
  obtain ⟨e, he, hfind⟩ := List.exists_of_findSome?_eq_some hfile
  obtain ⟨c, -, heq⟩ := Option.map_eq_some_iff.mp hfind
  obtain ⟨rfl, -⟩ := Prod.mk.inj heq
  exact ⟨k, _, hstraight.append he⟩

end FileSystem

namespace Bundle

variable {fs : FileSystem} {store : ModuleStore} {missing missing' : BundleError}
  {path path' file q entry : Path} {content : Content} {visited : List Path} {s : Text}

/-! ## Visits from both roots -/

/-- The paths that the visit of a path may resolve: the path itself, and those that specifiers in
the modules stand for which are reached. -/
def MayAsk (store : ModuleStore) (path q : Path) : Prop :=
  q = path ∨ ∃ file content m, store.resolve? path = some (file, content) ∧ store.Reaches file m ∧
    ∃ s ∈ store.specifiers m, q = resolveImport m s

theorem MayAsk.of_import (hfile : store.resolve? path = some (file, content))
    (hs : s ∈ store.specifiers file) (h : MayAsk store (resolveImport file s) q) :
    MayAsk store path q := by
  rcases h with rfl | ⟨d, content', m, hd, hreach, hq⟩
  · exact .inr ⟨file, content, file, hfile, .refl, s, hs, rfl⟩
  · have himports := ModuleStore.Imports.of_resolve? hs hd
    exact .inr ⟨file, content, m, hfile, .head himports hreach, hq⟩

/-- Two visits end alike: both fail, or the second one has the same code, of the modules at the same
places under their absolute paths. -/
def Mirrors (fs : FileSystem) : Except BundleError Inlined → Except BundleError Inlined → Prop
  | .ok r, .ok r' => r'.code = r.code ∧ r'.modules = r.modules.map fs.absolute ∧
      ∀ m ∈ r.modules, ∃ k names, fs.GoesStraight m k names
  | .error _, .error _ => True
  | _, _ => False

theorem Mirrors.bind {x y : Except BundleError Inlined}
    {f g : Inlined → Except BundleError Inlined} (h : Mirrors fs x y)
    (hfg : ∀ r r', Mirrors fs (.ok r) (.ok r') → Mirrors fs (f r) (g r')) :
    Mirrors fs (x >>= f) (y >>= g) := by
  cases x with
  | error e =>
    cases y with
    | error e' => trivial
    | ok r' => exact h.elim
  | ok r =>
    cases y with
    | error e' => exact h.elim
    | ok r' => exact hfg r r' h

theorem mirrors_nil : Mirrors fs (.ok ⟨[], []⟩) (.ok ⟨[], []⟩) :=
  ⟨rfl, rfl, List.forall_mem_nil _⟩

/-- One module, with the same code under both of its paths. -/
theorem mirrors_module (h : ∃ k names, fs.GoesStraight file k names) (code : Text) :
    Mirrors fs (.ok ⟨code, [file]⟩) (.ok ⟨code, [fs.absolute file]⟩) :=
  ⟨rfl, rfl, List.forall_mem_singleton.mpr h⟩

/-- What is put together of modules that mirror each other does so again. -/
theorem Mirrors.append {r r' s s' : Inlined} (between : Text) (h : Mirrors fs (.ok r) (.ok r'))
    (h' : Mirrors fs (.ok s) (.ok s')) :
    Mirrors fs (.ok ⟨r.code ++ (between ++ s.code), r.modules ++ s.modules⟩)
      (.ok ⟨r'.code ++ (between ++ s'.code), r'.modules ++ s'.modules⟩) := by
  obtain ⟨hcode, hmodules, hnames⟩ := h
  obtain ⟨hcode', hmodules', hnames'⟩ := h'
  refine ⟨?_, ?_, List.forall_mem_append.mpr ⟨hnames, hnames'⟩⟩
  · rw [hcode, hcode']
  · rw [hmodules, hmodules', List.map_append]

/-- A module was visited before exactly when it was under its absolute path. -/
theorem absolute_mem_map_iff (hwork : HasPath fs.workingDirectory)
    (hfile : ∃ k names, fs.GoesStraight file k names)
    (hvisited : ∀ v ∈ visited, ∃ k names, fs.GoesStraight v k names) :
    fs.absolute file ∈ visited.map fs.absolute ↔ file ∈ visited := by
  refine ⟨fun h ↦ ?_, List.mem_map_of_mem⟩
  obtain ⟨v, hv, heq⟩ := List.mem_map.mp h
  obtain ⟨k, names, hstraight⟩ := hfile
  obtain ⟨k', names', hstraight'⟩ := hvisited v hv
  have hplaces : fs.place v = fs.place file := by
    have hplace := congrArg fs.place heq
    rwa [absolute, absolute, place_ofLocation fs (hstraight'.isFileName_place hwork),
      place_ofLocation fs (hstraight.isFileName_place hwork)] at hplace
  rwa [← hstraight'.eq_of_place_eq hstraight hplaces]

/-- **The visit of a module under its absolute path** goes the same way, as long as no path that is
resolved comes back into a directory that it has left. -/
theorem mirrors_visit (htree : fs.IsTree) (hwork : HasPath fs.workingDirectory)
    (hasked : ∀ q, MayAsk fs.moduleStore path q → fs.LeadsStraight q)
    (hvisited : ∀ v ∈ visited, ∃ k names, fs.GoesStraight v k names) :
    Mirrors fs (visit fs.moduleStore missing path visited)
      (visit fs.moduleStore missing' (fs.absolute path) (visited.map fs.absolute)) := by
  -- The induction is that of the first visit; the second one is followed along, whatever error it
  -- would give for a module that is not found.
  refine visit.induct fs.moduleStore
    (fun missing path visited ↦ (∀ q, MayAsk fs.moduleStore path q → fs.LeadsStraight q) →
      (∀ v ∈ visited, ∃ k names, fs.GoesStraight v k names) → ∀ missing',
        Mirrors fs (visit fs.moduleStore missing path visited)
          (visit fs.moduleStore missing' (fs.absolute path) (visited.map fs.absolute)))
    (fun importer specifiers visited ↦ (∃ k names, fs.GoesStraight importer k names) →
      (∀ s ∈ specifiers, ∀ q, MayAsk fs.moduleStore (resolveImport importer s) q →
        fs.LeadsStraight q) →
      (∀ v ∈ visited, ∃ k names, fs.GoesStraight v k names) →
        Mirrors fs (visitAll fs.moduleStore importer specifiers visited)
          (visitAll fs.moduleStore (fs.absolute importer) specifiers (visited.map fs.absolute)))
    ?_ ?_ ?_ ?_ ?_ ?_ missing path visited hasked hvisited missing'
  · intro missing path visited hnone hasked hvisited missing'
    have hsame := resolve?_absolute htree hwork (hasked path (.inl rfl))
    rw [hnone] at hsame
    rw [visit_of_unresolved hnone, visit_of_unresolved hsame]
    trivial
  · intro missing path visited file content hfile hmem hasked hvisited missing'
    have hsame := resolve?_absolute htree hwork (hasked path (.inl rfl))
    rw [hfile] at hsame
    rw [visit_of_mem hfile hmem, visit_of_mem hsame (List.mem_map_of_mem hmem)]
    exact mirrors_nil
  · intro missing path visited file hnew b hfile _ _ hasked hvisited missing'
    have hpath := hasked path (.inl rfl)
    have hsame := resolve?_absolute htree hwork hpath
    have hstraight := exists_goesStraight_of_resolve? hpath hfile
    rw [hfile] at hsame
    rw [visit_of_bytes hfile hnew,
      visit_of_bytes hsame (mt (absolute_mem_map_iff hwork hstraight hvisited).mp hnew)]
    trivial
  · intro missing path visited file hnew source hfile _ _ ih hasked hvisited missing'
    have hpath := hasked path (.inl rfl)
    have hsame := resolve?_absolute htree hwork hpath
    have hstraight := exists_goesStraight_of_resolve? hpath hfile
    have hspecifiers := ModuleStore.specifiers_of_text (ModuleStore.find?_of_resolve? hfile)
    rw [hfile] at hsame
    rw [visit_of_text hfile hnew,
      visit_of_text hsame (mt (absolute_mem_map_iff hwork hstraight hvisited).mp hnew)]
    refine (ih hstraight (fun s hs q hq ↦ ?_) ?_).bind fun below below' hbelow ↦ ?_
    · exact hasked q (hq.of_import hfile (hspecifiers ▸ hs))
    · exact List.forall_mem_cons.mpr ⟨hstraight, hvisited⟩
    · exact hbelow.append [] (mirrors_module hstraight (body source))
  · intro importer visited _ _ _
    rw [visitAll, visitAll]
    exact mirrors_nil
  · intro importer visited specifier specifiers ihfirst ihothers himporter hasked hvisited
    obtain ⟨k, names, hstraight⟩ := himporter
    have hfirst := ihfirst (hasked specifier List.mem_cons_self) hvisited
      (.moduleNotFound specifier (fs.absolute importer))
    rw [visitAll, visitAll, hstraight.resolveImport_absolute hwork]
    refine hfirst.bind fun first first' hfirst' ↦ ?_
    have hothers := ihothers first ⟨k, names, hstraight⟩
      (fun s hs ↦ hasked s (List.mem_cons_of_mem specifier hs))
      (List.forall_mem_append.mpr ⟨hfirst'.2.2, hvisited⟩)
    rw [List.map_append, ← hfirst'.2.1] at hothers
    exact hothers.bind fun others others' hothers' ↦ hfirst'.append ['\n'] hothers'

/-! ## Absolute roots -/

/-- The absolute path of a location other than the root. -/
def IsAbsoluteFile (m : Path) : Prop := ∃ l, l ≠ [] ∧ (∀ n ∈ l, IsFileName n) ∧ m = ofLocation l

theorem exists_ofLocation_eq_normalize {p : Path} (h : p.isAbsolute) :
    ∃ l, (∀ n ∈ l, IsFileName n) ∧ p.normalize = ofLocation l := by
  refine ⟨(FileSystem.withWorkingDirectory []).place p, isFileName_of_mem_place ?_,
    normalize_of_isAbsolute _ h⟩
  rw [FileSystem.start, if_pos h]
  exact List.forall_mem_nil _

theorem isAbsoluteFile_of_resolve? {l : Location} (hl : ∀ n ∈ l, IsFileName n)
    (hfile : fs.moduleStore.resolve? (ofLocation l) = some (file, content)) :
    IsAbsoluteFile file := by
  have hfound : fs.fileAt? file = some content := ModuleStore.find?_of_resolve? hfile
  obtain ⟨e, he, hfind⟩ := List.exists_of_findSome?_eq_some hfile
  obtain ⟨c, -, heq⟩ := Option.map_eq_some_iff.mp hfind
  obtain ⟨rfl, -⟩ := Prod.mk.inj heq
  rcases List.eq_nil_or_concat l with rfl | ⟨init, n, rfl⟩
  · by_cases hnil : e = []
    · -- The root itself is a directory.
      subst hnil
      have hnode := locate_place (fileAt?_eq_some_iff.mp hfound)
      have hroot : fs.place ((ofLocation []).append []) = [] := rfl
      rw [hroot, node?_nil] at hnode
      cases hnode
    · have hname : IsFileName e := by
        simp only [ModuleStore.extensions, List.mem_cons, List.not_mem_nil, or_false] at he
        rcases he with rfl | rfl | rfl
        · exact absurd rfl hnil
        · decide
        · decide
      have htext : (ofLocation [e]).text = '/' :: e := by
        rw [text_ofLocation, List.intercalate_singleton]
      exact ⟨[e], List.cons_ne_nil e [], List.forall_mem_singleton.mpr hname,
        congrArg Path.mk htext.symm⟩
  · rw [List.concat_eq_append] at hl ⊢
    refine ⟨init ++ [n ++ e], List.concat_ne_nil _ init, fun x hx ↦ ?_,
      append_ofLocation_concat init n e⟩
    rcases List.mem_append.mp hx with hx | hx
    · exact hl x (List.mem_append_left [n] hx)
    · rw [List.mem_singleton.mp hx]
      exact isFileName_append (hl n (List.mem_append_right init List.mem_cons_self)) he

theorem IsAbsoluteFile.exists_resolveImport_eq {m : Path} (h : IsAbsoluteFile m) (s : Text) :
    ∃ l, (∀ n ∈ l, IsFileName n) ∧ resolveImport m s = ofLocation l := by
  obtain ⟨l, hne, hl, rfl⟩ := h
  rcases List.eq_nil_or_concat l with rfl | ⟨init, n, rfl⟩
  · exact absurd rfl hne
  · rw [List.concat_eq_append] at hl ⊢
    rw [resolveImport, parent?_ofLocation_concat hl, Option.getD_some]
    exact exists_ofLocation_eq_normalize (isAbsolute_join_of_isAbsolute rfl _)

/-- **From an absolute root no file is inlined twice.** -/
theorem nodup_place_of_isAbsolute {root : Path} {b : Bundle} (hroot : root.isAbsolute)
    (h : make fs.moduleStore root entry = .ok b) : (b.modules.map fs.place).Nodup := by
  obtain ⟨file, hexplores⟩ := exists_explores_of_make h
  have hmodules : ∀ m ∈ b.modules, IsAbsoluteFile m := by
    obtain ⟨all, hall, rfl⟩ := make_eq_ok_iff.mp h
    refine visit_ok_induction
      (P := fun path _ r ↦ (∃ l, (∀ n ∈ l, IsFileName n) ∧ path = ofLocation l) →
        ∀ m ∈ r.modules, IsAbsoluteFile m)
      (Q := fun importer _ _ r ↦ IsAbsoluteFile importer → ∀ m ∈ r.modules, IsAbsoluteFile m)
      ?_ ?_ ?_ ?_ hall (exists_ofLocation_eq_normalize (isAbsolute_join_of_isAbsolute hroot entry))
    · exact fun _ _ _ ↦ List.forall_mem_nil _
    · rintro path file visited source below hfile - ih ⟨l, hl, rfl⟩ m hm
      have hnew := isAbsoluteFile_of_resolve? hl hfile
      rcases List.mem_append.mp hm with hm | hm
      · exact ih hnew m hm
      · rw [List.mem_singleton.mp hm]
        exact hnew
    · exact fun _ ↦ List.forall_mem_nil _
    · intro importer specifier specifiers visited first others ihfirst ihothers himporter m hm
      rcases List.mem_append.mp hm with hm | hm
      · exact ihfirst (himporter.exists_resolveImport_eq specifier) m hm
      · exact ihothers himporter m hm
  -- Modules are told apart by their paths, and an absolute path is that of its place.
  refine hexplores.adds.nodup.map_on fun m hm m' hm' heq ↦ ?_
  obtain ⟨l, -, hl, rfl⟩ := hmodules m hm
  obtain ⟨l', -, hl', rfl⟩ := hmodules m' hm'
  rw [place_ofLocation fs hl, place_ofLocation fs hl'] at heq
  rw [heq]

/-! ## Both roots -/

/-- Two attempts at a bundle agree: both fail, or both succeed with the same code and the same files
in the same order, none of them twice. -/
def SameBundle (fs : FileSystem) : Except BundleError Bundle → Except BundleError Bundle → Prop
  | .ok b, .ok b' => b'.code = b.code ∧ b'.isTyped = b.isTyped ∧
      b'.modules.map fs.place = b.modules.map fs.place ∧ (b.modules.map fs.place).Nodup
  | .error _, .error _ => True
  | _, _ => False

/-- Bundles of visits that mirror each other are the same. -/
theorem Mirrors.sameBundle (hwork : HasPath fs.workingDirectory) {root root' : Path}
    (hpath : (root'.join entry).normalize = path')
    (h : Mirrors fs
      (visit fs.moduleStore (.entryNotFound (root.join entry).normalize) (root.join entry).normalize
        [])
      (visit fs.moduleStore (.entryNotFound path') path' [])) :
    SameBundle fs (make fs.moduleStore root entry) (make fs.moduleStore root' entry) := by
  subst hpath
  cases hvisit : visit fs.moduleStore (.entryNotFound (root.join entry).normalize)
      (root.join entry).normalize [] with
  | error e =>
    cases hvisit' : visit fs.moduleStore (.entryNotFound (root'.join entry).normalize)
        (root'.join entry).normalize [] with
    | ok all' =>
      rw [hvisit, hvisit'] at h
      exact h.elim
    | error e' =>
      rw [make_eq_error_iff.mpr hvisit, make_eq_error_iff.mpr hvisit']
      trivial
  | ok all =>
    cases hvisit' : visit fs.moduleStore (.entryNotFound (root'.join entry).normalize)
        (root'.join entry).normalize [] with
    | error e' =>
      rw [hvisit, hvisit'] at h
      exact h.elim
    | ok all' =>
      rw [hvisit, hvisit'] at h
      obtain ⟨hcode, hmodules, hnames⟩ := h
      -- The last module is the entry, and both of its paths have the same ending.
      have htyped : all'.modules.getLast?.any Path.isTyped =
          all.modules.getLast?.any Path.isTyped := by
        rw [hmodules, List.getLast?_map, Option.any_map]
        cases hlast : all.modules.getLast? with
        | none => rfl
        | some m =>
          obtain ⟨k, names, hstraight⟩ := hnames m (List.mem_of_getLast? hlast)
          exact hstraight.isTyped_absolute hwork
      have hmake := make_eq_ok_iff.mpr ⟨all, hvisit, rfl⟩
      rw [hmake, make_eq_ok_iff.mpr ⟨all', hvisit', rfl⟩]
      refine ⟨by rw [htyped, hcode], htyped, ?_, ?_⟩
      · rw [hmodules, List.map_map]
        refine List.map_congr_left fun m hm ↦ ?_
        obtain ⟨k, names, hstraight⟩ := hnames m hm
        exact place_ofLocation fs (hstraight.isFileName_place hwork)
      · obtain ⟨file, hexplores⟩ := exists_explores_of_make hmake
        refine hexplores.adds.nodup.map_on fun m hm m' hm' heq ↦ ?_
        obtain ⟨k, names, hstraight⟩ := hnames m hm
        obtain ⟨k', names', hstraight'⟩ := hnames m' hm'
        exact hstraight.eq_of_place_eq hstraight' heq

/-- From the working directory an entry has the absolute path of the place that it has from `.`. -/
theorem normalize_join_workingDirectory (hwork : HasPath fs.workingDirectory)
    (hentry : entry.isAbsolute = false) :
    ((ofLocation fs.workingDirectory).join entry).normalize =
      fs.absolute ((⟨['.']⟩ : Path).join entry).normalize := by
  have hroot : ∀ n ∈ fs.workingDirectory, IsFileName n := fun n hn ↦ (hwork n hn).1
  have hhere : fs.place ⟨['.']⟩ = fs.workingDirectory := rfl
  rw [normalize_of_isAbsolute fs (isAbsolute_join_of_isAbsolute rfl entry), absolute,
    place_normalize, place_join hentry, place_join hentry, place_ofLocation fs hroot, hhere]

/-- **The bundle does not depend on how the root is spelled.** From the absolute path of the working
directory no file is inlined twice. From `.` the bundle is the same, as long as every path that may
be resolved leads straight to its place: it goes up from the working directory at most to the root,
then down by names, and does not come back into a directory that it has left. -/
theorem make_root (htree : fs.IsTree) (hwork : HasPath fs.workingDirectory)
    (hentry : entry.isAbsolute = false) :
    (∀ b, make fs.moduleStore (ofLocation fs.workingDirectory) entry = .ok b →
      (b.modules.map fs.place).Nodup) ∧
    ((∀ q, MayAsk fs.moduleStore ((⟨['.']⟩ : Path).join entry).normalize q → fs.LeadsStraight q) →
      SameBundle fs (make fs.moduleStore ⟨['.']⟩ entry)
        (make fs.moduleStore (ofLocation fs.workingDirectory) entry)) := by
  refine ⟨fun b hb ↦ nodup_place_of_isAbsolute rfl hb, fun hasked ↦ ?_⟩
  refine Mirrors.sameBundle hwork (normalize_join_workingDirectory hwork hentry) ?_
  exact mirrors_visit htree hwork hasked (List.forall_mem_nil _)

/-- A project that names a typed module beside it, without its extension. -/
def besides : FileSystem where
  nodes := [(["w".toList], .dir), (["w".toList, "p".toList], .dir),
    (["w".toList, "lib".toList], .dir),
    (["w".toList, "p".toList, "a.js".toList],
      .file (.text "import \"../lib/b\";\nrun();\n".toList)),
    (["w".toList, "lib".toList, "b.ts".toList], .file (.text "const b = 1;\n".toList))]
  workingDirectory := ["w".toList, "p".toList]

theorem make_root_besides :
    (∀ q, MayAsk besides.moduleStore ((⟨['.']⟩ : Path).join ⟨"a.js".toList⟩).normalize q →
      besides.LeadsStraight q) ∧
    SameBundle besides (make besides.moduleStore ⟨['.']⟩ ⟨"a.js".toList⟩)
      (make besides.moduleStore ⟨"/w/p".toList⟩ ⟨"a.js".toList⟩) := by
  have hentry : besides.moduleStore.resolve? ⟨"a.js".toList⟩ =
      some (⟨"a.js".toList⟩, .text "import \"../lib/b\";\nrun();\n".toList) := rfl
  have hspecifiers : besides.moduleStore.specifiers ⟨"a.js".toList⟩ = ["../lib/b".toList] ∧
      besides.moduleStore.specifiers ⟨"../lib/b.ts".toList⟩ = [] := by decide +kernel
  have hreach : ∀ m, besides.moduleStore.Reaches ⟨"a.js".toList⟩ m →
      m ∈ [(⟨"a.js".toList⟩ : Path), ⟨"../lib/b.ts".toList⟩] := by
    refine fun m hm ↦ hm.mem_of_closed List.mem_cons_self ?_
    rintro x hx d ⟨s, hs, content, hd⟩
    simp only [List.mem_cons, List.not_mem_nil, or_false] at hx
    rcases hx with rfl | rfl
    · rw [hspecifiers.1, List.mem_singleton] at hs
      subst hs
      have hb : besides.moduleStore.resolve? (resolveImport ⟨"a.js".toList⟩ "../lib/b".toList) =
          some (⟨"../lib/b.ts".toList⟩, .text "const b = 1;\n".toList) := rfl
      rw [hb] at hd
      obtain ⟨rfl, -⟩ := Prod.mk.inj (Option.some.inj hd)
      decide
    · rw [hspecifiers.2] at hs
      exact absurd hs List.not_mem_nil
  have hasked : ∀ q,
      MayAsk besides.moduleStore ((⟨['.']⟩ : Path).join ⟨"a.js".toList⟩).normalize q →
        besides.LeadsStraight q := by
    rintro q (rfl | ⟨file, content, m, hfile, hm, s, hs, rfl⟩)
    · exact ⟨0, ["a.js".toList], ⟨rfl, by decide, by decide, by decide, by rintro _ _ _ ⟨⟩⟩,
        by decide, by decide⟩
    · obtain ⟨rfl, -⟩ := Prod.mk.inj (Option.some.inj (hfile.symm.trans hentry))
      have hm := hreach m hm
      simp only [List.mem_cons, List.not_mem_nil, or_false] at hm
      rcases hm with rfl | rfl
      · rw [hspecifiers.1, List.mem_singleton] at hs
        subst hs
        refine ⟨1, ["lib".toList, "b".toList], ⟨rfl, by decide, by decide, by decide, ?_⟩,
          by decide, by decide⟩
        rintro n next rest heq -
        obtain ⟨rfl, -⟩ := List.cons.inj heq
        decide
      · rw [hspecifiers.2] at hs
        exact absurd hs List.not_mem_nil
  exact ⟨hasked, (make_root (by decide) (by decide) (by decide)).2 hasked⟩

/-- A project whose module names itself by the name of the working directory. -/
def aroundItself : FileSystem where
  nodes := [(["w".toList], .dir), (["w".toList, "p".toList], .dir),
    (["w".toList, "p".toList, "a.js".toList],
      .file (.text "import \"../p/a.js\";\nrun();\n".toList))]
  workingDirectory := ["w".toList, "p".toList]

theorem make_aroundItself :
    make aroundItself.moduleStore ⟨['.']⟩ ⟨"a.js".toList⟩ = .ok
      { code := "run();\n\nrun();".toList
        isTyped := false
        modules := [⟨"../p/a.js".toList⟩, ⟨"a.js".toList⟩] } := by
  have ha : Script.detachLocal "import \"../p/a.js\";\nrun();\n".toList =
      ⟨["../p/a.js".toList], "run();\n".toList⟩ := by decide +kernel
  have hentry :
      aroundItself.moduleStore.resolve? ((⟨['.']⟩ : Path).join ⟨"a.js".toList⟩).normalize =
        some (⟨"a.js".toList⟩, .text "import \"../p/a.js\";\nrun();\n".toList) := rfl
  have hagain : aroundItself.moduleStore.resolve?
      (resolveImport ⟨"a.js".toList⟩ "../p/a.js".toList) =
        some (⟨"../p/a.js".toList⟩, .text "import \"../p/a.js\";\nrun();\n".toList) := rfl
  have hback : aroundItself.moduleStore.resolve?
      (resolveImport ⟨"../p/a.js".toList⟩ "../p/a.js".toList) =
        some (⟨"../p/a.js".toList⟩, .text "import \"../p/a.js\";\nrun();\n".toList) := rfl
  refine make_eq_ok_iff.mpr
    ⟨⟨"\nrun();\n\nrun();\n".toList, [⟨"../p/a.js".toList⟩, ⟨"a.js".toList⟩]⟩, ?_, by decide⟩
  rw [visit_of_text hentry List.not_mem_nil, ha, bind_eq_ok_iff]
  refine ⟨⟨"\nrun();\n\n".toList, [⟨"../p/a.js".toList⟩]⟩, ?_, by decide +kernel⟩
  refine visitAll_cons_eq_ok_iff.mpr
    ⟨⟨"\nrun();\n".toList, [⟨"../p/a.js".toList⟩]⟩, ?_, ⟨[], []⟩, visitAll.eq_1 .., by decide⟩
  rw [visit_of_text hagain (by decide), ha, bind_eq_ok_iff]
  refine ⟨⟨['\n'], []⟩, ?_, by decide +kernel⟩
  refine visitAll_cons_eq_ok_iff.mpr ⟨⟨[], []⟩, ?_, ⟨[], []⟩, visitAll.eq_1 .., rfl⟩
  exact visit_of_mem hback (by decide)

/-- A path that comes back into the working directory makes a second module of the same file. -/
theorem not_forall_sameBundle :
    ¬∀ (fs : FileSystem) (entry : Path), fs.IsTree → HasPath fs.workingDirectory →
      entry.isAbsolute = false → SameBundle fs (make fs.moduleStore ⟨['.']⟩ entry)
        (make fs.moduleStore (ofLocation fs.workingDirectory) entry) := by
  intro h
  have hsame := h aroundItself ⟨"a.js".toList⟩ (by decide) (by decide) (by decide)
  rw [make_aroundItself] at hsame
  generalize make aroundItself.moduleStore (ofLocation aroundItself.workingDirectory)
    ⟨"a.js".toList⟩ = x at hsame
  match x with
  | .error e => exact hsame
  | .ok b => exact absurd hsame.2.2.2 (by decide)

end Bundle

end PluginPack
