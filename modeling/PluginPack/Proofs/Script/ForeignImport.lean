import PluginPack.Bundle.Basic
import PluginPack.Proofs.Script.KeptDeclaration

/-!
# Foreign imports stay

What becomes of the statements that name a module outside the project. Imports are kept as they
are, in their order: local statements are detached around them, and the passes that remove export
syntax go past them. This holds of lines that begin like an import and are not read as one as well.
Re-exports are not kept, since the last of these passes removes their keyword along with that of
declarations.
-/

namespace PluginPack

open Text

namespace Script

variable {l r s source t : Text} {ls ls' : List Text}

/-! ## Export syntax -/

theorem endsLine_of_exportList? {u : Unit} (h : exportList? (l ++ r) = some (u, r)) :
    EndsLine l r := by
  obtain ⟨a, ha, he⟩ := Option.map_eq_some_iff.mp h
  obtain ⟨c, hc, ha⟩ := Option.bind_eq_some_iff.mp ha
  obtain ⟨d, hd, hr⟩ := Option.bind_eq_some_iff.mp ha
  obtain rfl : a = r := (Prod.mk.inj he).2
  obtain ⟨w, rfl, -, hend⟩ := exists_of_closeLine?_eq_some hr
  obtain ⟨x, hx⟩ : w ++ a <:+ l ++ a :=
    (braces?_suffix hd).trans <| (optionally_suffix
      (fun {_ _} (h : keyword? "type".toList _ = _) ↦ keyword?_suffix h) c).trans <|
      (keyword?_suffix hc).trans (List.dropWhile_suffix _)
  obtain rfl : x ++ w = l := List.append_cancel_right ((List.append_assoc x w a).trans hx)
  exact hend.append_left x

theorem not_opens_export_import (t : Text) : ¬Opens "export".toList ("import".toList ++ t) := by
  rintro ⟨u, hu⟩
  cases hu

/-- A list of exports ends before every line that begins as an import does, if none of its own lines
does. -/
theorem endsBefore_import_of_exportList? {u : Unit} (h : exportList? (l ++ r) = some (u, r))
    (hbelow : LacksBelow "import".toList l) : Marker.EndsBefore "import".toList l r := by
  have hopens : Opens "export".toList (l ++ r) := by
    by_contra hno
    rw [needsWord_exportList?.2 _ hno] at h
    cases h
  have hblank : ∀ c ∈ "import".toList.head?, isBlank c = false := by
    rintro _ ⟨⟩
    rfl
  exact Marker.endsBefore_of_lacksBelow (by decide) (by decide) hblank
    not_opens_export_import hopens hbelow (endsLine_of_exportList? h)

theorem isBlank_of_mem_exportDefault {before : Option Char} {p : Part Text}
    (hp : p ∈ (exportDefault.cutFrom before t).parts) : ∀ c ∈ p.value, isBlank c = true := by
  obtain ⟨b, u, r, hfind, -⟩ := Marker.exists_find?_of_mem_parts hp
  obtain ⟨a, -, he⟩ := Option.map_eq_some_iff.mp (Marker.of_find?_ofLine hfind)
  rw [← (Prod.mk.inj he).1]
  exact fun c hc ↦ List.mem_takeWhile_imp hc

theorem isBlank_of_mem_exportKeyword {before : Option Char} {p : Part Text}
    (hp : p ∈ (exportKeyword.cutFrom before t).parts) : ∀ c ∈ p.value, isBlank c = true := by
  obtain ⟨b, u, r, hfind, -⟩ := Marker.exists_find?_of_mem_parts hp
  obtain ⟨a, -, he⟩ := Option.map_eq_some_iff.mp (Marker.of_find?_ofLine hfind)
  rw [← (Prod.mk.inj he).1]
  exact fun c hc ↦ List.mem_takeWhile_imp hc

/-! ## Statements that stand in a script -/

/-- Statements stand in a script in their order, one behind the other. Each begins where a line
does, perhaps after blanks, and goes on to the end of a line. -/
inductive Stands : List Text → Text → Prop where
  | nil (t : Text) : Stands [] t
  | cons {a l t : Text} {ls : List Text} (hbegin : BeginsLine a) (hrest : Stands ls t)
    (hend : EndsLine l t) : Stands (l :: ls) (a ++ (l ++ t))

theorem Stands.append_left {a : Text} (ha : BeginsLine a) (h : Stands ls t) :
    Stands ls (a ++ t) := by
  cases h with
  | nil => exact .nil _
  | cons hbegin hrest hend =>
    rw [← List.append_assoc]
    exact .cons (ha.trans hbegin) hrest hend

theorem Stands.eq_nil (hne : ∀ l ∈ ls, l ≠ []) (h : Stands ls []) : ls = [] := by
  generalize ht : ([] : Text) = t at h
  cases h with
  | nil => rfl
  | cons _ _ _ =>
    have hl := (List.forall_mem_cons.mp hne).1
    simp [List.nil_eq, hl] at ht

/-- Statements stand in a script also when others are left out. -/
theorem Stands.sublist (hsub : ls'.Sublist ls) (hne : ∀ l ∈ ls, l ≠ []) (h : Stands ls t) :
    Stands ls' t := by
  induction h generalizing ls' with
  | nil t =>
    rw [List.sublist_nil.mp hsub]
    exact .nil t
  | @cons a l t ls hbegin hrest hend ih =>
    obtain ⟨-, hls⟩ := List.forall_mem_cons.mp hne
    cases hsub with
    | cons_cons _ hsub => exact .cons hbegin (ih hsub hls) hend
    | cons _ hsub =>
      rcases hend with hlast | rfl
      · have hl : BeginsLine l := beginsLine_of_getLast? (by rw [hlast]; rfl)
        exact ((ih hsub hls).append_left hl).append_left hbegin
      · rw [hrest.eq_nil hls] at hsub
        rw [List.sublist_nil.mp hsub]
        exact .nil _

/-- Statements that begin with another keyword go through a pass that leaves blanks, if every part
that is found ends before the lines that begin with that keyword. -/
theorem Stands.substitute {α : Type} {step : Text → Option (α × Text)}
    {hstep : ∀ {t a r}, step t = some (a, r) → r <:+ t ∧ r.length < t.length} {k k' : Text}
    (hk : Marker.NeedsWord step k) (hk' : k' ≠ []) (hkk' : ∀ t, ¬Opens k (k' ++ t))
    {f : Part α → Text} (hls : ∀ l ∈ ls, k' <+: l ∧ LacksBelow k l) (h : Stands ls t)
    {before : Option Char}
    (hends : ∀ p ∈ ((Marker.ofLine step hstep).cutFrom before t).parts, ∀ r,
      step (p.lexeme ++ r) = some (p.value, r) → Marker.EndsBefore k' p.lexeme r)
    (hf : ∀ p ∈ ((Marker.ofLine step hstep).cutFrom before t).parts, ∀ c ∈ f p,
      isBlank c = true) :
    Stands ls (((Marker.ofLine step hstep).cutFrom before t).substitute f) := by
  induction h generalizing before with
  | nil t => exact .nil _
  | @cons a l t ls hbegin hrest hend ih =>
    obtain ⟨⟨⟨s, hs⟩, hbelow⟩, hls⟩ := List.forall_mem_cons.mp hls
    have hopens : ∀ t, ¬Opens k (l ++ t) := by
      intro t
      rw [← hs, List.append_assoc]
      exact hkk' (s ++ t)
    have hne : l ≠ [] := fun hnil ↦ hk' (List.append_eq_nil_iff.mp (hs.trans hnil)).1
    have hpass : ∀ b, (Marker.ofLine step hstep).cutFrom b (l ++ t) =
        ((Marker.ofLine step hstep).cutFrom l.getLast? t).prepend l :=
      fun b ↦ hk.cutFrom_append hne (fun _ ↦ hopens t) hbelow hend
    have hx : Marker.beginsLine before = true → BeginsLine [] := fun _ ↦ beginsLine_nil
    have hxy : BeginsLine [] → BeginsLine [] := id
    obtain ⟨⟨a', ha', hcut⟩, hsub⟩ := Marker.exists_substitute_ofLine_append ⟨s, hs⟩ hpass a hx hxy
      hbegin hends hf
    rw [hcut]
    refine .cons ha' (ih hls (fun p hp ↦ hends p (hsub hp)) fun p hp ↦ hf p (hsub hp)) ?_
    refine hend.imp_right ?_
    rintro rfl
    rw [Marker.cutFrom_nil]
    rfl

/-! ## Imports that are left -/

/-- The lines of a text, each with the newline behind it. -/
def fullLines (t : Text) : List Text :=
  (splitNewlines t).dropLast.map (· ++ ['\n']) ++ (splitNewlines t).getLast?.toList

/-- What a text begins with behind blanks, if it begins as an import does. -/
def importFrom? (t : Text) : Option Text :=
  if Opens "import".toList t then some (t.dropWhile isBlank) else none

/-- The lines of a text that begin as an import does, each from its keyword on. -/
def importLines (t : Text) : List Text := (fullLines t).filterMap importFrom?

/-- The statement of a part from its keyword on, if it imports a module from outside the project. -/
def foreignImport? (p : Part Text) : Option Text :=
  if "import".toList <+: p.lexeme.dropWhile isBlank ∧ isLocalSpecifier p.value = false then
    some (p.lexeme.dropWhile isBlank)
  else none

/-- The imports of a script that name modules outside the project, each from its keyword to the end
of its last line. -/
def foreignImports (source : Text) : List Text :=
  (dependency.findAll source).filterMap foreignImport?

/-- The imports in a script that is cut at its statements, apart from local ones: the statements
among the parts, and the lines of plain text that begin as an import does. -/
def importsLeft (k : Cut (Part Text)) : List Text :=
  importLines k.first ++ k.rest.flatMap fun q ↦ (foreignImport? q.1).toList ++ importLines q.2

/-- The imports of a script that are not local, in their order. An import that is read as a
statement goes on to the end of its last line, one that is not read is known by its first line. -/
def keptImports (source : Text) : List Text := importsLeft (dependency.cut source)

theorem fullLines_append (hl : '\n' ∉ l) (r : Text) :
    fullLines (l ++ '\n' :: r) = (l ++ ['\n']) :: fullLines r := by
  obtain ⟨m, ms, hr⟩ := List.exists_cons_of_ne_nil (splitNewlines_ne_nil r)
  rw [fullLines, splitNewlines_append hl, hr, List.dropLast_cons_cons, List.getLast?_cons_cons,
    fullLines, hr]
  rfl

theorem importLines_append (hl : '\n' ∉ l) (r : Text) :
    importLines (l ++ '\n' :: r) = (importFrom? (l ++ ['\n'])).toList ++ importLines r := by
  rw [importLines, fullLines_append hl, importLines]
  cases h : importFrom? (l ++ ['\n']) with
  | none => rw [List.filterMap_cons_none h]; rfl
  | some m => rw [List.filterMap_cons_some h]; rfl

theorem importLines_line (hl : '\n' ∉ l) : importLines l = (importFrom? l).toList := by
  rw [importLines, fullLines, splitNewlines_eq_singleton hl]
  cases h : importFrom? l with
  | none => exact List.filterMap_cons_none h
  | some m => exact List.filterMap_cons_some h

theorem importsLeft_mark (p : Part Text) (k : Cut (Part Text)) :
    importsLeft (k.mark p) = (foreignImport? p).toList ++ importsLeft k := by
  rw [importsLeft, Cut.mark, List.flatMap_cons, List.append_assoc]
  rfl

theorem importsLeft_prepend (hl : '\n' ∉ l) (k : Cut (Part Text)) :
    importsLeft (k.prepend (l ++ ['\n'])) =
      (importFrom? (l ++ ['\n'])).toList ++ importsLeft k := by
  have hfirst : (k.prepend (l ++ ['\n'])).first = l ++ '\n' :: k.first := by
    rw [Cut.prepend, List.append_assoc]
    rfl
  rw [importsLeft, hfirst, importLines_append hl, List.append_assoc]
  rfl

theorem ne_nil_of_opens {k : Text} (hk : k ≠ []) (h : Opens k t) : t.dropWhile isBlank ≠ [] := by
  intro hnil
  rw [Opens, hnil] at h
  exact hk (List.prefix_nil.mp h)

/-- Whole lines stand where they stood, if they begin as an import does. -/
theorem stands_importFrom? (hend : l.getLast? = some '\n' ∨ ls = [] ∧ t = []) (h : Stands ls t) :
    Stands ((importFrom? l).toList ++ ls) (l ++ t) := by
  rw [importFrom?]
  split
  · next hopens =>
    have hsplit : l.takeWhile isBlank ++ l.dropWhile isBlank = l := List.takeWhile_append_dropWhile
    have hbegin : BeginsLine (l.takeWhile isBlank) :=
      beginsLine_nil.append_blanks fun c hc ↦ List.mem_takeWhile_imp hc
    have hclose : EndsLine (l.takeWhile isBlank ++ l.dropWhile isBlank) t := by
      rw [hsplit]
      exact hend.imp_right And.right
    conv => rhs; rw [← hsplit, List.append_assoc]
    exact .cons hbegin h (hclose.of_suffix (ne_nil_of_opens (by decide) hopens))
  · rcases hend with hlast | ⟨rfl, -⟩
    · exact h.append_left (beginsLine_of_getLast? (by rw [hlast]; rfl))
    · exact .nil _

theorem foreignImport?_of_not_local {p : Part Text} (h : isLocalSpecifier p.value = false) :
    foreignImport? p = importFrom? p.lexeme := by
  rw [foreignImport?, importFrom?]
  exact if_congr (and_iff_left h) rfl rfl

/-- A line at which no statement begins is passed over. -/
theorem cutFrom_dependency_line {before : Option Char} (hl : '\n' ∉ l)
    (hnone : Marker.beginsLine before = true → dependency? (l ++ ['\n'] ++ r) = none) :
    dependency.cutFrom before (l ++ ['\n'] ++ r) = (dependency.cut r).prepend (l ++ ['\n']) := by
  rw [dependency, Marker.cutFrom_ofLine_append (by simp) hnone fun u v huv hv ↦
    absurd (Marker.eq_nil_of_append_newline hl huv) hv, List.getLast?_concat,
    Marker.cutFrom_ofLine_eq_cut rfl]

theorem cutFrom_dependency_last {before : Option Char} (hl : '\n' ∉ l)
    (hnone : Marker.beginsLine before = true → dependency? l = none) :
    dependency.cutFrom before l = Cut.empty.prepend l := by
  by_cases hne : l = []
  · rw [hne, Marker.cutFrom_nil]
    rfl
  · have hpass : dependency.cutFrom before (l ++ []) =
        (dependency.cutFrom l.getLast? []).prepend l :=
      Marker.cutFrom_ofLine_append hne (by rwa [List.append_nil]) fun u v huv _ ↦
        absurd (huv ▸ List.mem_append_right u List.mem_cons_self) hl
    rwa [List.append_nil, Marker.cutFrom_nil] at hpass

/-- Detaching the local statements of a script leaves its other imports standing. -/
theorem stands_importsLeft (before : Option Char) (t : Text) :
    Stands (importsLeft (dependency.cutFrom before t))
      ((dependency.cutFrom before t).substitute keepForeign) := by
  -- A script is read line by line, and a statement in one go with all its lines.
  induction hn : t.length using Nat.strongRecOn generalizing before t with
  | ind n ih =>
    subst hn
    cases h : dependency.find? before t with
    | some q =>
      obtain ⟨v, r⟩ := q
      have hsplit := Marker.consumed_append (dependency.suffix h)
      have hnames := names_of_dependency? (Marker.of_find?_ofLine h)
      rw [← hsplit] at hnames
      have hend := hnames.endsLine
      rw [Marker.cutFrom_of_some _ h, Cut.substitute_mark, importsLeft_mark]
      set l := Marker.consumed t r
      have hrest := ih r.length (dependency.shorter h) l.getLast? r rfl
      cases hlocal : isLocalSpecifier v with
      | true =>
        rw [foreignImport?, if_neg (by simp [hlocal]), keepForeign, if_pos hlocal]
        exact hrest
      | false =>
        rw [foreignImport?_of_not_local hlocal, keepForeign, if_neg (by simp [hlocal])]
        refine stands_importFrom? (hend.imp_right ?_) hrest
        rintro rfl
        rw [Marker.cutFrom_nil]
        exact ⟨rfl, rfl⟩
    | none =>
      by_cases hmem : '\n' ∈ t
      · obtain ⟨l, r, rfl, hl⟩ := List.eq_append_cons_of_mem hmem
        have hsplit : l ++ '\n' :: r = l ++ ['\n'] ++ r := by simp
        rw [hsplit] at h ⊢
        have hnone : Marker.beginsLine before = true → dependency? (l ++ ['\n'] ++ r) = none :=
          fun hb ↦ (Marker.find?_ofLine hb _).symm.trans h
        rw [cutFrom_dependency_line hl hnone, importsLeft_prepend hl, Cut.substitute_prepend]
        have hshort : r.length < (l ++ '\n' :: r).length := by
          rw [List.length_append, List.length_cons]
          omega
        exact stands_importFrom? (.inl List.getLast?_concat) (ih _ hshort none r rfl)
      · have hnone : Marker.beginsLine before = true → dependency? t = none :=
          fun hb ↦ (Marker.find?_ofLine hb _).symm.trans h
        rw [cutFrom_dependency_last hmem hnone, Cut.substitute_prepend]
        have hleft : importsLeft (Cut.empty.prepend t) = (importFrom? t).toList ++ [] := by
          rw [importsLeft, Cut.prepend, Cut.empty, List.append_nil, importLines_line hmem]
          rfl
        rw [hleft]
        exact stands_importFrom? (.inr ⟨rfl, rfl⟩) (.nil _)

theorem foreignImports_sublist (source : Text) :
    (foreignImports source).Sublist (keptImports source) := by
  have hrest : ∀ rest : List (Part Text × Text),
      ((rest.map (·.1)).filterMap foreignImport?).Sublist
        (rest.flatMap fun q ↦ (foreignImport? q.1).toList ++ importLines q.2) := by
    intro rest
    induction rest with
    | nil => exact .slnil
    | cons q rest ih =>
      have hlater := ih.trans (List.sublist_append_right (importLines q.2) _)
      rw [List.map_cons, List.flatMap_cons, List.append_assoc]
      cases h : foreignImport? q.1 with
      | none =>
        rw [List.filterMap_cons_none h]
        exact hlater
      | some l =>
        rw [List.filterMap_cons_some h]
        exact hlater.cons_cons l
  exact (hrest _).trans (List.sublist_append_right _ _)

theorem eq_dropWhile_of_importFrom? {m : Text} (h : importFrom? l = some m) :
    "import".toList <+: m ∧ m = l.dropWhile isBlank := by
  rw [importFrom?] at h
  split at h
  · next hopens =>
    cases h
    exact ⟨hopens, rfl⟩
  · cases h

/-- Below the one line of such an import no other line begins. -/
theorem lacksBelow_of_mem_importLines (h : l ∈ importLines t) :
    "import".toList <+: l ∧ LacksBelow "export".toList l := by
  induction hn : t.length using Nat.strongRecOn generalizing t with
  | ind n ih =>
    subst hn
    by_cases hmem : '\n' ∈ t
    · obtain ⟨w, r, rfl, hw⟩ := List.eq_append_cons_of_mem hmem
      rw [importLines_append hw] at h
      rcases List.mem_append.mp h with h | h
      · obtain ⟨himport, rfl⟩ := eq_dropWhile_of_importFrom? (Option.mem_toList.mp h)
        have hline : '\n' ∉ w.dropWhile isBlank := fun h ↦ hw ((List.dropWhile_suffix _).subset h)
        refine ⟨himport, ?_⟩
        rw [dropWhile_isBlank_append_cons (by decide)]
        exact (lacksBelow_of_not_mem hline).append_newline (by decide)
      · refine ih r.length ?_ h rfl
        rw [List.length_append, List.length_cons]
        omega
    · rw [importLines_line hmem] at h
      obtain ⟨himport, rfl⟩ := eq_dropWhile_of_importFrom? (Option.mem_toList.mp h)
      exact ⟨himport, lacksBelow_of_not_mem fun h ↦ hmem ((List.dropWhile_suffix _).subset h)⟩

theorem import_prefix_of_mem_foreignImports (h : l ∈ foreignImports source) :
    "import".toList <+: l := by
  obtain ⟨p, -, hp⟩ := List.mem_filterMap.mp h
  rw [foreignImport?] at hp
  split at hp
  · next hif =>
    cases hp
    exact hif.1
  · cases hp

theorem lacksBelow_of_mem_keptImports
    (hbelow : ∀ l ∈ foreignImports source, LacksBelow "export".toList l)
    (h : l ∈ keptImports source) : "import".toList <+: l ∧ LacksBelow "export".toList l := by
  rcases List.mem_append.mp h with h | h
  · exact lacksBelow_of_mem_importLines h
  · obtain ⟨q, hq, h⟩ := List.mem_flatMap.mp h
    rcases List.mem_append.mp h with h | h
    · have hl : l ∈ foreignImports source :=
        List.mem_filterMap.mpr ⟨q.1, List.mem_map_of_mem hq, Option.mem_toList.mp h⟩
      exact ⟨import_prefix_of_mem_foreignImports hl, hbelow l hl⟩
    · exact lacksBelow_of_mem_importLines h

/-! ## Foreign imports -/

/-- **Foreign imports stay.** The imports that are not local stand in the body of a module as they
stand in its source, from their keywords on and in their order: those from outside the project, to
the ends of their last lines, and the first lines of those that are not read as statements. No line
within a statement must begin with `export`, and no line within a list of exports that is removed
with `import`. -/
theorem stands_foreignImports_body
    (hbelow : ∀ l ∈ foreignImports source, LacksBelow "export".toList l)
    (hlists : ∀ p ∈ exportList.findAll (withoutDefaults source),
      LacksBelow "import".toList p.lexeme) :
    Stands (foreignImports source) (Bundle.body source) ∧
      Stands (keptImports source) (Bundle.body source) := by
  have hls : ∀ l ∈ keptImports source, "import".toList <+: l ∧ LacksBelow "export".toList l :=
    fun l hl ↦ lacksBelow_of_mem_keptImports hbelow hl
  have hdetached : Stands (keptImports source) (detachLocal source).code :=
    stands_importsLeft none source
  have hdefault : Stands (keptImports source) (withoutDefaults source) :=
    hdetached.substitute needsWord_exportDefault? (by decide) not_opens_export_import hls
      (fun p hp r _ ↦ (isExportWord_of_mem_exportDefault hp).misses_import.endsBefore r)
      fun p hp ↦ isBlank_of_mem_exportDefault hp
  have hlist : Stands (keptImports source) (exportList.erase (withoutDefaults source)) :=
    hdefault.substitute needsWord_exportList? (by decide) not_opens_export_import hls
      (fun p hp r hread ↦ endsBefore_import_of_exportList? hread (hlists p hp))
      fun p hp c hc ↦ absurd hc List.not_mem_nil
  have hbody : Stands (keptImports source) (Bundle.body source) :=
    hlist.substitute needsWord_exportKeyword? (by decide) not_opens_export_import hls
      (fun p hp r _ ↦ (isExportWord_of_mem_exportKeyword hp).misses_import.endsBefore r)
      fun p hp ↦ isBlank_of_mem_exportKeyword hp
  have hne : ∀ l ∈ keptImports source, l ≠ [] := by
    rintro l hl rfl
    exact absurd (hls [] hl).1 (by decide)
  exact ⟨hbody.sublist (foreignImports_sublist source) hne, hbody⟩

/-- Imports around a local one, with a default export and a list of exports behind them. The names
of the list begin like an import, and one import is not read as a statement. -/
def fourModules : Text :=
  "import a from \"a\";\n".toList ++ "import './b';\n".toList ++
    " import \x7bc,\nd\x7d from 'c'\n".toList ++ "import e from 'e'; // e\n".toList ++
    "export default a;\n".toList ++ "export \x7bc as imported\x7d;\n".toList

theorem stands_foreignImports_fourModules :
    foreignImports fourModules =
        ["import a from \"a\";\n".toList, "import \x7bc,\nd\x7d from 'c'\n".toList] ∧
      keptImports fourModules =
        ["import a from \"a\";\n".toList, "import \x7bc,\nd\x7d from 'c'\n".toList,
          "import e from 'e'; // e\n".toList] ∧
      Bundle.body fourModules =
        "import a from \"a\";\n".toList ++ " import \x7bc,\nd\x7d from 'c'\n".toList ++
          "import e from 'e'; // e\n".toList ++ "a;\n".toList ∧
      Stands (foreignImports fourModules) (Bundle.body fourModules) ∧
      Stands (keptImports fourModules) (Bundle.body fourModules) := by
  refine ⟨by decide +kernel, by decide +kernel, by decide +kernel, ?_⟩
  exact stands_foreignImports_body (by decide +kernel) (by decide +kernel)

/-! ## Foreign re-exports -/

/-- Not every statement that names a module outside the project is kept. -/
theorem not_forall_foreign_kept :
    ¬∀ source, ∀ p ∈ dependency.findAll source, isLocalSpecifier p.value = false →
      p.lexeme <:+: Bundle.body source := fun h ↦
  absurd (h "export * from \"lodash\";\n".toList) (by decide +kernel)

theorem detachLocal_code_append {l : Text} (hl : l.getLast? = some '\n')
    (h : dependency? (l ++ r) = some (s, r)) (hs : isLocalSpecifier s = false) :
    (detachLocal (l ++ r)).code = l ++ (detachLocal r).code := by
  have hfind : dependency.find? none (l ++ r) = some (s, r) := h
  rw [detachLocal, Marker.cut, Marker.cutFrom_of_some _ hfind, Cut.substitute_mark,
    Marker.consumed_left, hl, keepForeign, hs, if_neg Bool.false_ne_true]
  rw [dependency, Marker.cutFrom_ofLine_eq_cut rfl]
  rfl

/-- **Foreign re-exports lose their keyword.** Where a script begins with a re-export of all that a
module outside the project exports, its body begins with what is left without `export`. -/
theorem body_reexportAll {y rest : Text} (hy : '\n' ∉ y)
    (h : dependency? ("export *".toList ++ y ++ ['\n'] ++ rest) = some (s, rest))
    (hs : isLocalSpecifier s = false) :
    Bundle.body ("export *".toList ++ y ++ ['\n'] ++ rest) =
      '*' :: y ++ ['\n'] ++ Bundle.body rest := by
  have hline : '\n' ∉ "export *".toList ++ y := by
    rw [List.mem_append, not_or]
    exact ⟨by decide, hy⟩
  have hdefault : ∀ r, exportDefault.replace id ("export *".toList ++ y ++ ['\n'] ++ r) =
      "export *".toList ++ y ++ ['\n'] ++ exportDefault.replace id r :=
    fun r ↦ Marker.substitute_cutFrom_line id hline fun _ ↦ rfl
  have hlist : ∀ r, exportList.erase ("export *".toList ++ y ++ ['\n'] ++ r) =
      "export *".toList ++ y ++ ['\n'] ++ exportList.erase r :=
    fun r ↦ Marker.substitute_cutFrom_line (fun _ ↦ []) hline fun _ ↦ rfl
  have hkeyword : ∀ r, exportKeyword.replace id ("export *".toList ++ y ++ ['\n'] ++ r) =
      '*' :: y ++ ['\n'] ++ exportKeyword.replace id r := by
    intro r
    have hfind : exportKeyword.find? none ("export ".toList ++ ('*' :: y ++ ['\n'] ++ r)) =
        some ([], '*' :: y ++ ['\n'] ++ r) := rfl
    have hstar : '\n' ∉ '*' :: y := fun hmem ↦ (List.mem_cons.mp hmem).elim (by decide) hy
    have htext : "export *".toList ++ y ++ ['\n'] ++ r =
        "export ".toList ++ ('*' :: y ++ ['\n'] ++ r) := by
      simp only [String.reduceToList, List.append_assoc, List.cons_append, List.nil_append]
    rw [htext, Marker.replace, Marker.cut, Marker.cutFrom_of_some _ hfind, Cut.substitute_mark,
      Marker.consumed_left]
    exact Marker.substitute_cutFrom_line id hstar fun hblank ↦ absurd hblank (by decide)
  have hend : ("export *".toList ++ y ++ ['\n']).getLast? = some '\n' := List.getLast?_concat ..
  rw [Bundle.body, detachLocal_code_append hend h hs, eraseExports, hdefault, hlist, hkeyword]
  rfl

end Script

end PluginPack
