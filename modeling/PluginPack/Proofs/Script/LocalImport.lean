import PluginPack.Proofs.Bundle.Assembly
import PluginPack.Proofs.Script.ImportLayout

/-!
# Which local imports leave a script

A script made of import statements in any layout, between lines of other code. Its body is this
script without the local imports in a plain layout: a local import in another layout stays in the
bundle, and the module that it names is not asked for.
-/

namespace PluginPack

open Text

namespace Script

/-! ## Scripts with imports -/

/-- A piece of a script: a line of other code, or an import statement. -/
inductive Chunk where
  | line (t : Text)
  | imports (s : ImportLayout)
deriving DecidableEq, Repr

namespace Chunk

def text : Chunk → Text
  | line t => t ++ ['\n']
  | imports s => s.text ++ ['\n']

/-- Other code does not begin as an import or an export does. -/
def IsWellFormed : Chunk → Prop
  | line t => '\n' ∉ t ∧ ¬Opens "import".toList t ∧ ¬Opens "export".toList t
  | imports s => s.IsWellFormed

instance : (c : Chunk) → Decidable c.IsWellFormed
  | line _ => inferInstanceAs (Decidable (_ ∧ _ ∧ _))
  | imports s => inferInstanceAs (Decidable s.IsWellFormed)

/-- A local import in a plain layout. -/
def IsDetached : Chunk → Prop
  | line _ => False
  | imports s => s.IsPlain ∧ isLocalSpecifier s.specifier = true

instance : (c : Chunk) → Decidable c.IsDetached
  | line _ => inferInstanceAs (Decidable False)
  | imports _ => inferInstanceAs (Decidable (_ ∧ _))

end Chunk

/-- The text of a script. -/
def render (cs : List Chunk) : Text := cs.flatMap Chunk.text

/-! ## Detaching -/

variable {c : Chunk} {cs : List Chunk} {s : ImportLayout} {r t : Text}

theorem dependency?_eq_none (himport : ¬Opens "import".toList t)
    (hexport : ¬Opens "export".toList t) : dependency? t = none := by
  rw [dependency?, importStatement?, reexportStatement?, keyword?_eq_none himport,
    keyword?_eq_none hexport]
  rfl

theorem getLast?_text (c : Chunk) : c.text.getLast? = some '\n' := by
  cases c <;> exact List.getLast?_concat ..

theorem lacksBelow_text (hc : c.IsWellFormed) :
    LacksBelow "import".toList c.text ∧ LacksBelow "export".toList c.text := by
  cases c with
  | line t =>
    exact ⟨(lacksBelow_of_not_mem hc.1).append_newline (by decide),
      (lacksBelow_of_not_mem hc.1).append_newline (by decide)⟩
  | imports s =>
    exact ⟨hc.lacksImport.append_newline (by decide), hc.lacksExport.append_newline (by decide)⟩

theorem not_opens_export_text (hc : c.IsWellFormed) : ¬Opens "export".toList c.text := by
  cases c with
  | line t => exact mt (opens_append_newline (by decide)).mp hc.2.2
  | imports s =>
    have hopen : Stops isBlank ("import".toList ++ (s.gap ++ (s.head.text ++ s.source))) :=
      stops_cons.mpr (by decide)
    refine mt (opens_append_newline (by decide)).mp ?_
    rw [Opens, ImportLayout.text, dropWhile_append_eq hc.indent hopen]
    rintro ⟨u, hu⟩
    cases hu

theorem lacks_export_text (hc : c.IsWellFormed) : Lacks "export".toList c.text :=
  (lacksBelow_text hc).2.lacks_of_not_opens (by decide) (not_opens_export_text hc)

/-- Where no statement begins a chunk, there is none in it. -/
theorem cut_chunk_of_eq_none (hc : c.IsWellFormed) (h : dependency? (c.text ++ r) = none) :
    dependency.cut (c.text ++ r) = (dependency.cut r).prepend c.text := by
  have hne : c.text ≠ [] := fun hnil ↦ by
    have hlast := getLast?_text c
    rw [hnil] at hlast
    cases hlast
  obtain ⟨himport, hexport⟩ := lacksBelow_text hc
  have hend : EndsLine c.text r := .inl (getLast?_text c)
  have hbelow : ∀ u v, c.text = u ++ '\n' :: v → v ≠ [] → dependency? (v ++ r) = none := by
    intro u v huv hv
    rw [huv] at himport hexport hend
    exact dependency?_eq_none (himport.not_opens_append (by decide) hv hend)
      (hexport.not_opens_append (by decide) hv hend)
  rw [Marker.cut, dependency, Marker.cutFrom_ofLine_append hne (fun _ ↦ h) hbelow, getLast?_text,
    Marker.cutFrom_ofLine_eq_cut rfl]

/-- A chunk is one statement, or there is none in it. -/
theorem cut_chunk (hc : c.IsWellFormed) (r : Text) :
    dependency.cut (c.text ++ r) = (dependency.cut r).prepend c.text ∧ ¬c.IsDetached ∨
      ∃ s, c = .imports s ∧ s.IsPlain ∧
        dependency.cut (c.text ++ r) = (dependency.cut r).mark ⟨c.text, s.specifier⟩ := by
  cases c with
  | line t =>
    have hopens : ∀ {k : Text}, '\n' ∉ k → ¬Opens k t → ¬Opens k (t ++ ['\n'] ++ r) := by
      intro k hk ht
      rw [List.append_assoc, List.singleton_append, opens_append_newline hk]
      exact ht
    exact .inl ⟨cut_chunk_of_eq_none hc (dependency?_eq_none (hopens (by decide) hc.2.1)
      (hopens (by decide) hc.2.2)), not_false⟩
  | imports s =>
    have htext : (Chunk.imports s).text ++ r = s.text ++ '\n' :: r := by
      rw [Chunk.text, List.append_assoc, List.singleton_append]
    have hread := ImportLayout.dependency?_text (r := r) hc (.inl rfl)
    rw [← htext] at hread
    by_cases hplain : s.IsPlain
    · rw [if_pos hplain] at hread
      have hfind : dependency.find? none ((Chunk.imports s).text ++ r) = some (s.specifier, r) :=
        hread
      refine .inr ⟨s, rfl, hplain, ?_⟩
      rw [Marker.cut, Marker.cutFrom_of_some _ hfind, Marker.consumed_left, getLast?_text,
        dependency, Marker.cutFrom_ofLine_eq_cut rfl]
    · rw [if_neg hplain] at hread
      exact .inl ⟨cut_chunk_of_eq_none hc hread, fun h ↦ hplain h.1⟩

theorem substitute_cut_chunk (hc : c.IsWellFormed) (r : Text) :
    (dependency.cut (c.text ++ r)).substitute keepForeign =
      (if c.IsDetached then [] else c.text) ++ (dependency.cut r).substitute keepForeign := by
  rcases cut_chunk hc r with ⟨hcut, hstays⟩ | ⟨s, rfl, hplain, hcut⟩
  · rw [hcut, Cut.substitute_prepend, if_neg hstays]
  · rw [hcut, Cut.substitute_mark, keepForeign]
    by_cases hlocal : isLocalSpecifier s.specifier = true
    · rw [if_pos hlocal, if_pos ⟨hplain, hlocal⟩]
    · rw [if_neg hlocal, if_neg fun h ↦ hlocal h.2]

/-- The local imports in a plain layout are detached, and nothing else. -/
theorem detachLocal_render_code (hcs : ∀ c ∈ cs, c.IsWellFormed) (rest : Text) :
    (detachLocal (render cs ++ rest)).code =
      render (cs.filter fun c ↦ ¬c.IsDetached) ++ (detachLocal rest).code := by
  induction cs with
  | nil => rfl
  | cons c cs ih =>
    have hcode : ∀ t, (detachLocal t).code = (dependency.cut t).substitute keepForeign :=
      fun _ ↦ rfl
    have hrest := ih fun d hd ↦ hcs d (List.mem_cons_of_mem c hd)
    rw [hcode] at hrest
    rw [hcode, render, List.flatMap_cons, List.append_assoc,
      substitute_cut_chunk (hcs c List.mem_cons_self), ← render, hrest, List.filter_cons]
    by_cases hc : c.IsDetached
    · simp [hc]
    · simp [hc, render]

theorem mem_map_value_parts_cut (hcs : ∀ c ∈ cs, c.IsWellFormed) (rest : Text)
    (hs : .imports s ∈ cs) (hplain : (Chunk.imports s).IsDetached) :
    s.specifier ∈ (dependency.cut (render cs ++ rest)).parts.map Part.value := by
  induction cs with
  | nil => exact absurd hs List.not_mem_nil
  | cons c cs ih =>
    have hrest : .imports s ∈ cs →
        s.specifier ∈ (dependency.cut (render cs ++ rest)).parts.map Part.value :=
      ih fun d hd ↦ hcs d (List.mem_cons_of_mem c hd)
    rw [render, List.flatMap_cons, List.append_assoc, ← render]
    rcases cut_chunk (hcs c List.mem_cons_self) (render cs ++ rest) with
      ⟨hcut, hstays⟩ | ⟨s', rfl, -, hcut⟩
    · rw [hcut, Cut.parts_prepend]
      refine hrest ((List.mem_cons.mp hs).resolve_left ?_)
      rintro rfl
      exact hstays hplain
    · rw [hcut, Cut.parts_mark, List.map_cons, List.mem_cons]
      rcases List.mem_cons.mp hs with heq | hs
      · cases heq
        exact .inl rfl
      · exact .inr (hrest hs)

theorem mem_specifiers_of_isDetached (hcs : ∀ c ∈ cs, c.IsWellFormed) (rest : Text)
    (hs : .imports s ∈ cs) (hd : (Chunk.imports s).IsDetached) :
    s.specifier ∈ (detachLocal (render cs ++ rest)).specifiers :=
  List.mem_eraseDups.mpr (List.mem_filter.mpr ⟨mem_map_value_parts_cut hcs rest hs hd, hd.2⟩)

theorem eraseExports_render (hcs : ∀ c ∈ cs, c.IsWellFormed) (r : Text) :
    eraseExports (render cs ++ r) = render cs ++ eraseExports r := by
  induction cs with
  | nil => rfl
  | cons c cs ih =>
    rw [render, List.flatMap_cons, List.append_assoc, ← render,
      eraseExports_append (lacks_export_text (hcs c List.mem_cons_self)) (.inr (getLast?_text c)),
      ih fun d hd ↦ hcs d (List.mem_cons_of_mem c hd), List.append_assoc]

/-- The body of a script is the script without the local imports in a plain layout. -/
theorem body_render (hcs : ∀ c ∈ cs, c.IsWellFormed) (rest : Text) :
    Bundle.body (render cs ++ rest) =
      render (cs.filter fun c ↦ ¬c.IsDetached) ++ Bundle.body rest := by
  rw [Bundle.body, detachLocal_render_code hcs,
    eraseExports_render fun c hc ↦ hcs c (List.mem_of_mem_filter hc)]
  rfl

end Script

namespace Bundle

open Script

variable {store : ModuleStore} {root entry m : Path} {b : Bundle}

/-! ## Bundles -/

theorem exists_code_eq_of_mem (h : make store root entry = .ok b) (hm : m ∈ b.modules)
    (htyped : b.isTyped = false) :
    ∃ before behind, b.code = trim (before ++ body (store.source m) ++ behind) := by
  obtain ⟨l, hmodules, -, hcode⟩ := exists_layout_of_make h
  obtain ⟨front, rest, -, -, htext⟩ := Layout.exists_of_mem store (hmodules ▸ hm)
  refine ⟨front.text store, rest, ?_⟩
  rw [hcode, htyped, if_neg Bool.false_ne_true, htext, List.append_assoc]

/-- **Which local imports leave a bundle.** Let a module of a bundle be made of import statements
in any layout, lines of other code, and a rest. The local imports in a plain layout are gone from
the body of the module, and what they name is in the bundle. All other statements stay as they
are, in the body of the module and so in the code of an untyped bundle, local or not. -/
theorem local_imports_of_make (h : make store root entry = .ok b) (hm : m ∈ b.modules)
    {cs : List Chunk} {rest : Text} (hsource : store.source m = render cs ++ rest)
    (hcs : ∀ c ∈ cs, c.IsWellFormed) :
    (∀ s, .imports s ∈ cs → s.IsPlain → isLocalSpecifier s.specifier = true →
        ∃ d content, store.resolve? (resolveImport m s.specifier) = some (d, content) ∧
          d ∈ b.modules) ∧
      body (store.source m) = render (cs.filter fun c ↦ ¬c.IsDetached) ++ body rest ∧
      (b.isTyped = false → ∃ before behind, b.code =
        trim (before ++ (render (cs.filter fun c ↦ ¬c.IsDetached) ++ body rest) ++ behind)) := by
  have hbody : body (store.source m) = render (cs.filter fun c ↦ ¬c.IsDetached) ++ body rest := by
    rw [hsource, body_render hcs]
  refine ⟨fun s hs hplain hlocal ↦ ?_, hbody, fun htyped ↦ ?_⟩
  · obtain ⟨file, hexp⟩ := exists_explores_of_make h
    have hmem : s.specifier ∈ store.specifiers m := by
      rw [ModuleStore.specifiers, hsource]
      exact mem_specifiers_of_isDetached hcs rest hs ⟨hplain, hlocal⟩
    obtain ⟨⟨d, content⟩, hd⟩ :=
      Option.isSome_iff_exists.mp ((hexp.adds.isComplete m hm).resolves _ hmem)
    exact ⟨d, content, hd,
      (hexp.adds.closed hm (.of_resolve? hmem hd)).resolve_left List.not_mem_nil⟩
  · obtain ⟨before, behind, hcode⟩ := exists_code_eq_of_mem h hm htyped
    exact ⟨before, behind, hbody ▸ hcode⟩

/-- An import without white space before `from`. -/
def tightImport : ImportLayout :=
  ⟨[], [' '], .clause none (.binding (.names ['b'])) [] [' '], '"', "./b.js".toList, '"', [';']⟩

def plainImport : ImportLayout := ⟨[], [' '], .nothing, '\'', "./c.js".toList, '\'', []⟩

/-- A module with two local imports. -/
def tightChunks : List Chunk :=
  [.imports tightImport, .imports plainImport, .line "b();".toList]

/-- The module and the two that it names. -/
def tight : ModuleStore :=
  .ofList [(⟨"a.js".toList⟩, .text (render tightChunks)),
    (⟨"b.js".toList⟩, .text "export function b() \x7b\x7d".toList),
    (⟨"c.js".toList⟩, .text "c();".toList)]

theorem make_tight :
    make tight ⟨['.']⟩ ⟨"a.js".toList⟩ = .ok
      { code := "c();\nimport \x7bb\x7dfrom \"./b.js\";\nb();".toList
        isTyped := false
        modules := [⟨"c.js".toList⟩, ⟨"a.js".toList⟩] } := by
  have ha : detachLocal (render tightChunks) =
      ⟨["./c.js".toList], "import \x7bb\x7dfrom \"./b.js\";\nb();\n".toList⟩ := by decide +kernel
  have hc : detachLocal "c();".toList = ⟨[], "c();".toList⟩ := by decide +kernel
  have hfileA : tight.resolve? ((⟨['.']⟩ : Path).join ⟨"a.js".toList⟩).normalize
      = some (⟨"a.js".toList⟩, .text (render tightChunks)) := rfl
  have hfileC : tight.resolve? (resolveImport ⟨"a.js".toList⟩ "./c.js".toList)
      = some (⟨"c.js".toList⟩, .text "c();".toList) := rfl
  refine make_eq_ok_iff.mpr
    ⟨⟨"c();\nimport \x7bb\x7dfrom \"./b.js\";\nb();\n".toList,
      [⟨"c.js".toList⟩, ⟨"a.js".toList⟩]⟩, ?_, by decide +kernel⟩
  rw [visit_of_text hfileA List.not_mem_nil, ha, bind_eq_ok_iff]
  refine ⟨⟨"c();\n".toList, [⟨"c.js".toList⟩]⟩, ?_, by decide +kernel⟩
  refine visitAll_cons_eq_ok_iff.mpr
    ⟨⟨"c();".toList, [⟨"c.js".toList⟩]⟩, ?_, ⟨[], []⟩, visitAll.eq_1 .., by decide⟩
  rw [visit_of_text hfileC (by decide), hc, bind_eq_ok_iff]
  exact ⟨⟨[], []⟩, visitAll.eq_1 .., by decide +kernel⟩

/-- The plain import of the module is gone, the other one is a line of the bundle. -/
theorem local_imports_of_make_tight :
    (∃ d content, tight.resolve? (resolveImport ⟨"a.js".toList⟩ "./c.js".toList) =
        some (d, content) ∧ d ∈ [⟨"c.js".toList⟩, (⟨"a.js".toList⟩ : Path)]) ∧
      body (tight.source ⟨"a.js".toList⟩) = "import \x7bb\x7dfrom \"./b.js\";\nb();\n".toList := by
  have hsource : tight.source ⟨"a.js".toList⟩ = render tightChunks ++ [] :=
    (ModuleStore.source_of_text rfl).trans (List.append_nil _).symm
  obtain ⟨hnamed, hbody, -⟩ :=
    local_imports_of_make make_tight (by decide) hsource (by decide +kernel)
  have hplain : .imports plainImport ∈ tightChunks := List.mem_cons_of_mem _ List.mem_cons_self
  refine ⟨hnamed plainImport hplain (by decide) (by decide), ?_⟩
  rw [hbody]
  decide +kernel

/-- A bundle may hold a local import, and lack the module that it names. -/
theorem exists_local_import_line :
    ∃ b, make tight ⟨['.']⟩ ⟨"a.js".toList⟩ = .ok b ∧
      "import \x7bb\x7dfrom \"./b.js\";".toList ∈ splitNewlines b.code ∧
      ⟨"b.js".toList⟩ ∉ b.modules :=
  ⟨_, make_tight, by decide +kernel, by decide⟩

end Bundle

end PluginPack
