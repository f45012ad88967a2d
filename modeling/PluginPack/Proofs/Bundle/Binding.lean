import PluginPack.Proofs.Bundle.Assembly
import PluginPack.Proofs.Script.KeptDeclaration
import PluginPack.Proofs.TypeSyntax.KeptText

/-!
# Which names a bundle declares

An import that is removed binds names which the code behind it uses. A bundle declares what its
modules export under the names that they give to it, so a name that is imported as it is exported
is still declared. Nothing is declared under another name: where an import renames, the local name
goes with the import.
-/

namespace PluginPack

open Text

namespace Script

/-! ## Imports of names in braces -/

/-- The name that one item of a list of imports takes from a module and the name that it binds. -/
def itemBinding? (item : Text) : Option (Text × Text) :=
  match (item.splitOnP isWhite).filter (· ≠ []) with
  | [n] => some (n, n)
  | [n, w, n'] => if w = "as".toList then some (n, n') else none
  | _ => none

/-- The names that a statement imports in braces, each with the name that it binds. -/
def bindings (statement : Text) : List (Text × Text) :=
  match (word? "import".toList (statement.dropWhile isBlank)).bind fun r ↦
    word? ['{'] (trimStart r) with
  | none => []
  | some r => ((r.takeWhile (· != '}')).splitOn ',').filterMap itemBinding?

theorem mem_specifiers_of_mem_localSpans {source : Text} {st : Span Text}
    (h : st ∈ localSpans source) : st.part.value ∈ (detachLocal source).specifiers := by
  obtain ⟨hspan, hlocal⟩ := List.mem_filter.mp h
  have hpart : st.part ∈ dependency.findAll source := by
    rw [← Marker.map_part_spans]
    exact List.mem_map_of_mem hspan
  exact List.mem_eraseDups.mpr (List.mem_filter.mpr ⟨List.mem_map_of_mem hpart, hlocal⟩)

end Script

namespace Bundle

open Script

variable {store : ModuleStore} {root entry m d : Path} {b : Bundle} {l : Layout}
  {st : Span Text} {head : DeclarationHead}

/-! ## What is in front of a module -/

/-- Where all bodies close what they open, the next one begins at the top. -/
theorem nesting_text_of_ready (hl : l.Ready)
    (hcloses : ∀ m ∈ l.modules, Closes (body (store.source m))) :
    nesting (l.text store) = .code 0 := by
  have hnewlines : ∀ n, Nesting.run (.code 0) (List.replicate n '\n') = .code 0 :=
    fun n ↦ Nesting.run_white fun c hc ↦ by
      rw [List.eq_of_mem_replicate hc]
      decide
  obtain ⟨blocks, pending, hseparated⟩ := l
  induction blocks using List.reverseRecOn generalizing pending with
  | nil => exact hnewlines pending
  | append_singleton blocks block ih =>
    obtain ⟨n, m⟩ := block
    have hready : blocks = [] ∨ 1 ≤ n := by
      rcases blocks with _ | ⟨q, blocks⟩
      · exact .inl rfl
      · exact .inr (hseparated (n, m) (List.mem_append_right blocks List.mem_cons_self))
    have htail : ∀ p ∈ blocks.tail, 1 ≤ p.1 := by
      intro p hp
      rcases blocks with _ | ⟨q, blocks⟩
      · exact absurd hp List.not_mem_nil
      · exact hseparated p (List.mem_append_left _ hp)
    have hfront := ih n htail hready fun m' hm' ↦ hcloses m' <| by
      simp only [Layout.modules, List.map_append] at hm' ⊢
      exact List.mem_append_left _ hm'
    have hbody : Closes (body (store.source m)) := hcloses m (by simp [Layout.modules])
    -- Another body may only follow behind a newline, which ends a comment on the last line.
    obtain ⟨k, rfl⟩ : ∃ k, pending = k + 1 :=
      Nat.exists_eq_add_of_le' (hl.resolve_left (by simp))
    have htext : Layout.text store ⟨blocks ++ [(n, m)], k + 1, hseparated⟩ =
        Layout.text store ⟨blocks, n, htail⟩ ++
          (body (store.source m) ++ ['\n'] ++ List.replicate k '\n') := by
      simp [Layout.text, assemble, List.replicate_succ]
    rw [htext, nesting_append, hfront, Nesting.run_append]
    exact (congrArg (Nesting.run · _) hbody).trans (hnewlines k)

/-! ## What is declared -/

/-- What a module exports at the top stands at the top of the code that is put together. -/
theorem exists_text_eq_of_exports (heven : ∀ m ∈ l.modules, IsEven (store.source m))
    (hm : m ∈ l.modules) (hhead : head.IsWellFormed) (hexports : Exports (store.source m) head)
    (hspares : Spares (store.source m) head.text) :
    ∃ x r, l.text store = x ++ (head.text ++ r) ∧ nesting x = .code 0 := by
  obtain ⟨front, rest, hready, hsub, htext⟩ := Layout.exists_of_mem store hm
  obtain ⟨x, r, hsource, hx⟩ := hexports.exists_eq
  obtain ⟨x', r', hbody, hx'⟩ := (heven m hm).exists_body_eq hhead hspares hsource
  have hfront : nesting (front.text store) = .code 0 :=
    nesting_text_of_ready hready fun m' hm' ↦ (heven m' (hsub hm')).closes_body
  refine ⟨front.text store ++ x', r' ++ rest, ?_, ?_⟩
  · rw [htext, hbody]
    simp only [List.append_assoc]
  · rw [nesting_append, hfront]
    exact hx'.trans hx

/-- **Names that are imported as they are exported stay declared.** Let every module of a bundle
close what it opens, and let a module import names in braces by a statement that is removed. The
module that the statement names is in the bundle; and each name that this module exports at the top,
by a declaration that nothing removed reaches into, is declared at the top of the code, unless it
is imported under another name. This is said of the code before types are erased, and of the bundle
where there are none to erase. Where there are, the bundle holds a declaration of the name, at the
top or not, if the beginning of the declaration stands in a text that no type reaches into. -/
theorem local_names_declared (h : make store root entry = .ok b)
    (heven : ∀ m ∈ b.modules, IsEven (store.source m)) (hm : m ∈ b.modules)
    (hst : st ∈ localSpans (store.source m)) :
    ∃ d content code, store.resolve? (resolveImport m st.part.value) = some (d, content) ∧
      d ∈ b.modules ∧
      visit store (.entryNotFound (root.join entry).normalize) (root.join entry).normalize [] =
        .ok ⟨code, b.modules⟩ ∧
      b.code = trim (if b.isTyped then TypeSyntax.eraseTypes code else code) ∧
      ∀ p ∈ bindings st.text, p.2 = p.1 → ∀ head : DeclarationHead, head.IsWellFormed →
        head.name = p.1 → Exports (store.source d) head → Spares (store.source d) head.text →
          Declares code p.2 ∧
            ((b.isTyped = true → TypeSyntax.eraseTypes code = code) → Declares b.code p.2) ∧
            ((b.isTyped = true → ∃ w, head.text <:+: w ∧ w <:+: code ∧ TypeSyntax.Spares code w) →
              HoldsDeclaration b.code p.2) := by
  obtain ⟨l, hmodules, hvisit, hcode⟩ := exists_layout_of_make h
  obtain ⟨d, content, hd, hmem⟩ :=
    exists_imported_of_mem h hm (mem_specifiers_of_mem_localSpans hst)
  refine ⟨d, content, l.text store, hd, hmem, hvisit, hcode, ?_⟩
  intro p _ hsame head hhead hname hexports hspares
  rw [← hmodules] at heven hmem
  obtain ⟨x, r, htext, hx⟩ := exists_text_eq_of_exports heven hmem hhead hexports hspares
  rw [hsame, ← hname, hcode, htext]
  refine ⟨hhead.declares hx r, fun htypes ↦ ?_, fun hspares ↦ hhead.holdsDeclaration_trim ?_⟩
  · have herased : (if b.isTyped then TypeSyntax.eraseTypes (x ++ (head.text ++ r))
        else x ++ (head.text ++ r)) = x ++ (head.text ++ r) := by
      split
      · next htyped => exact htypes htyped
      · rfl
    rw [herased]
    exact hhead.declares_trim hx r
  · split
    · next htyped =>
      obtain ⟨w, hw, hin, hspares⟩ := hspares htyped
      exact hw.trans (hspares.isInfix hin)
    · rw [← List.append_assoc]
      exact List.infix_append _ _ _

/-! ## Names that are imported from another module -/

/-- A module that exports a function. -/
def exporting : Text := "export function f() \x7b\x7d\n".toList

/-- A module beside the one that exports the function. -/
def beside (file : Path) (source : Text) : ModuleStore :=
  .ofList [(file, .text source), (⟨"b.js".toList⟩, .text exporting)]

/-- An import of the function as it is exported, and a call of it. -/
def importLine : Text := "import \x7b f \x7d from \"./b.js\";\nf();\n".toList

/-- The import in front of typed code. -/
def typedLines : Text := "import \x7b f \x7d from \"./b.js\";\nconst n: N = f();\n".toList

/-- An import of the function under another name, and a call of it. -/
def renamingLine : Text := "import \x7b f as g \x7d from \"./b.js\";\ng();\n".toList

def exportedHead : DeclarationHead := ⟨"function".toList, [' '], ['f'], '('⟩

theorem exports_exportedHead :
    exportedHead.IsWellFormed ∧ Exports exporting exportedHead ∧
      Spares exporting exportedHead.text := by
  refine ⟨?_, ⟨[], [' '], ") \x7b\x7d\n".toList, rfl, by decide, by decide, rfl⟩, by decide +kernel⟩
  exact
    { word := by decide
      gap := by decide
      name := by decide
      unreserved := by decide
      next := by decide }

section Beside

variable {file : Path} {source : Text} {isTyped : Bool}
  (hfile : file = ⟨"a.js".toList⟩ ∨ file = ⟨"a.ts".toList⟩)

include hfile

theorem resolve?_beside (source : Text) :
    (beside file source).resolve? ((⟨['.']⟩ : Path).join file).normalize =
        some (file, .text source) ∧
      (beside file source).resolve? (resolveImport file "./b.js".toList) =
        some (⟨"b.js".toList⟩, .text exporting) := by
  rcases hfile with rfl | rfl
  · exact ⟨rfl, rfl⟩
  · exact ⟨rfl, rfl⟩

theorem source_beside (source : Text) :
    (beside file source).source file = source ∧
      (beside file source).source ⟨"b.js".toList⟩ = exporting := by
  rcases hfile with rfl | rfl
  · exact ⟨ModuleStore.source_of_text rfl, ModuleStore.source_of_text rfl⟩
  · exact ⟨ModuleStore.source_of_text rfl, ModuleStore.source_of_text rfl⟩

theorem isEven_beside (h : IsEven source) :
    ∀ m ∈ [⟨"b.js".toList⟩, file], IsEven ((beside file source).source m) := by
  have hb : IsEven exporting := by decide +kernel
  obtain ⟨hsource, hexporting⟩ := source_beside hfile source
  rw [List.forall_mem_cons, List.forall_mem_singleton, hsource, hexporting]
  exact ⟨hb, h⟩

section Bundles

variable (hnames : (detachLocal source).specifiers = ["./b.js".toList])

include hnames

theorem visit_beside (missing : BundleError) :
    visit (beside file source) missing ((⟨['.']⟩ : Path).join file).normalize [] =
      .ok ⟨body exporting ++ '\n' :: body source, [⟨"b.js".toList⟩, file]⟩ := by
  obtain ⟨hentry, hnamed⟩ := resolve?_beside hfile source
  have hne : ⟨"b.js".toList⟩ ≠ file := by rcases hfile with rfl | rfl <;> decide
  exact visit_of_one_import hnames hnamed (by decide +kernel) hne hentry missing

theorem make_beside (htyped : file.isTyped = isTyped) :
    make (beside file source) ⟨['.']⟩ file = .ok
      { code := trim (if isTyped then TypeSyntax.eraseTypes (body exporting ++ '\n' :: body source)
          else body exporting ++ '\n' :: body source)
        isTyped
        modules := [⟨"b.js".toList⟩, file] } := by
  subst htyped
  exact make_eq_ok_iff.mpr ⟨_, visit_beside hfile hnames _, rfl⟩

end Bundles

end Beside

/-- The function is declared where its name is kept, and where types are erased a declaration of it
is left. -/
theorem local_names_declared_importLine :
    (make (beside ⟨"a.js".toList⟩ importLine) ⟨['.']⟩ ⟨"a.js".toList⟩ = .ok
        { code := "function f() \x7b\x7d\n\nf();".toList
          isTyped := false
          modules := [⟨"b.js".toList⟩, ⟨"a.js".toList⟩] } ∧
      (∀ m ∈ [⟨"b.js".toList⟩, (⟨"a.js".toList⟩ : Path)],
        IsEven ((beside ⟨"a.js".toList⟩ importLine).source m)) ∧
      (∃ st ∈ localSpans importLine, bindings st.text = [(['f'], ['f'])]) ∧
      Declares "function f() \x7b\x7d\n\nf();".toList ['f']) ∧
    make (beside ⟨"a.ts".toList⟩ typedLines) ⟨['.']⟩ ⟨"a.ts".toList⟩ = .ok
        { code := "function f() \x7b\x7d\n\nconst n = f();".toList
          isTyped := true
          modules := [⟨"b.js".toList⟩, ⟨"a.ts".toList⟩] } ∧
      HoldsDeclaration "function f() \x7b\x7d\n\nconst n = f();".toList ['f'] := by
  obtain ⟨hhead, hexports, hspares⟩ := exports_exportedHead
  have hdeclared {file : Path} {source : Text} {b : Bundle}
      (hfile : file = ⟨"a.js".toList⟩ ∨ file = ⟨"a.ts".toList⟩)
      (hmake : make (beside file source) ⟨['.']⟩ file = .ok b)
      (hmodules : b.modules = [⟨"b.js".toList⟩, file]) (heven : IsEven source)
      (hnames : (detachLocal source).specifiers = ["./b.js".toList])
      (himport : ∃ st ∈ localSpans source, bindings st.text = [(['f'], ['f'])] ∧
        st.part.value = "./b.js".toList) :
      ((b.isTyped = true → TypeSyntax.eraseTypes (body exporting ++ '\n' :: body source) =
          body exporting ++ '\n' :: body source) → Declares b.code ['f']) ∧
        ((b.isTyped = true → ∃ w, exportedHead.text <:+: w ∧
            w <:+: body exporting ++ '\n' :: body source ∧
            TypeSyntax.Spares (body exporting ++ '\n' :: body source) w) →
          HoldsDeclaration b.code ['f']) := by
    obtain ⟨st, hst, hbindings, hvalue⟩ := himport
    obtain ⟨hsource, hexporting⟩ := source_beside hfile source
    obtain ⟨d, content, code, hd, -, hvisit, -, hnamed⟩ :=
      local_names_declared hmake (hmodules ▸ isEven_beside hfile heven) (m := file)
        (by rw [hmodules]; simp) (by rwa [hsource])
    rw [visit_beside hfile hnames, Except.ok.injEq, Inlined.mk.injEq] at hvisit
    rw [hvalue, (resolve?_beside hfile source).2, Option.some_inj] at hd
    obtain ⟨rfl, -⟩ := Prod.mk.inj hd
    rw [hexporting, ← hvisit.1] at hnamed
    exact (hnamed (['f'], ['f']) (by rw [hbindings]; exact List.mem_cons_self) rfl exportedHead
      hhead rfl hexports hspares).2
  have hnames : (detachLocal importLine).specifiers = ["./b.js".toList] := by decide +kernel
  have hnamesTyped : (detachLocal typedLines).specifiers = ["./b.js".toList] := by decide +kernel
  have hmake : make (beside ⟨"a.js".toList⟩ importLine) ⟨['.']⟩ ⟨"a.js".toList⟩ = .ok
      { code := "function f() \x7b\x7d\n\nf();".toList
        isTyped := false
        modules := [⟨"b.js".toList⟩, ⟨"a.js".toList⟩] } := by
    rw [make_beside (.inl rfl) hnames rfl]
    decide +kernel
  have hmakeTyped : make (beside ⟨"a.ts".toList⟩ typedLines) ⟨['.']⟩ ⟨"a.ts".toList⟩ = .ok
      { code := "function f() \x7b\x7d\n\nconst n = f();".toList
        isTyped := true
        modules := [⟨"b.js".toList⟩, ⟨"a.ts".toList⟩] } := by
    rw [make_beside (.inr rfl) hnamesTyped rfl]
    decide +kernel
  have heven : IsEven importLine := by decide +kernel
  have himport : ∃ st ∈ localSpans importLine, bindings st.text = [(['f'], ['f'])] ∧
      st.part.value = "./b.js".toList := by decide +kernel
  refine ⟨⟨hmake, isEven_beside (.inl rfl) heven, ?_, ?_⟩, hmakeTyped, ?_⟩
  · obtain ⟨st, hst, hbindings, -⟩ := himport
    exact ⟨st, hst, hbindings⟩
  · exact (hdeclared (.inl rfl) hmake rfl heven hnames himport).1 nofun
  · have hkept : exportedHead.text <:+: body exporting ++ '\n' :: body typedLines ∧
        TypeSyntax.Spares (body exporting ++ '\n' :: body typedLines) exportedHead.text := by
      decide +kernel
    exact (hdeclared (.inr rfl) hmakeTyped rfl (by decide +kernel) hnamesTyped
      (by decide +kernel)).2 fun _ ↦ ⟨_, List.infix_rfl, hkept⟩

/-- A name that an import changes is not declared. -/
theorem not_forall_local_names_declared :
    ¬∀ (store : ModuleStore) (root entry m d : Path) (content : Content) (b : Bundle)
      (st : Span Text), make store root entry = .ok b →
        (∀ m ∈ b.modules, IsEven (store.source m)) → m ∈ b.modules →
          st ∈ localSpans (store.source m) →
            store.resolve? (resolveImport m st.part.value) = some (d, content) →
              ∀ p ∈ bindings st.text, ∀ head : DeclarationHead, head.IsWellFormed →
                head.name = p.1 → Exports (store.source d) head →
                  Spares (store.source d) head.text → Declares b.code p.2 := by
  intro h
  have hfile : (⟨"a.js".toList⟩ : Path) = ⟨"a.js".toList⟩ ∨ (⟨"a.js".toList⟩ : Path) =
      ⟨"a.ts".toList⟩ := .inl rfl
  have hmake : make (beside ⟨"a.js".toList⟩ renamingLine) ⟨['.']⟩ ⟨"a.js".toList⟩ = .ok
      { code := "function f() \x7b\x7d\n\ng();".toList
        isTyped := false
        modules := [⟨"b.js".toList⟩, ⟨"a.js".toList⟩] } := by
    rw [make_beside hfile (by decide +kernel) rfl]
    decide +kernel
  obtain ⟨st, hst, hbindings, hvalue⟩ : ∃ st ∈ localSpans renamingLine,
      bindings st.text = [(['f'], ['g'])] ∧ st.part.value = "./b.js".toList := by decide +kernel
  obtain ⟨hsource, hexporting⟩ := source_beside hfile renamingLine
  obtain ⟨hhead, hexports, hspares⟩ := exports_exportedHead
  have hdeclared := h (beside ⟨"a.js".toList⟩ renamingLine) ⟨['.']⟩ ⟨"a.js".toList⟩ ⟨"a.js".toList⟩
    ⟨"b.js".toList⟩ _ _ st hmake (isEven_beside hfile (by decide +kernel)) (by decide)
    (hsource ▸ hst) (hvalue ▸ (resolve?_beside hfile renamingLine).2) (['f'], ['g'])
    (by rw [hbindings]; exact List.mem_cons_self) exportedHead hhead rfl (hexporting ▸ hexports)
    (hexporting ▸ hspares)
  exact absurd hdeclared (by decide +kernel)

end Bundle

end PluginPack
