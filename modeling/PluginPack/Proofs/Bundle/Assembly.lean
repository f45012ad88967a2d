import Mathlib.Algebra.BigOperators.Group.List.Basic
import Mathlib.Algebra.GroupWithZero.Nat
import Mathlib.Data.Finset.Card
import PluginPack.Proofs.Bundle.Exploration

/-!
# How the code of a bundle is put together

Before types are erased and the ends are trimmed, the code of a bundle is the bodies of its modules
in order, with newlines between them and perhaps before them. Every visit for a specifier leaves one
newline behind, also a visit that adds nothing, so there are as many newlines as specifiers.

A layout is such a sequence of bodies while the visits go on: the newlines ahead of every body, and
those behind the last one, which belong to the next body.
-/

namespace PluginPack.Bundle

open Text

/-- The bodies of modules, each behind a number of newlines. -/
def assemble (store : ModuleStore) (blocks : List (Nat × Path)) : Text :=
  blocks.flatMap fun p ↦ List.replicate p.1 '\n' ++ body (store.source p.2)

/-! ## Layouts -/

/-- Bodies of modules with the newlines before them, and newlines behind the last of them. -/
structure Layout where
  blocks : List (Nat × Path)
  pending : Nat
  /-- There is a newline between two bodies. -/
  separated : ∀ p ∈ blocks.tail, 1 ≤ p.1

namespace Layout

variable {store : ModuleStore} {l : Layout} {m : Path}

def empty : Layout := ⟨[], 0, fun _ h ↦ absurd h List.not_mem_nil⟩

/-- Another body may follow. -/
def Ready (l : Layout) : Prop := l.blocks = [] ∨ 1 ≤ l.pending

def newline (l : Layout) : Layout := ⟨l.blocks, l.pending + 1, l.separated⟩

/-- Puts the body of a module behind the layout. -/
def add (l : Layout) (h : l.Ready) (m : Path) : Layout where
  blocks := l.blocks ++ [(l.pending, m)]
  pending := 0
  separated p hp := by
    rcases l with ⟨_ | ⟨q, blocks⟩, pending, hsep⟩
    · exact absurd hp List.not_mem_nil
    · rcases List.mem_append.mp hp with hp | hp
      · exact hsep p hp
      · rw [List.mem_singleton.mp hp]
        exact h.resolve_left (List.cons_ne_nil q blocks)

def text (store : ModuleStore) (l : Layout) : Text :=
  assemble store l.blocks ++ List.replicate l.pending '\n'

def modules (l : Layout) : List Path := l.blocks.map Prod.snd

def newlines (l : Layout) : Nat := (l.blocks.map Prod.fst).sum + l.pending

theorem ready_newline : l.newline.Ready := .inr (Nat.succ_pos l.pending)

@[simp] theorem text_newline : l.newline.text store = l.text store ++ ['\n'] := by
  rw [text, text, newline, List.append_assoc, List.replicate_succ']

@[simp] theorem text_add (h : l.Ready) :
    (l.add h m).text store = l.text store ++ body (store.source m) := by
  simp [text, add, assemble]

@[simp] theorem modules_newline : l.newline.modules = l.modules := rfl

@[simp] theorem modules_add (h : l.Ready) : (l.add h m).modules = l.modules ++ [m] := by
  rw [modules, add, List.map_append, List.map_singleton, modules]

@[simp] theorem newlines_newline : l.newline.newlines = l.newlines + 1 := rfl

@[simp] theorem newlines_add (h : l.Ready) : (l.add h m).newlines = l.newlines := by
  rw [newlines, add, List.map_append, List.sum_append, List.map_singleton, List.sum_singleton,
    newlines, Nat.add_zero]

end Layout

variable {store : ModuleStore} {missing : BundleError} {path : Path} {visited : List Path}
  {r : Inlined}

/-! ## Layouts of visits -/

/-- The number of specifiers in all modules of a list. -/
def specifierCount (store : ModuleStore) (ms : List Path) : Nat :=
  (ms.map fun m ↦ (store.specifiers m).length).sum

theorem specifierCount_append (store : ModuleStore) (ms ms' : List Path) :
    specifierCount store (ms ++ ms') = specifierCount store ms + specifierCount store ms' := by
  rw [specifierCount, List.map_append, List.sum_append, specifierCount, specifierCount]

theorem nodup_eraseDups {α : Type} [BEq α] [LawfulBEq α] (l : List α) : l.eraseDups.Nodup := by
  induction hn : l.length using Nat.strongRecOn generalizing l with
  | ind n ih =>
    rcases l with _ | ⟨a, l⟩
    · rw [List.eraseDups_nil]
      exact List.nodup_nil
    · rw [List.eraseDups_cons, List.nodup_cons, List.mem_eraseDups]
      refine ⟨by simp, ih _ ?_ _ rfl⟩
      rw [← hn, List.length_cons]
      exact Nat.lt_succ_of_le (List.length_filter_le _ l)

/-- A module has as many local specifiers in its list as it has different ones. -/
theorem specifierCount_eq_sum_card (store : ModuleStore) (ms : List Path) :
    specifierCount store ms = (ms.map fun m ↦ (store.specifiers m).toFinset.card).sum := by
  refine congrArg List.sum (List.map_congr_left fun m _ ↦ ?_)
  have hnodup : (store.specifiers m).Nodup := by
    rw [ModuleStore.specifiers, Script.detachLocal]
    exact nodup_eraseDups _
  exact (List.toFinset_card_of_nodup hnodup).symm

/-- One layout goes on where another one ends, by what a visit adds and some newlines more than the
specifiers of the added modules are. -/
structure Layout.Continues (store : ModuleStore) (l l' : Layout) (r : Inlined) (extra : Nat) :
    Prop where
  text : l'.text store = l.text store ++ r.code
  modules : l'.modules = l.modules ++ r.modules
  newlines : l'.newlines = l.newlines + specifierCount store r.modules + extra

theorem Layout.Continues.refl (l : Layout) : l.Continues store l ⟨[], []⟩ 0 where
  text := (List.append_nil _).symm
  modules := (List.append_nil _).symm
  newlines := rfl

/-- A new module ends the layout of its dependencies. -/
theorem Layout.Continues.add {l l' : Layout} {file : Path} {source : Text}
    (h : l.Continues store l' r (Script.detachLocal source).specifiers.length)
    (hl' : l'.Ready) (hfile : store.find? file = some (.text source)) :
    l.Continues store (l'.add hl' file) ⟨r.code ++ body source, r.modules ++ [file]⟩ 0 where
  text := by rw [text_add, h.text, ModuleStore.source_of_text hfile, List.append_assoc]
  modules := by rw [modules_add, h.modules, List.append_assoc]
  newlines := by
    rw [newlines_add, h.newlines, specifierCount_append, specifierCount, specifierCount,
      List.map_singleton, List.sum_singleton, ModuleStore.specifiers_of_text hfile]
    omega

/-- A dependency, its newline, and the dependencies after it. -/
theorem Layout.Continues.cons {l l₁ l₂ : Layout} {first others : Inlined} {n : Nat}
    (h₁ : l.Continues store l₁ first 0) (h₂ : l₁.newline.Continues store l₂ others n) :
    l.Continues store l₂
      ⟨first.code ++ '\n' :: others.code, first.modules ++ others.modules⟩ (n + 1) where
  text := by
    rw [h₂.text, text_newline, h₁.text]
    simp only [List.append_assoc, List.singleton_append]
  modules := by rw [h₂.modules, modules_newline, h₁.modules, List.append_assoc]
  newlines := by
    rw [h₂.newlines, newlines_newline, h₁.newlines, specifierCount_append]
    omega

/-- What a visit adds can be put behind every layout that is ready, with one newline for every
specifier. It ends in a body if it adds anything. -/
theorem exists_continues_of_visit (h : visit store missing path visited = .ok r) :
    ∀ l : Layout, l.Ready →
      ∃ l', l.Continues store l' r 0 ∧ (r.modules = [] ∨ l'.pending = 0) := by
  refine visit_ok_induction
    (P := fun _ _ r ↦ ∀ l : Layout, l.Ready →
      ∃ l', l.Continues store l' r 0 ∧ (r.modules = [] ∨ l'.pending = 0))
    (Q := fun _ specifiers _ r ↦ ∀ l : Layout, l.Ready →
      ∃ l', l.Continues store l' r specifiers.length ∧ l'.Ready) ?_ ?_ ?_ ?_ h
  -- A module that was visited before leaves the layout as it is, perhaps with newlines pending.
  · intro path file visited content _ _ l _
    exact ⟨l, .refl l, .inl rfl⟩
  · intro path file visited source below hfile _ ih l hl
    obtain ⟨l', hcont, hl'⟩ := ih l hl
    exact ⟨l'.add hl' file, hcont.add hl' (ModuleStore.find?_of_resolve? hfile), .inr rfl⟩
  · intro importer visited l hl
    exact ⟨l, .refl l, hl⟩
  · intro importer specifier specifiers visited first others ihfirst ihothers l hl
    obtain ⟨l₁, h₁, -⟩ := ihfirst l hl
    obtain ⟨l₂, h₂, hl₂⟩ := ihothers l₁.newline Layout.ready_newline
    exact ⟨l₂, h₁.cons h₂, hl₂⟩

/-! ## Bundles -/

/-- In front of the body of a module stands a layout that is ready for it. -/
theorem Layout.exists_of_mem (store : ModuleStore) {l : Layout} {m : Path} (hm : m ∈ l.modules) :
    ∃ (front : Layout) (rest : Text), front.Ready ∧ front.modules ⊆ l.modules ∧
      l.text store = front.text store ++ (body (store.source m) ++ rest) := by
  obtain ⟨⟨n, m⟩, hblock, rfl⟩ := List.mem_map.mp hm
  obtain ⟨blocks, blocks', hblocks⟩ := List.append_of_mem hblock
  have hseparated := l.separated
  rw [hblocks] at hseparated
  refine ⟨⟨blocks, n, fun p hp ↦ hseparated p ?_⟩,
    assemble store blocks' ++ List.replicate l.pending '\n', ?_, ?_, ?_⟩
  · cases blocks with
    | nil => exact absurd hp List.not_mem_nil
    | cons q blocks => exact List.mem_append_left _ hp
  · cases blocks with
    | nil => exact .inl rfl
    | cons q blocks => exact .inr (hseparated _ (List.mem_append_right blocks List.mem_cons_self))
  · simp only [modules, hblocks, List.map_append]
    exact List.subset_append_left _ _
  · simp only [text, hblocks, assemble, List.flatMap_append, List.flatMap_cons, List.append_assoc]

/-- The visit of the entry puts a layout together. Its types are erased if the last module is typed,
and its ends are trimmed. -/
theorem exists_layout_of_make {root entry : Path} {b : Bundle}
    (h : make store root entry = .ok b) :
    ∃ l : Layout, l.modules = b.modules ∧
      visit store (.entryNotFound (root.join entry).normalize) (root.join entry).normalize [] =
        .ok ⟨l.text store, b.modules⟩ ∧
      b.code = trim (if b.isTyped then TypeSyntax.eraseTypes (l.text store) else l.text store) := by
  obtain ⟨all, hall, rfl⟩ := make_eq_ok_iff.mp h
  obtain ⟨l, hcont, -⟩ := exists_continues_of_visit hall .empty (.inl rfl)
  have hcode : l.text store = all.code := hcont.text
  refine ⟨l, hcont.modules, ?_, ?_⟩
  · rw [hall, hcode]
  · rw [hcode]

theorem any_isTyped_iff {last : Option Path} :
    last.any Path.isTyped = true ↔ ∃ m, last = some m ∧
      (m.extension? = some "ts".toList ∨ m.extension? = some "tsx".toList) := by
  rw [Option.any_eq_true]
  refine exists_congr fun m ↦ and_congr_right fun _ ↦ ?_
  rw [Path.isTyped, Bool.or_eq_true, beq_iff_eq, beq_iff_eq]

/-- **How the code is put together.** Behind the visit stands the text of all bodies in the order of
the modules, each once, with newlines between them and perhaps before the first one, as many as the
modules have different local specifiers. The code is this text without types, if the last module is
typed, and without white space at its ends. -/
theorem code_eq_assemble {root entry : Path} {b : Bundle} (h : make store root entry = .ok b) :
    ∃ gaps : List Nat,
      visit store (.entryNotFound (root.join entry).normalize) (root.join entry).normalize []
          = .ok ⟨assemble store (gaps.zip b.modules), b.modules⟩ ∧
        gaps.length = b.modules.length ∧ (∀ n ∈ gaps.tail, 1 ≤ n) ∧
        gaps.sum = (b.modules.map fun m ↦ (store.specifiers m).toFinset.card).sum ∧
        b.modules.Nodup ∧ (∀ m ∈ b.modules, store.find? m = some (.text (store.source m))) ∧
        (b.isTyped = true ↔ ∃ m, b.modules.getLast? = some m ∧
          (m.extension? = some "ts".toList ∨ m.extension? = some "tsx".toList)) ∧
        b.code = trim (if b.isTyped then
            TypeSyntax.eraseTypes (assemble store (gaps.zip b.modules))
          else assemble store (gaps.zip b.modules)) := by
  obtain ⟨all, hall, rfl⟩ := make_eq_ok_iff.mp h
  obtain ⟨file, hexp⟩ := exists_explores_of_visit hall
  obtain ⟨l, hcont, hend⟩ := exists_continues_of_visit hall .empty (.inl rfl)
  -- The entry module is always added, so a body ends the layout.
  have hpending : l.pending = 0 := by
    refine hend.resolve_left fun hnil ↦ ?_
    have hlast := hexp.getLast?
    rw [hnil] at hlast
    exact absurd hlast (by simp)
  have hmodules : l.blocks.map Prod.snd = all.modules := hcont.modules
  have hcode : assemble store l.blocks = all.code := by
    rw [← List.append_nil (assemble store l.blocks), ← List.replicate_zero, ← hpending]
    exact hcont.text
  have hgaps : (l.blocks.map Prod.fst).zip all.modules = l.blocks :=
    (List.zip_of_prod rfl hmodules).symm
  have hsum : l.newlines = 0 + specifierCount store all.modules + 0 := hcont.newlines
  rw [Layout.newlines, hpending, specifierCount_eq_sum_card, Nat.zero_add] at hsum
  refine ⟨l.blocks.map Prod.fst, ?_, ?_, ?_, hsum, hexp.adds.nodup, ?_, ?_, ?_⟩
  · rw [hgaps, hcode]
    exact hall
  · rw [← hmodules, List.length_map, List.length_map]
  · intro n hn
    rw [← List.map_tail] at hn
    obtain ⟨p, hp, rfl⟩ := List.mem_map.mp hn
    exact l.separated p hp
  · intro m hm
    obtain ⟨t, ht⟩ := (hexp.adds.isComplete m hm).isText
    rw [ht, ModuleStore.source_of_text ht]
  · exact any_isTyped_iff
  · rw [hgaps, hcode]

/-- The bundle of a cycle of two modules: two newlines, of which one stands between the bodies. -/
theorem code_eq_assemble_cycle :
    make cycle ⟨['.']⟩ ⟨"a.js".toList⟩ = .ok
        { code := "const b = 2\nconst a = 1".toList
          isTyped := false
          modules := [⟨"b.js".toList⟩, ⟨"a.js".toList⟩] } ∧
      ∃ gaps : List Nat, gaps.length = 2 ∧ (∀ n ∈ gaps.tail, 1 ≤ n) ∧ gaps.sum = 2 ∧
        "const b = 2\nconst a = 1".toList
          = trim (assemble cycle (gaps.zip [⟨"b.js".toList⟩, ⟨"a.js".toList⟩])) := by
  have hcards : ([⟨"b.js".toList⟩, ⟨"a.js".toList⟩].map fun m ↦
      (cycle.specifiers m).toFinset.card).sum = 2 := by decide +kernel
  obtain ⟨gaps, -, hlength, hpos, hsum, -, -, -, hcode⟩ := code_eq_assemble make_cycle
  exact ⟨make_cycle, gaps, hlength, hpos, hsum.trans hcards, hcode⟩

end PluginPack.Bundle
