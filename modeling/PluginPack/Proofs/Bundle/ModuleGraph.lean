import Mathlib.Logic.Relation
import PluginPack.Bundle.Module
import PluginPack.Script.Dependency

/-!
# The graph of modules

The modules of a store are the nodes of a graph. An edge leads from a module to every module that
one of its local specifiers stands for, so the graph may have loops and cycles, and a specifier may
lead nowhere. A module is complete when it is a text and none of its specifiers leads nowhere; a
bundle can be made exactly where only complete modules are reached.
-/

namespace PluginPack.ModuleStore

/-- The text of a module, empty for a path that leads to no text. -/
def source (store : ModuleStore) (m : Path) : Text :=
  match store.find? m with
  | some (.text t) => t
  | _ => []

/-- The local specifiers of a module, each once. -/
def specifiers (store : ModuleStore) (m : Path) : List Text :=
  (Script.detachLocal (store.source m)).specifiers

/-- A module names another one, or itself, by a local specifier. -/
def Imports (store : ModuleStore) (m d : Path) : Prop :=
  ∃ s ∈ store.specifiers m, ∃ content, store.resolve? (resolveImport m s) = some (d, content)

/-- There is a chain of imports, perhaps of none, from one module to another. -/
def Reaches (store : ModuleStore) : Path → Path → Prop := Relation.ReflTransGen store.Imports

/-- The module can be read as a text, and all its local specifiers lead to modules. -/
structure IsComplete (store : ModuleStore) (m : Path) : Prop where
  isText : ∃ t, store.find? m = some (.text t)
  resolves : ∀ s ∈ store.specifiers m, (store.resolve? (resolveImport m s)).isSome

variable {store : ModuleStore} {m d : Path}

theorem source_of_text {t : Text} (h : store.find? m = some (.text t)) : store.source m = t := by
  rw [source, h]

theorem specifiers_of_text {t : Text} (h : store.find? m = some (.text t)) :
    store.specifiers m = (Script.detachLocal t).specifiers := by
  rw [specifiers, source_of_text h]

theorem Imports.of_resolve? {s : Text} {content : Content} (hs : s ∈ store.specifiers m)
    (h : store.resolve? (resolveImport m s) = some (d, content)) : store.Imports m d :=
  ⟨s, hs, content, h⟩

/-- A set of modules that holds a module and all imports of its members holds all that is
reached. -/
theorem Reaches.mem_of_closed {ms : List Path} (h : store.Reaches m d) (hm : m ∈ ms)
    (hclosed : ∀ x ∈ ms, ∀ y, store.Imports x y → y ∈ ms) : d ∈ ms := by
  induction h with
  | refl => exact hm
  | tail _ himp ih => exact hclosed _ ih _ himp

end PluginPack.ModuleStore
