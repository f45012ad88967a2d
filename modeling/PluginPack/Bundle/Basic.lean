import PluginPack.Bundle.Module
import PluginPack.Script.Export
import PluginPack.TypeSyntax.Erasure

/-!
# Bundles

A bundle is one script made of a module and all that it depends on through local specifiers. The
modules are visited depth first, dependencies ahead of the module that names them, and each is
inlined once: a module that was visited before contributes nothing, whether it is finished or
still being visited, so cycles come to an end.
-/

namespace PluginPack

open Text

/-- Why a bundle can not be made. -/
inductive BundleError where
  | entryNotFound (path : Path)
  | moduleNotFound (specifier : Text) (importer : Path)
  | unreadable (path : Path) (cause : FileError)
deriving DecidableEq, Repr

/-- What an error is reported as. -/
def BundleError.message : BundleError → Text
  | .entryNotFound p => "Entry module not found: ".toList ++ p.text
  | .moduleNotFound s p =>
    "Cannot find module '".toList ++ s ++ "' imported from ".toList ++ p.text
  | .unreadable p e => "Failed to read ".toList ++ p.text ++ ": ".toList ++ e.message

/-- A script and the modules it is made of. -/
structure Bundle where
  code : Text
  /-- The entry module is typed, and types have been erased. -/
  isTyped : Bool
  /-- The inlined modules in the order of their code. -/
  modules : List Path
deriving DecidableEq, Repr

namespace Bundle

/-- What the visit of a module adds to a bundle: nothing when the module was visited before. -/
structure Inlined where
  code : Text
  /-- The modules that the code is made of, in its order. -/
  modules : List Path
deriving DecidableEq, Repr

/-- What a module keeps of its own text in a bundle. -/
def body (source : Text) : Text := Script.eraseExports (Script.detachLocal source).code

mutual

/-- Visits the module at a path and answers with its code behind the code of its dependencies.
`visited` holds the modules whose visit has begun, and `missing` is the error of a path that leads
to no module. -/
def visit (store : ModuleStore) (missing : BundleError) (path : Path) (visited : List Path) :
    Except BundleError Inlined :=
  match hfile : store.resolve? path with
  | none => .error missing
  | some (file, content) =>
    if hnew : file ∈ visited then .ok ⟨[], []⟩
    else
      have := ModuleStore.unvisited_cons_lt hfile hnew
      match content with
      | .bytes _ => .error (.unreadable file .notUtf8)
      | .text source => do
        let below ← visitAll store file (Script.detachLocal source).specifiers (file :: visited)
        pure ⟨below.code ++ body source, below.modules ++ [file]⟩
termination_by (store.unvisited visited, 0)
decreasing_by exact Prod.Lex.left _ _ this

/-- Visits the modules that specifiers in one module stand for, one after the other. The code of
each is followed by a newline. -/
def visitAll (store : ModuleStore) (importer : Path) (specifiers : List Text)
    (visited : List Path) : Except BundleError Inlined :=
  match specifiers with
  | [] => .ok ⟨[], []⟩
  | s :: rest => do
    let first ← visit store (.moduleNotFound s importer) (resolveImport importer s) visited
    let others ← visitAll store importer rest (first.modules ++ visited)
    pure ⟨first.code ++ '\n' :: others.code, first.modules ++ others.modules⟩
termination_by (store.unvisited visited, specifiers.length + 1)
decreasing_by
  · exact Prod.Lex.right _ (Nat.zero_lt_succ _)
  · rcases Nat.lt_or_eq_of_le (store.unvisited_append_le first.modules visited) with h | h
    · exact Prod.Lex.left _ _ h
    · rw [h]
      exact Prod.Lex.right _ (Nat.lt_succ_self _)

end

/-- Makes the bundle of an entry module, given by its path from the root directory of a project. The
types of the whole script are erased when the entry module is typed. -/
def make (store : ModuleStore) (root entry : Path) : Except BundleError Bundle := do
  let path := (root.join entry).normalize
  let all ← visit store (.entryNotFound path) path []
  let isTyped := all.modules.getLast?.any Path.isTyped
  pure
    { code := trim (if isTyped then TypeSyntax.eraseTypes all.code else all.code)
      isTyped
      modules := all.modules }

end Bundle

end PluginPack
