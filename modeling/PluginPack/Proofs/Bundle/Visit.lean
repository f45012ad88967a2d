import PluginPack.Bundle.Basic

/-!
# How a visit ends

The visit of one module has an equation for each way in which it can go: a path that leads nowhere,
a module that was visited before, one that is no text, and a new one. The visits for a list of
specifiers are read through two equivalences, for success and for failure. Facts about all
successful visits are proved by `visit_ok_induction`, which has one case for a module that was
visited before, one for a new module, and two for the list of specifiers.
-/

namespace PluginPack

open Text

namespace Bundle

/-- A step and the step after it succeed together exactly when each of them succeeds. -/
theorem bind_eq_ok_iff {ε α β : Type} {x : Except ε α} {f : α → Except ε β} {b : β} :
    (x >>= f) = .ok b ↔ ∃ a, x = .ok a ∧ f a = .ok b := by
  cases x with
  | error e =>
    constructor
    · intro h
      cases h
    · rintro ⟨a, h, -⟩
      cases h
  | ok a =>
    constructor
    · intro h
      exact ⟨a, rfl, h⟩
    · rintro ⟨a', h, hf⟩
      obtain rfl := Except.ok.inj h
      exact hf

/-- Two steps fail with the error of the first one that fails. -/
theorem bind_eq_error_iff {ε α β : Type} {x : Except ε α} {f : α → Except ε β} {e : ε} :
    (x >>= f) = .error e ↔ x = .error e ∨ ∃ a, x = .ok a ∧ f a = .error e := by
  cases x with
  | error e' =>
    constructor
    · intro h
      exact .inl (congrArg Except.error (Except.error.inj h))
    · rintro (h | ⟨a, h, -⟩)
      · exact congrArg Except.error (Except.error.inj h)
      · cases h
  | ok a =>
    constructor
    · intro h
      exact .inr ⟨a, rfl, h⟩
    · rintro (h | ⟨a', h, hf⟩)
      · cases h
      · obtain rfl := Except.ok.inj h
        exact hf

/-- A step that is followed by one which always succeeds fails by itself. -/
theorem bind_ok_eq_error_iff {ε α β : Type} {x : Except ε α} {g : α → β} {e : ε} :
    (x >>= fun a ↦ .ok (g a)) = .error e ↔ x = .error e := by
  rw [bind_eq_error_iff]
  constructor
  · rintro (h | ⟨a, -, h⟩)
    · exact h
    · cases h
  · exact .inl

variable {store : ModuleStore} {missing e : BundleError} {path file importer : Path}
  {visited : List Path} {content : Content} {specifier : Text} {specifiers : List Text}
  {r : Inlined}

/-! ## One module -/

theorem visit_of_unresolved (h : store.resolve? path = none) :
    visit store missing path visited = .error missing := by
  rw [visit]
  split
  · rfl
  · rename_i hfile
    rw [h] at hfile
    exact absurd hfile (by simp)

theorem visit_of_resolved (hfile : store.resolve? path = some (file, content)) :
    visit store missing path visited =
      if file ∈ visited then .ok ⟨[], []⟩
      else
        match content with
        | .bytes _ => .error (.unreadable file .notUtf8)
        | .text source =>
          visitAll store file (Script.detachLocal source).specifiers (file :: visited) >>=
            fun below ↦ .ok ⟨below.code ++ body source, below.modules ++ [file]⟩ := by
  rw [visit]
  split
  · rename_i hnone
    rw [hfile] at hnone
    exact absurd hnone (by simp)
  · rename_i file' content' hfile'
    rw [hfile] at hfile'
    obtain ⟨rfl, rfl⟩ := Prod.mk.inj (Option.some.inj hfile')
    by_cases h : file ∈ visited
    · rw [dif_pos h, if_pos h]
    · rw [dif_neg h, if_neg h]
      cases content <;> rfl

theorem visit_of_mem (hfile : store.resolve? path = some (file, content)) (h : file ∈ visited) :
    visit store missing path visited = .ok ⟨[], []⟩ := by
  rw [visit_of_resolved hfile, if_pos h]

theorem visit_of_bytes {b : List UInt8} (hfile : store.resolve? path = some (file, .bytes b))
    (h : file ∉ visited) :
    visit store missing path visited = .error (.unreadable file .notUtf8) := by
  rw [visit_of_resolved hfile, if_neg h]

/-- A new module: its dependencies, then the module itself. -/
theorem visit_of_text {source : Text} (hfile : store.resolve? path = some (file, .text source))
    (h : file ∉ visited) :
    visit store missing path visited =
      visitAll store file (Script.detachLocal source).specifiers (file :: visited) >>=
        fun below ↦ .ok ⟨below.code ++ body source, below.modules ++ [file]⟩ := by
  rw [visit_of_resolved hfile, if_neg h]

/-! ## The modules of a list of specifiers -/

theorem visitAll_cons_eq_ok_iff :
    visitAll store importer (specifier :: specifiers) visited = .ok r ↔
      ∃ first, visit store (.moduleNotFound specifier importer) (resolveImport importer specifier)
          visited = .ok first ∧
        ∃ others, visitAll store importer specifiers (first.modules ++ visited) = .ok others ∧
          r = ⟨first.code ++ '\n' :: others.code, first.modules ++ others.modules⟩ := by
  rw [visitAll, bind_eq_ok_iff]
  refine exists_congr fun first ↦ and_congr_right fun _ ↦ ?_
  rw [bind_eq_ok_iff]
  refine exists_congr fun others ↦ and_congr_right fun _ ↦ ?_
  exact ⟨fun h ↦ (Except.ok.inj h).symm, fun h ↦ congrArg Except.ok h.symm⟩

theorem visitAll_cons_eq_error_iff :
    visitAll store importer (specifier :: specifiers) visited = .error e ↔
      visit store (.moduleNotFound specifier importer) (resolveImport importer specifier)
          visited = .error e ∨
        ∃ first, visit store (.moduleNotFound specifier importer)
            (resolveImport importer specifier) visited = .ok first ∧
          visitAll store importer specifiers (first.modules ++ visited) = .error e := by
  rw [visitAll, bind_eq_error_iff]
  refine or_congr_right (exists_congr fun first ↦ and_congr_right fun _ ↦ ?_)
  exact bind_ok_eq_error_iff

/-! ## Induction over successful visits -/

/-- **Induction over successful visits.** `P` speaks of the visit of a path and `Q` of the visits of
the modules that specifiers of one module stand for; both depend on the modules visited before and
on what the visit adds. -/
theorem visit_ok_induction {P : Path → List Path → Inlined → Prop}
    {Q : Path → List Text → List Path → Inlined → Prop}
    (again : ∀ {path file visited content}, store.resolve? path = some (file, content) →
      file ∈ visited → P path visited ⟨[], []⟩)
    (fresh : ∀ {path file visited source below},
      store.resolve? path = some (file, .text source) → file ∉ visited →
      Q file (Script.detachLocal source).specifiers (file :: visited) below →
      P path visited ⟨below.code ++ body source, below.modules ++ [file]⟩)
    (nil : ∀ {importer visited}, Q importer [] visited ⟨[], []⟩)
    (cons : ∀ {importer specifier specifiers visited first others},
      P (resolveImport importer specifier) visited first →
      Q importer specifiers (first.modules ++ visited) others →
      Q importer (specifier :: specifiers) visited
        ⟨first.code ++ '\n' :: others.code, first.modules ++ others.modules⟩)
    (h : visit store missing path visited = .ok r) : P path visited r := by
  refine visit.induct store (fun missing path visited ↦ ∀ r,
    visit store missing path visited = .ok r → P path visited r)
    (fun importer specifiers visited ↦ ∀ r,
      visitAll store importer specifiers visited = .ok r → Q importer specifiers visited r)
    ?_ ?_ ?_ ?_ ?_ ?_ missing path visited r h
  -- Of the six ways in which visits go, the two that fail contradict the hypothesis.
  · intro missing path visited hfile r h
    rw [visit_of_unresolved hfile] at h
    exact absurd h (by simp)
  · intro missing path visited file content hfile hmem r h
    rw [visit_of_mem hfile hmem] at h
    obtain rfl := Except.ok.inj h
    exact again hfile hmem
  · intro missing path visited file hmem b hfile _ _ r h
    rw [visit_of_bytes hfile hmem] at h
    exact absurd h (by simp)
  · intro missing path visited file hmem source hfile _ _ ih r h
    rw [visit_of_text hfile hmem, bind_eq_ok_iff] at h
    obtain ⟨below, hbelow, h⟩ := h
    obtain rfl := Except.ok.inj h
    exact fresh hfile hmem (ih below hbelow)
  · intro importer visited r h
    rw [visitAll] at h
    obtain rfl := Except.ok.inj h
    exact nil
  · intro importer visited specifier specifiers ihfirst ihothers r h
    obtain ⟨first, hfirst, others, hothers, rfl⟩ := visitAll_cons_eq_ok_iff.mp h
    exact cons (ihfirst first hfirst) (ihothers first others hothers)

/-! ## Bundles -/

theorem make_eq_ok_iff {root entry : Path} {b : Bundle} :
    make store root entry = .ok b ↔
      ∃ all, visit store (.entryNotFound (root.join entry).normalize) (root.join entry).normalize []
          = .ok all ∧
        b = { code := trim (if all.modules.getLast?.any Path.isTyped then
                TypeSyntax.eraseTypes all.code else all.code)
              isTyped := all.modules.getLast?.any Path.isTyped
              modules := all.modules } := by
  rw [make, bind_eq_ok_iff]
  refine exists_congr fun all ↦ and_congr_right fun _ ↦ ?_
  exact ⟨fun h ↦ (Except.ok.inj h).symm, fun h ↦ congrArg Except.ok h.symm⟩

theorem make_eq_error_iff {root entry : Path} :
    make store root entry = .error e ↔
      visit store (.entryNotFound (root.join entry).normalize) (root.join entry).normalize []
        = .error e := by
  rw [make]
  exact bind_ok_eq_error_iff

/-! ## A module that names one other module -/

section OneImport

variable {f g : Path} {t u specifier : Text}
  (ht : (Script.detachLocal t).specifiers = [specifier])
  (hnamed : store.resolve? (resolveImport f specifier) = some (g, .text u))
  (hu : (Script.detachLocal u).specifiers = []) (hne : g ≠ f)

include ht hnamed hu hne

/-- The module that is named comes first, if it names none itself. -/
theorem visit_of_one_import (hfile : store.resolve? path = some (f, .text t))
    (missing : BundleError) :
    visit store missing path [] = .ok ⟨body u ++ '\n' :: body t, [g, f]⟩ := by
  have hinner : visit store (.moduleNotFound specifier f) (resolveImport f specifier) [f] =
      .ok ⟨body u, [g]⟩ := by
    rw [visit_of_text hnamed (by simpa using hne), hu, visitAll]
    rfl
  have hall : visitAll store f [specifier] [f] = .ok ⟨body u ++ ['\n'], [g]⟩ :=
    visitAll_cons_eq_ok_iff.mpr ⟨_, hinner, ⟨[], []⟩, by rw [visitAll], rfl⟩
  rw [visit_of_text hfile List.not_mem_nil, ht, hall, List.append_cons (body u) '\n' (body t)]
  rfl

theorem make_of_one_import {root entry : Path} {isTyped : Bool}
    (hentry : store.resolve? (root.join entry).normalize = some (f, .text t))
    (htyped : f.isTyped = isTyped) :
    make store root entry = .ok
      { code := trim (if isTyped then TypeSyntax.eraseTypes (body u ++ '\n' :: body t)
          else body u ++ '\n' :: body t)
        isTyped
        modules := [g, f] } := by
  subst htyped
  exact make_eq_ok_iff.mpr ⟨_, visit_of_one_import ht hnamed hu hne hentry _, rfl⟩

end OneImport

end Bundle

end PluginPack
