import PluginPack.Proofs.Registry.EntryCount
import PluginPack.Proofs.TypeSyntax.Head

/-!
# Every registered function is declared

A registration names a handler for every function that it lists. Either the code of the bundle
declares the handler, and then what is written behind the code does not change that, or a
declaration is written for it. The types of that declaration are erased, whatever its parameters and
its body are, but no type reaches the word `function` and the name behind it.
-/

namespace PluginPack

open Text TypeSyntax
open Documentation (distinctFrom_sublist map_name_distinct)

namespace Registry

variable {b : Option Char} {code name r t x : Text} {functions : List Documentation.Function}

/-! ## Longer scripts -/

theorem isCall_append (h : isCall name t = true) (r : Text) : isCall name (t ++ r) = true := by
  rw [isCall] at h
  split at h
  · rename_i s hs
    have hname : word? name (t ++ r) = some (s ++ r) := by
      rw [word?_eq_some_iff.mp hs, List.append_assoc, word?_append]
    have hne : trimStart s ≠ [] := fun hnil ↦ by simp [hnil] at h
    have hstop : trimStart (s ++ r) = trimStart s ++ r := by
      conv_lhs => rw [← List.takeWhile_append_dropWhile (p := isWhite) (l := s), List.append_assoc]
      rw [trimStart_append (List.all_eq_true.mp List.all_takeWhile)]
      exact ((stops_dropWhile isWhite s).append hne).dropWhile_eq
    simp only [isCall, hname, hstop]
    rwa [List.head?_append_of_ne_nil _ hne]
  · cases h

theorem isSpacedCall_append {least : Nat} (h : isSpacedCall least name t = true) (r : Text) :
    isSpacedCall least name (t ++ r) = true := by
  rw [isSpacedCall, List.any_eq_true] at h ⊢
  obtain ⟨n, hn, h⟩ := h
  rw [Bool.and_eq_true] at h
  have hle : n ≤ t.length := by
    have hwhite := (List.takeWhile_prefix isWhite (l := t)).length_le
    rw [List.mem_range] at hn
    omega
  have hlonger : (t.takeWhile isWhite).length ≤ ((t ++ r).takeWhile isWhite).length := by
    rw [List.takeWhile_append]
    split
    · rename_i hall
      simp only [List.length_append]
      omega
    · exact Nat.le_refl _
  refine ⟨n, ?_, ?_⟩
  · rw [List.mem_range] at hn ⊢
    omega
  · rw [Bool.and_eq_true, List.drop_append_of_le_length hle]
    exact ⟨h.1, isCall_append h.2 r⟩

theorem isDeclaration_append (h : isDeclaration name t = true) (r : Text) :
    isDeclaration name (t ++ r) = true := by
  rw [isDeclaration] at h
  split at h
  · cases h
  · rename_i s hs
    have hfunction : word? "function".toList (t ++ r) = some (s ++ r) := by
      rw [word?_eq_some_iff.mp hs, List.append_assoc, word?_append]
    rw [isDeclaration, hfunction]
    rw [Bool.or_eq_true] at h ⊢
    rcases h with h | h
    · exact .inl (isSpacedCall_append h r)
    · refine .inr ?_
      split at h
      · rename_i s' hstar
        -- The star is not white, so the white space in front of it ends there.
        have hblack : trimStart s = '*' :: s' := word?_eq_some_iff.mp hstar
        have htrim : trimStart (s ++ r) = '*' :: (s' ++ r) := by
          conv_lhs => rw [← List.takeWhile_append_dropWhile (p := isWhite) (l := s),
            List.append_assoc, trimStart_append (List.all_eq_true.mp List.all_takeWhile)]
          rw [← trimStart, hblack]
          rfl
        rw [htrim]
        exact isSpacedCall_append h r
      · cases h

theorem declaresFrom_append (h : declaresFrom name b t = true) (r : Text) :
    declaresFrom name b (t ++ r) = true := by
  induction t generalizing b with
  | nil => cases h
  | cons c t ih =>
    rw [declaresFrom, Bool.or_eq_true, Bool.and_eq_true] at h
    rw [List.cons_append, declaresFrom, Bool.or_eq_true, Bool.and_eq_true]
    exact h.imp (fun h ↦ ⟨h.1, isDeclaration_append h.2 r⟩) ih

theorem declares_append (h : declares code name = true) (r : Text) :
    declares (code ++ r) name = true :=
  declaresFrom_append h r

theorem declaresFrom_behind (h : declaresFrom name (x.getLast?.or b) t = true) :
    declaresFrom name b (x ++ t) = true := by
  induction x generalizing b with
  | nil => exact h
  | cons c x ih =>
    rw [← List.singleton_append, List.getLast?_append, Option.or_assoc] at h
    have hrest : declaresFrom name (some c) (x ++ t) = true := ih h
    rw [List.cons_append, declaresFrom, hrest, Bool.or_true]

/-- What begins a line is declared as it is at the beginning of a script. -/
theorem declaresFrom_of_declares (h : declares t name = true) (hb : b.any isWordChar = false) :
    declaresFrom name b t = true := by
  cases t with
  | nil => cases h
  | cons c t =>
    rw [declares, declaresFrom] at h
    rwa [declaresFrom, hb]

/-! ## Declarations -/

/-- A name that a documented function may have. -/
structure IsHandlerName (name : Text) : Prop where
  start : name.head?.any isNameStart = true
  chars : ∀ c ∈ name.tail, isNameChar c = true

theorem isNameChar_of_isNameStart {c : Char} (h : isNameStart c = true) : isNameChar c = true := by
  rw [isNameStart, Bool.or_eq_true, Bool.or_eq_true, beq_iff_eq, beq_iff_eq] at h
  rcases h with (h | rfl) | rfl
  · exact isNameChar_of_isAlphanum (by rw [Char.isAlphanum, h, Bool.true_or])
  · rfl
  · rfl

theorem IsHandlerName.ne_nil (h : IsHandlerName name) : name ≠ [] := by
  rintro rfl
  cases h.start

theorem IsHandlerName.isNameChar (h : IsHandlerName name) : ∀ c ∈ name, isNameChar c = true := by
  obtain ⟨c, r, rfl⟩ := List.exists_cons_of_ne_nil h.ne_nil
  exact List.forall_mem_cons.mpr ⟨isNameChar_of_isNameStart h.start, h.chars⟩

theorem IsHandlerName.not_mem (h : IsHandlerName name) {c : Char}
    (hc : PluginPack.isNameChar c = false) : c ∉ name := fun hmem ↦ by
  rw [h.isNameChar c hmem] at hc
  cases hc

theorem IsHandlerName.isKey (h : IsHandlerName name) : IsKey name :=
  ⟨h.not_mem (by decide), fun hc ↦ h.not_mem (c := ' ') (by decide) (List.mem_of_mem_head? hc)⟩

/-- A declaration keeps its head. -/
theorem exists_declaration {f : Documentation.Function} (h : IsHandlerName f.name)
    (isTyped : Bool) :
    ∃ r, declaration f isTyped = functionHead f.isAsync f.name ++ '(' :: r := by
  have htext : ∃ r, (if f.isAsync then "async ".toList else []) ++ "function ".toList ++ f.name ++
      '(' :: f.params ++ ") \x7b\n  ".toList ++ f.body ++ "\n\x7d".toList =
        functionHead f.isAsync f.name ++ '(' :: r := by
    simp only [functionHead, List.append_assoc, List.cons_append]
    exact ⟨_, rfl⟩
  obtain ⟨r, hr⟩ := htext
  rw [declaration, hr]
  cases isTyped with
  | false => exact ⟨r, rfl⟩
  | true => exact (isHead_functionHead f.isAsync h.ne_nil h.isNameChar).exists_eraseTypes r

theorem isDeclaration_function (name r : Text) :
    isDeclaration name ("function ".toList ++ (name ++ '(' :: r)) = true := by
  have hcall : isCall name (name ++ '(' :: r) = true := by
    rw [isCall, word?_append]
    rfl
  have hspaced : isSpacedCall 1 name (' ' :: (name ++ '(' :: r)) = true := by
    rw [isSpacedCall, List.any_eq_true]
    refine ⟨1, List.mem_range.mpr ?_, ?_⟩
    · rw [List.takeWhile_cons_of_pos rfl, List.length_cons]
      omega
    · simpa using hcall
  have hfunction : "function ".toList ++ (name ++ '(' :: r) =
      "function".toList ++ ' ' :: (name ++ '(' :: r) := rfl
  rw [isDeclaration, hfunction, word?_append]
  simp only [hspaced, Bool.true_or]

/-- **A declaration declares its function.** -/
theorem declares_declaration {f : Documentation.Function} (h : IsHandlerName f.name)
    (isTyped : Bool) : declares (declaration f isTyped) f.name = true := by
  obtain ⟨r, hr⟩ := exists_declaration h isTyped
  rw [hr, functionHead, declares, List.append_assoc, List.append_assoc]
  refine declaresFrom_behind ?_
  have hbehind : (((if f.isAsync then "async ".toList else []).getLast?.or none).any isWordChar) =
      false := by
    cases f.isAsync <;> rfl
  have hfirst : "function ".toList ++ (f.name ++ '(' :: r) =
      'f' :: ("unction ".toList ++ (f.name ++ '(' :: r)) := rfl
  rw [hfirst, declaresFrom, hbehind, ← hfirst, isDeclaration_function]
  rfl

/-! ## Packages -/

/-- The functions that the code of a bundle does not declare, the first of each name. -/
def missing (code : Text) (functions : List Documentation.Function) :
    List Documentation.Function :=
  (Documentation.distinct functions).filter fun f ↦ !declares code f.name

theorem preamble_eq (code : Text) (isTyped : Bool) (functions : List Documentation.Function) :
    preamble code isTyped (Documentation.distinct functions) =
      code ++ (missing code functions).flatMap fun f ↦ "\n\n".toList ++ declaration f isTyped := by
  rw [preamble, missing, List.append_cancel_left_eq]
  induction Documentation.distinct functions with
  | nil => rfl
  | cons f fs ih =>
    rw [List.flatMap_cons, ih]
    cases hdeclares : declares code f.name with
    | true => rw [List.filter_cons_of_neg (by simp [hdeclares]), if_pos rfl, List.nil_append]
    | false =>
      rw [List.filter_cons_of_pos (by simp [hdeclares]), List.flatMap_cons,
        if_neg Bool.false_ne_true]

theorem map_name_missing (code : Text) (functions : List Documentation.Function) :
    (missing code functions).map (·.name) =
      (functions.map (·.name)).eraseDups.filter fun name ↦ !declares code name := by
  rw [missing, ← map_name_distinct, List.filter_map]
  rfl

theorem declares_preamble {f : Documentation.Function} (hname : IsHandlerName f.name)
    (hf : f ∈ Documentation.distinct functions) (code : Text) (isTyped : Bool) :
    declares (preamble code isTyped (Documentation.distinct functions)) f.name = true := by
  rw [preamble_eq]
  cases hdeclares : declares code f.name with
  | true => exact declares_append hdeclares _
  | false =>
    have hmem : f ∈ missing code functions := List.mem_filter.mpr ⟨hf, by rw [hdeclares]; rfl⟩
    obtain ⟨fs, gs, hsplit⟩ := List.append_of_mem hmem
    rw [hsplit, List.flatMap_append, List.flatMap_cons, ← List.append_assoc, ← List.append_assoc,
      ← List.append_assoc]
    refine declaresFrom_append (declaresFrom_behind (declaresFrom_of_declares
      (declares_declaration hname isTyped) ?_)) _
    rw [List.getLast?_append]
    rfl

/-- **Every handler is declared.** In front of the registration stands the code of the bundle with a
declaration for every function whose name the code does not declare, the names once each and in the
order of the list; and what stands there declares every function that the registration lists. -/
theorem handlers_declared (hnames : ∀ f ∈ functions, IsHandlerName f.name) (code : Text)
    (isTyped : Bool) (d : Descriptor) :
    ∃ text, script code isTyped functions d =
        text ++ "\n\n".toList ++ registration (Documentation.distinct functions) d ∧
      listedNames (registration (Documentation.distinct functions) d) =
        (functions.map (·.name)).eraseDups ∧
      (∀ name ∈ listedNames (registration (Documentation.distinct functions) d),
        declares text name = true) ∧
      text = code ++ (missing code functions).flatMap
        (fun f ↦ "\n\n".toList ++ declaration f isTyped) ∧
      (missing code functions).map (·.name) =
        (functions.map (·.name)).eraseDups.filter (fun name ↦ !declares code name) ∧
      ∀ f ∈ missing code functions, declares (declaration f isTyped) f.name = true := by
  have hdistinct : ∀ f ∈ Documentation.distinct functions, IsHandlerName f.name :=
    fun f hf ↦ hnames f ((distinctFrom_sublist [] functions).subset hf)
  have hlisted : listedNames (registration (Documentation.distinct functions) d) =
      (Documentation.distinct functions).map (·.name) :=
    listedNames_registration (fun f hf ↦ (hdistinct f hf).isKey) d
  refine ⟨preamble code isTyped (Documentation.distinct functions), rfl, ?_, ?_,
    preamble_eq code isTyped functions, map_name_missing code functions, ?_⟩
  · rw [hlisted, map_name_distinct]
  · intro name hname
    rw [hlisted] at hname
    obtain ⟨f, hf, rfl⟩ := List.mem_map.mp hname
    exact declares_preamble (hdistinct f hf) hf code isTyped
  · intro f hf
    exact declares_declaration (hdistinct f (List.mem_filter.mp hf).1) isTyped

/-- A function with typed parameters and a body that looks like types. -/
def typedSource (name : String) : Documentation.Function :=
  { name := name.toList
    description := []
    parameters := []
    returns := []
    permissions := []
    body := "const n: number = (x as any) < 2 ? 1 : 2;".toList
    params := "x: Map<string, (y: T) => U>".toList
    isAsync := true
    line := 1 }

/-- Of two functions only the one that the code does not declare gets a declaration. -/
theorem handlers_declared_typedSource :
    ∃ text, script "function load() {}".toList true [typedSource "load", typedSource "säve"]
        ⟨[], [], [], [], [], []⟩ =
        text ++ "\n\n".toList ++ registration [typedSource "load", typedSource "säve"]
          ⟨[], [], [], [], [], []⟩ ∧
      declares text "säve".toList = true ∧
      missing "function load() {}".toList [typedSource "load", typedSource "säve"] =
        [typedSource "säve"] := by
  have hnames : ∀ f ∈ [typedSource "load", typedSource "säve"], IsHandlerName f.name := by
    simp only [List.forall_mem_cons]
    exact ⟨⟨rfl, by decide⟩, ⟨rfl, by decide⟩, by simp⟩
  obtain ⟨text, htext, hlisted, hdeclares, -⟩ := handlers_declared hnames
    "function load() {}".toList true ⟨[], [], [], [], [], []⟩
  refine ⟨text, htext, hdeclares _ ?_, by decide⟩
  rw [hlisted]
  decide

end Registry

end PluginPack
