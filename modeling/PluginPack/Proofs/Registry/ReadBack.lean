import PluginPack.Proofs.Documentation.Distinct
import PluginPack.Proofs.Registry.Spelling

/-!
# Reading a registration back

A registration gives back what it was made of: the identity of the package, and for every function
the first record of its name, with permissions, parameters and return values in their order. The
reader below is written against the literals alone, so that what it answers is what the registration
says; no field can change how another one is read, since a quoted text is one token.

## The layers

- a text of the script stands for tokens: `Writes`, with one lemma for each piece of a registration;
- tokens stand for a literal: `Literal.isReadBack`;
- a literal stands for a record: the readers of this module, each with the literal it reads.
-/

namespace PluginPack.Registry

open Text
open Documentation (distinctFrom_sublist)

/-! ## What a registration says -/

/-- The fields of a descriptor that are registered. -/
structure Identity where
  name : Text
  version : Text
  description : Text
  authorId : Text
  packageId : Text
deriving DecidableEq, Repr

/-- What is registered for a function. -/
structure Entry where
  name : Text
  permissions : List Documentation.Permission
  description : Text
  parameters : List Documentation.Parameter
  returns : List Documentation.Return
deriving DecidableEq, Repr

/-- What is registered for a package. -/
structure Contents where
  identity : Identity
  entries : List Entry
deriving DecidableEq, Repr

def Identity.of (d : Descriptor) : Identity :=
  ⟨d.name, d.version, d.description, d.authorId, d.packageId⟩

def Entry.of (f : Documentation.Function) : Entry :=
  ⟨f.name, f.permissions, f.description, f.parameters, f.returns⟩

/-- What a package registers: its identity, and an entry for the first function of each name. -/
def Contents.of (functions : List Documentation.Function) (d : Descriptor) : Contents :=
  ⟨.of d, (functions.eraseDupsBy fun f g ↦ f.name == g.name).map .of⟩

/-! ## Readers -/

/-- The values of an object with the given keys, in their order and with no others. -/
def Literal.values? (keys : List String) : Literal → Option (List Literal)
  | .object ms => if ms.map Prod.fst = keys.map String.toList then some (ms.map Prod.snd) else none
  | _ => none

def permission? (l : Literal) : Option Documentation.Permission :=
  match l.values? ["type", "resource"] with
  | some [.text capability, .text resource] => some ⟨capability, resource⟩
  | _ => none

def parameter? (l : Literal) : Option Documentation.Parameter :=
  match l.values? ["name", "idx", "type", "description"] with
  | some [.text name, .number index, .text type, .text description] =>
    some ⟨name, index, type, description⟩
  | _ => none

def return? (l : Literal) : Option Documentation.Return :=
  match l.values? ["type", "idx", "description"] with
  | some [.text type, .number index, .text description] => some ⟨type, index, description⟩
  | _ => none

/-- The entry of a function, whose handler has to be the function of that name. -/
def entryOf? (m : Text × Literal) : Option Entry :=
  match m.2.values? ["handler", "permissions", "description", "parameters", "returns"] with
  | some [.name handler, .list ps, .text description, .list as, .list rs] =>
    if handler = m.1 then do
      let permissions ← ps.mapM permission?
      let parameters ← as.mapM parameter?
      let returns ← rs.mapM return?
      some ⟨m.1, permissions, description, parameters, returns⟩
    else none
  | _ => none

def identity? (l : Literal) : Option Identity :=
  match l.values? ["name", "version", "description", "author_id", "package_id"] with
  | some [.text name, .text version, .text description, .text authorId, .text packageId] =>
    some ⟨name, version, description, authorId, packageId⟩
  | _ => none

def contents? (l : Literal) : Option Contents :=
  match l.values? ["meta", "functions"] with
  | some [identity, .object entries] => do
    let i ← identity? identity
    let es ← entries.mapM entryOf?
    some ⟨i, es⟩
  | _ => none

/-- Reads a registration: the place that is assigned to, an object, and a semicolon at the end. -/
def read? (t : Text) : Option Contents :=
  match tokens? t with
  | some (.name a :: .mark .dot :: .name b :: .mark .equals :: r) =>
    if a ++ '.' :: b = target then
      match value? [] r with
      | some (l, [.mark .semicolon]) => contents? l
      | _ => none
    else none
  | _ => none

/-! ## The literals of records -/

def permissionLiteral (p : Documentation.Permission) : Literal :=
  .object [("type".toList, .text p.capability), ("resource".toList, .text p.resource)]

def parameterLiteral (p : Documentation.Parameter) : Literal :=
  .object [("name".toList, .text p.name), ("idx".toList, .number p.index),
    ("type".toList, .text p.type), ("description".toList, .text p.description)]

def returnLiteral (r : Documentation.Return) : Literal :=
  .object [("type".toList, .text r.type), ("idx".toList, .number r.index),
    ("description".toList, .text r.description)]

def functionLiteral (f : Documentation.Function) : Literal :=
  .object [("handler".toList, .name f.name),
    ("permissions".toList, .list (f.permissions.map permissionLiteral)),
    ("description".toList, .text f.description),
    ("parameters".toList, .list (f.parameters.map parameterLiteral)),
    ("returns".toList, .list (f.returns.map returnLiteral))]

def identityLiteral (d : Descriptor) : Literal :=
  .object [("name".toList, .text d.name), ("version".toList, .text d.version),
    ("description".toList, .text d.description), ("author_id".toList, .text d.authorId),
    ("package_id".toList, .text d.packageId)]

def registrationLiteral (fs : List Documentation.Function) (d : Descriptor) : Literal :=
  .object [("meta".toList, identityLiteral d),
    ("functions".toList, .object (fs.map fun f ↦ (f.name, functionLiteral f)))]

theorem permission?_permissionLiteral (p : Documentation.Permission) :
    permission? (permissionLiteral p) = some p := rfl

theorem parameter?_parameterLiteral (p : Documentation.Parameter) :
    parameter? (parameterLiteral p) = some p := rfl

theorem return?_returnLiteral (r : Documentation.Return) : return? (returnLiteral r) = some r := rfl

theorem identity?_identityLiteral (d : Descriptor) :
    identity? (identityLiteral d) = some (.of d) := rfl

/-- Items that are read one by one are read together. -/
theorem mapM_map_eq_some {α β γ : Type} {write : α → β} {read : β → Option γ} {said : α → γ}
    (h : ∀ a, read (write a) = some (said a)) (as : List α) :
    (as.map write).mapM read = some (as.map said) := by
  induction as with
  | nil => rfl
  | cons a as ih =>
    rw [List.map_cons, List.map_cons, List.mapM_cons, h, ih]
    rfl

theorem entryOf?_functionLiteral (f : Documentation.Function) :
    entryOf? (f.name, functionLiteral f) = some (.of f) := by
  have hvalues : (functionLiteral f).values?
      ["handler", "permissions", "description", "parameters", "returns"] =
      some [.name f.name, .list (f.permissions.map permissionLiteral), .text f.description,
        .list (f.parameters.map parameterLiteral), .list (f.returns.map returnLiteral)] := rfl
  have hps := mapM_map_eq_some permission?_permissionLiteral f.permissions
  have has := mapM_map_eq_some parameter?_parameterLiteral f.parameters
  have hrs := mapM_map_eq_some return?_returnLiteral f.returns
  rw [List.map_id'] at hps has hrs
  rw [entryOf?, hvalues]
  simp only [if_pos, hps, has, hrs]
  rfl

theorem contents?_registrationLiteral (fs : List Documentation.Function) (d : Descriptor) :
    contents? (registrationLiteral fs d) = some ⟨.of d, fs.map .of⟩ := by
  have hvalues : (registrationLiteral fs d).values? ["meta", "functions"] =
      some [identityLiteral d, .object (fs.map fun f ↦ (f.name, functionLiteral f))] := rfl
  have hentries := mapM_map_eq_some entryOf?_functionLiteral fs
  rw [contents?, hvalues]
  simp only [identity?_identityLiteral, hentries]
  rfl

/-! ## The literal of a registration -/

theorem spells_permissionText (p : Documentation.Permission) :
    Spells (permissionText p) (permissionLiteral p) :=
  spells_inlineObject <|
    .cons (spellsMember_member rfl (spells_quoted p.capability)) <|
    .cons (spellsMember_member rfl (spells_quoted p.resource)) .nil

theorem spells_parameterText (p : Documentation.Parameter) :
    Spells (parameterText p) (parameterLiteral p) :=
  spells_inlineObject <|
    .cons (spellsMember_member rfl (spells_quoted p.name)) <|
    .cons (spellsMember_member rfl (spells_ofNat p.index)) <|
    .cons (spellsMember_member rfl (spells_quoted p.type)) <|
    .cons (spellsMember_member rfl (spells_quoted p.description)) .nil

theorem spells_returnText (r : Documentation.Return) : Spells (returnText r) (returnLiteral r) :=
  spells_inlineObject <|
    .cons (spellsMember_member rfl (spells_quoted r.type)) <|
    .cons (spellsMember_member rfl (spells_ofNat r.index)) <|
    .cons (spellsMember_member rfl (spells_quoted r.description)) .nil

/-- Texts that are written one for each item spell the literals of the items. -/
theorem forall₂_map {α β γ : Type} {R : β → γ → Prop} {f : α → β} {g : α → γ} {as : List α}
    (h : ∀ a ∈ as, R (f a) (g a)) : List.Forall₂ R (as.map f) (as.map g) := by
  rw [List.forall₂_map_left_iff, List.forall₂_map_right_iff, List.forall₂_same]
  exact h

/-- The members of an entry, as they are written between its braces. -/
def entryMembers (f : Documentation.Function) : List Text :=
  [member "handler" f.name,
    member "permissions" (inlineList (f.permissions.map permissionText)),
    member "description" (quoted f.description),
    member "parameters" (blockList (f.parameters.map parameterText)),
    member "returns" (blockList (f.returns.map returnText))]

theorem functionText_eq (f : Documentation.Function) :
    functionText f = "    ".toList ++ (f.name ++ ": ".toList ++
      ("\x7b\n      ".toList ++ ",\n      ".toList.intercalate (entryMembers f) ++
        "\n    \x7d".toList)) := by
  -- The pieces are cut at other places on the two sides, so the literals are spelled out.
  unfold functionText
  simp only [entryMembers, member, List.intercalate_cons_cons, List.intercalate_singleton,
    String.reduceToList, List.cons_append, List.nil_append, List.append_assoc]

theorem spellsMember_functionText {f : Documentation.Function} (hf : isIdentifier f.name = true) :
    SpellsMember (functionText f) (f.name, functionLiteral f) := by
  have hmembers : List.Forall₂ SpellsMember (entryMembers f) _ :=
    .cons (spellsMember_member rfl (spells_name hf)) <|
    .cons (spellsMember_member rfl
      (spells_inlineList (forall₂_map fun p _ ↦ spells_permissionText p))) <|
    .cons (spellsMember_member rfl (spells_quoted f.description)) <|
    .cons (spellsMember_member rfl
      (spells_blockList (forall₂_map fun p _ ↦ spells_parameterText p))) <|
    .cons (spellsMember_member rfl
      (spells_blockList (forall₂_map fun r _ ↦ spells_returnText r))) .nil
  rw [functionText_eq]
  have hindent : Scan.between.run? "    ".toList = some ([], .between) := rfl
  refine Writes.append_of_run? hindent (spellsMember_append hf ?_)
  exact Encloses.spells_object ⟨rfl, rfl, rfl, rfl, rfl⟩ hmembers

/-- The members of an identity, as they are written between its braces. -/
def identityMembers (d : Descriptor) : List Text :=
  [member "name" (quoted d.name), member "version" (quoted d.version),
    member "description" (quoted d.description), member "author_id" (quoted d.authorId),
    member "package_id" (quoted d.packageId)]

/-- How an identity is written, as an object. -/
def identityText (d : Descriptor) : Text :=
  "\x7b\n    ".toList ++ ",\n    ".toList.intercalate (identityMembers d) ++ "\n  \x7d".toList

/-- How the entries of functions are written, as an object. -/
def entriesText (fs : List Documentation.Function) : Text :=
  "\x7b\n".toList ++ ",\n".toList.intercalate (fs.map functionText) ++
    ((if fs = [] then [] else ['\n']) ++ "  \x7d".toList)

/-- The object that is assigned. -/
def packageText (fs : List Documentation.Function) (d : Descriptor) : Text :=
  "\x7b\n  ".toList ++ ",\n  ".toList.intercalate
    [member "meta" (identityText d), member "functions" (entriesText fs)] ++ "\n\x7d".toList

theorem registration_eq (fs : List Documentation.Function) (d : Descriptor) :
    registration fs d = target ++ (" = ".toList ++ (packageText fs d ++ ";\n".toList)) := by
  unfold registration metaText packageText identityText entriesText
  simp only [identityMembers, member, List.intercalate_cons_cons, List.intercalate_singleton,
    String.reduceToList, List.cons_append, List.nil_append, List.append_assoc]

theorem spells_identityText (d : Descriptor) : Spells (identityText d) (identityLiteral d) :=
  Encloses.spells_object ⟨rfl, rfl, rfl, rfl, rfl⟩ <|
    .cons (spellsMember_member rfl (spells_quoted d.name)) <|
    .cons (spellsMember_member rfl (spells_quoted d.version)) <|
    .cons (spellsMember_member rfl (spells_quoted d.description)) <|
    .cons (spellsMember_member rfl (spells_quoted d.authorId)) <|
    .cons (spellsMember_member rfl (spells_quoted d.packageId)) .nil

theorem spells_entriesText {fs : List Documentation.Function}
    (hfs : ∀ f ∈ fs, isIdentifier f.name = true) :
    Spells (entriesText fs) (.object (fs.map fun f ↦ (f.name, functionLiteral f))) := by
  have hmembers := forall₂_map fun f hf ↦ spellsMember_functionText (hfs f hf)
  -- The line break behind the last entry is missing when there is none.
  by_cases h : fs = []
  · rw [entriesText, if_pos h]
    exact Encloses.spells_object ⟨rfl, rfl, rfl, rfl, rfl⟩ hmembers
  · rw [entriesText, if_neg h]
    exact Encloses.spells_object ⟨rfl, rfl, rfl, rfl, rfl⟩ hmembers

theorem spells_packageText {fs : List Documentation.Function}
    (hfs : ∀ f ∈ fs, isIdentifier f.name = true) (d : Descriptor) :
    Spells (packageText fs d) (registrationLiteral fs d) :=
  Encloses.spells_object ⟨rfl, rfl, rfl, rfl, rfl⟩ <|
    .cons (spellsMember_member rfl (spells_identityText d)) <|
    .cons (spellsMember_member rfl (spells_entriesText hfs)) .nil

theorem tokens?_registration {fs : List Documentation.Function}
    (hfs : ∀ f ∈ fs, isIdentifier f.name = true) (d : Descriptor) :
    tokens? (registration fs d) =
      some (.name "Sapphillon".toList :: .mark .dot :: .name "Package".toList :: .mark .equals ::
        ((registrationLiteral fs d).tokens ++ [.mark .semicolon])) := by
  have htarget : Scan.between.run? (target ++ " = ".toList) =
      some ([.name "Sapphillon".toList, .mark .dot, .name "Package".toList, .mark .equals],
        .between) := rfl
  have hend : tokens? ";\n".toList = some [.mark .semicolon] := rfl
  have hpackage := spells_packageText hfs d _ _ rfl hend
  rw [registration_eq, ← List.append_assoc, tokens?_eq_some_iff]
  exact Scan.run?_append htarget (tokens?_eq_some_iff.mp hpackage)

theorem read?_registration {fs : List Documentation.Function}
    (hfs : ∀ f ∈ fs, isIdentifier f.name = true) (d : Descriptor) :
    read? (registration fs d) = some ⟨.of d, fs.map .of⟩ := by
  have htarget : "Sapphillon".toList ++ '.' :: "Package".toList = target := rfl
  rw [read?, tokens?_registration hfs d]
  simp only [htarget, if_true]
  rw [Literal.isReadBack, behind?]
  exact contents?_registrationLiteral fs d

/-! ## The first function of each name -/

theorem distinctFrom_eq (taken : List Text) (fs : List Documentation.Function) :
    Documentation.distinctFrom taken fs =
      (fs.filter fun f ↦ f.name ∉ taken).eraseDupsBy fun f g ↦ f.name == g.name := by
  induction fs generalizing taken with
  | nil => rfl
  | cons f fs ih =>
    by_cases hf : f.name ∈ taken
    · rw [Documentation.distinctFrom, if_pos hf, ih, List.filter_cons_of_neg (by simpa using hf)]
    · rw [Documentation.distinctFrom, if_neg hf, ih, List.filter_cons_of_pos (by simpa using hf),
        List.eraseDupsBy_cons, List.filter_filter]
      -- Both sides drop the later functions of this name, by one filter or by two.
      congr 2
      refine List.filter_congr ?_
      intro g _
      simp

theorem distinct_eq (fs : List Documentation.Function) :
    Documentation.distinct fs = fs.eraseDupsBy fun f g ↦ f.name == g.name := by
  rw [Documentation.distinct, distinctFrom_eq]
  simp

theorem read?_registration_distinct {functions : List Documentation.Function}
    (hnames : ∀ f ∈ functions, isIdentifier f.name = true) (d : Descriptor) :
    read? (registration (Documentation.distinct functions) d) = some (.of functions d) := by
  have hdistinct : ∀ f ∈ Documentation.distinct functions, isIdentifier f.name = true :=
    fun f hf ↦ hnames f ((distinctFrom_sublist [] functions).subset hf)
  rw [read?_registration hdistinct, distinct_eq, Contents.of]

/-- **A registration loses nothing.** A script ends in a registration, from which the identity of
the package and the first function of each name are read back, whatever stands in their fields; so
two registrations with the same text say the same. -/
theorem registration_lossless {functions : List Documentation.Function}
    (hnames : ∀ f ∈ functions, isIdentifier f.name = true) (code : Text) (isTyped : Bool)
    (d : Descriptor) :
    script code isTyped functions d =
        preamble code isTyped (Documentation.distinct functions) ++ "\n\n".toList ++
          registration (Documentation.distinct functions) d ∧
      read? (registration (Documentation.distinct functions) d) = some (.of functions d) ∧
      ∀ functions' d', (∀ f ∈ functions', isIdentifier f.name = true) →
        registration (Documentation.distinct functions') d' =
          registration (Documentation.distinct functions) d →
        Contents.of functions' d' = Contents.of functions d := by
  refine ⟨rfl, read?_registration_distinct hnames d, ?_⟩
  intro functions' d' hnames' h
  have hread := read?_registration_distinct hnames' d'
  rw [h, read?_registration_distinct hnames d] at hread
  exact (Option.some_inj.mp hread).symm

/-- A function whose description is a given text. -/
def described (name description : String) : Documentation.Function :=
  { name := name.toList
    description := description.toList
    parameters := [⟨"n".toList, 0, "number".toList, "a \"count\"".toList⟩]
    returns := []
    permissions := [⟨"FileSystemRead".toList, "C:\\".toList⟩]
    body := []
    params := "n".toList
    isAsync := false
    line := 1 }

/-- A description that looks like the end of its entry stays a description, and the second function
of a name is not registered. -/
theorem registration_lossless_described :
    read? (registration (Documentation.distinct
        [described "say" "hi\" \x7d, other: \x7b", described "say" "again"])
          ⟨"p".toList, "1".toList, [], "index.js".toList, "a".toList, "a.p".toList⟩) =
      some ⟨⟨"p".toList, "1".toList, [], "a".toList, "a.p".toList⟩,
        [.of (described "say" "hi\" \x7d, other: \x7b")]⟩ :=
  (registration_lossless (by decide) [] false _).2.1

end PluginPack.Registry
