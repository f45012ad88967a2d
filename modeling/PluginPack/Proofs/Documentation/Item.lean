import PluginPack.Documentation.Function
import PluginPack.Proofs.Text.Reading

/-!
# Items of a documentation block

What an author writes on the lines of a block: free text, parameters, return values and lists of
permissions. Every item is read back from its line, and a block gives the items of its lines in
their order, whatever the layout of the lines and however many empty lines stand between them.
-/

namespace PluginPack.Documentation

open Text

/-! ## Items -/

/-- What a line of a block is written for. -/
inductive Item where
  | text (t : Text)
  | param (type name description : Text)
  /-- A return value, under the tag `@returns` or the tag `@return`. -/
  | returns (plural : Bool) (type description : Text)
  | permissions (ps : List Permission)
deriving DecidableEq, Repr

/-- How a permission is written in a list. -/
def Permission.write (p : Permission) : Text :=
  '"' :: (p.capability ++ ':' :: (p.resource ++ ['"']))

/-- The tag of a return value. -/
def returnTag (plural : Bool) : Text := if plural then "@returns".toList else "@return".toList

namespace Item

/-- How an item is written. -/
def write : Item → Text
  | text t => t
  | param type name description =>
    "@param \x7b".toList ++ type ++ "\x7d ".toList ++ name ++ " - ".toList ++ description
  | returns plural type description =>
    returnTag plural ++ " \x7b".toList ++ type ++ "\x7d ".toList ++ description
  | permissions ps =>
    "@permission [".toList ++ ", ".toList.intercalate (ps.map Permission.write) ++ [']']

theorem write_param (type name description : Text) :
    (param type name description).write =
      "@param \x7b".toList ++ type ++ "\x7d ".toList ++ name ++ " - ".toList ++ description := rfl

theorem write_returns (plural : Bool) (type description : Text) :
    (returns plural type description).write =
      returnTag plural ++ " \x7b".toList ++ type ++ "\x7d ".toList ++ description := rfl

theorem write_permissions (ps : List Permission) :
    (permissions ps).write =
      "@permission [".toList ++ ", ".toList.intercalate (ps.map Permission.write) ++ [']'] := rfl

/-- What the line of an item says. -/
def line : Item → Line
  | text t => .text t
  | param type name description => .param type name description
  | returns _ type description => .returns type description
  | permissions ps => .permissions ps

/-- A text with something in it and without white space at its ends. -/
def IsEntry (t : Text) : Prop := t ≠ [] ∧ trim t = t

instance (t : Text) : Decidable (IsEntry t) := inferInstanceAs (Decidable (_ ∧ _))

/-- A permission that can be written in a list. -/
def IsGrant (p : Permission) : Prop :=
  IsEntry p.capability ∧ (∀ c ∈ p.capability, c ≠ '"' ∧ c ≠ '\'' ∧ c ≠ ':') ∧
    IsEntry p.resource ∧ ∀ c ∈ p.resource, c ≠ '"' ∧ c ≠ '\''

instance (p : Permission) : Decidable (IsGrant p) := inferInstanceAs (Decidable (_ ∧ _ ∧ _ ∧ _))

/-- An item that can be written on a line. -/
def IsWellFormed : Item → Prop
  | text t => IsEntry t ∧ t.head? ≠ some '@'
  | param type name description =>
    IsEntry type ∧ '}' ∉ type ∧ name ≠ [] ∧ (∀ c ∈ name, isNameChar c = true) ∧
      trim description = description
  | returns _ type description =>
    IsEntry type ∧ '}' ∉ type ∧ trim description = description ∧ description.head? ≠ some '-'
  | permissions ps => ∀ p ∈ ps, IsGrant p

instance : (i : Item) → Decidable i.IsWellFormed
  | text _ => inferInstanceAs (Decidable (_ ∧ _))
  | param .. => inferInstanceAs (Decidable (_ ∧ _ ∧ _ ∧ _ ∧ _))
  | returns .. => inferInstanceAs (Decidable (_ ∧ _ ∧ _ ∧ _))
  | permissions _ => inferInstanceAs (Decidable (∀ _ ∈ _, _))

end Item

/-! ## Pieces of a line -/

variable {t r type name : Text}

theorem bracedType?_append (hne : type ≠ []) (hbrace : '}' ∉ type) (r : Text) :
    bracedType? ('{' :: (type ++ '}' :: r)) = some (type, r) := by
  have hall := bne_of_not_mem hbrace
  have hstop : Stops (· != '}') ('}' :: r) := stops_cons.mpr rfl
  obtain ⟨c, cs, rfl⟩ := List.exists_cons_of_ne_nil hne
  rw [bracedType?, takeWhile_append_eq hall hstop, dropWhile_append_eq hall hstop]
  rfl

/-- A tag is not read where none begins. -/
theorem keyword?_tag_eq_none (h : t.head? ≠ some '@') (k : Text) :
    keyword? ('@' :: k) t = none := by
  refine keyword?_eq_none fun hpre ↦ h ?_
  obtain ⟨s, rfl⟩ := hpre
  rfl

/-! ## Reading one item -/

namespace Item

theorem read_text (h : (text t).IsWellFormed) : Line.read (trim t) = .text t := by
  obtain ⟨⟨hne, htrim⟩, hat⟩ := h
  have hparam : param? t = none := by
    rw [param?, show "@param".toList = '@' :: _ from rfl, keyword?_tag_eq_none hat]
    rfl
  have hreturns : returns? t = none := by
    rw [returns?, show "@returns".toList = '@' :: _ from rfl, keyword?_tag_eq_none hat,
      show "@return".toList = '@' :: _ from rfl, keyword?_tag_eq_none hat]
    rfl
  have hpermissions : permissions? t = none := by
    rw [permissions?, show "@permission".toList = '@' :: _ from rfl, keyword?_tag_eq_none hat]
    rfl
  have hhead : ¬t.head?.all (· == '@') = true := by
    obtain ⟨c, r, rfl⟩ := List.exists_cons_of_ne_nil hne
    simpa using hat
  rw [htrim, Line.read, hparam, hreturns, hpermissions, if_neg hhead]
  rfl

/-! ### Parameters -/

theorem param?_append (htype : IsEntry type) (hbrace : '}' ∉ type) (hne : name ≠ [])
    (hname : ∀ c ∈ name, isNameChar c = true) (s : Text) :
    param? ("@param".toList ++ ' ' :: '{' :: (type ++ '}' :: ' ' :: (name ++ ' ' :: '-' :: s))) =
      some (.param type name (trim s)) := by
  have hblank : Stops isNameChar (' ' :: '-' :: s) := stops_cons.mpr (by decide)
  have hstop : Stops isWhite (name ++ ' ' :: '-' :: s) := by
    refine Stops.append (fun c hc ↦ ?_) hne
    exact isWhite_of_isNameChar (hname c (List.mem_of_mem_head? hc))
  have hwhite : white? (' ' :: (name ++ ' ' :: '-' :: s)) = some (name ++ ' ' :: '-' :: s) :=
    some?_append (List.cons_ne_nil ' ' []) (by decide) hstop
  have hdash : trimStart (' ' :: '-' :: s) = '-' :: s := rfl
  rw [param?, keyword?_blank _ (stops_cons.mpr (by decide)), Option.bind_some,
    bracedType?_append htype.1 hbrace]
  simp only [Option.bind_some, hwhite, takeWhile_append_eq hname hblank,
    dropWhile_append_eq hname hblank, hne, if_false, hdash, htype.2]
  rfl

theorem read_param {description : Text} (h : (param type name description).IsWellFormed) :
    Line.read (trim (param type name description).write) = .param type name description := by
  obtain ⟨htype, hbrace, hne, hname, htrim⟩ := h
  have hwrite : (param type name description).write =
      ("@param".toList ++ ' ' :: '{' :: (type ++ '}' :: ' ' :: (name ++ [' ']))) ++
        '-' :: ' ' :: description := by
    rw [write_param]
    simp only [String.reduceToList, List.append_assoc, List.cons_append, List.nil_append]
  have hline : trim (param type name description).write =
      "@param".toList ++ ' ' :: '{' :: (type ++ '}' :: ' ' :: (name ++ ' ' :: '-' ::
        trimEnd (' ' :: description))) := by
    rw [hwrite, trim_append_cons (stops_cons.mpr (by decide)) (by decide)]
    simp only [List.append_assoc, List.cons_append, List.nil_append]
  have hdescription : trim (trimEnd (' ' :: description)) = description := by
    rw [trim_trimEnd]
    exact (trim_append_left (w := [' ']) (by decide) description).trans htrim
  rw [hline, Line.read, param?_append htype hbrace hne hname, hdescription]
  rfl

/-! ### Return values -/

theorem returns?_append (htype : IsEntry type) (hbrace : '}' ∉ type) (plural : Bool) (s : Text) :
    returns? (returnTag plural ++ ' ' :: '{' :: (type ++ '}' :: s)) =
      some (.returns type (trim (optionally (keyword? ['-']) (trimStart s)))) := by
  have htag : ∀ r, Stops isWhite r →
      ((keyword? "@returns".toList (returnTag plural ++ ' ' :: r)).or
        (keyword? "@return".toList (returnTag plural ++ ' ' :: r))) = some r := by
    intro r hr
    cases plural with
    | true => rw [returnTag, if_pos rfl, keyword?_blank _ hr, Option.some_or]
    | false =>
      have hnone : keyword? "@returns".toList ("@return".toList ++ ' ' :: r) = none := rfl
      rw [returnTag, if_neg Bool.false_ne_true, hnone, Option.none_or, keyword?_blank _ hr]
  rw [returns?, htag _ (stops_cons.mpr (by decide)), Option.bind_some,
    bracedType?_append htype.1 hbrace]
  simp only [Option.map_some, htype.2]

theorem read_returns {plural : Bool} {description : Text}
    (h : (returns plural type description).IsWellFormed) :
    Line.read (trim (returns plural type description).write) = .returns type description := by
  obtain ⟨htype, hbrace, htrim, hdash⟩ := h
  have hwrite : (returns plural type description).write =
      (returnTag plural ++ ' ' :: '{' :: type) ++ '}' :: ' ' :: description := by
    rw [write_returns]
    simp only [String.reduceToList, List.append_assoc, List.cons_append, List.nil_append]
  have hline : trim (returns plural type description).write =
      returnTag plural ++ ' ' :: '{' :: (type ++ '}' :: trimEnd (' ' :: description)) := by
    have hstop : Stops isWhite (returnTag plural ++ ' ' :: '{' :: type ++ ['}']) := by
      cases plural <;> exact stops_cons.mpr (by decide)
    rw [hwrite, trim_append_cons hstop (by decide)]
    simp only [List.append_assoc, List.cons_append]
  -- A dash in front of the description would be dropped, but there is none.
  have hdescription : trimStart (trimEnd (' ' :: description)) = description := by
    rw [trimStart_trimEnd]
    exact (trim_append_left (w := [' ']) (by decide) description).trans htrim
  have hkeep : optionally (keyword? ['-']) description = description := by
    have hnone : keyword? ['-'] description = none := by
      refine keyword?_eq_none fun hpre ↦ hdash ?_
      obtain ⟨s, rfl⟩ := hpre
      rfl
    rw [optionally, hnone, Option.getD_none]
  have hparam : param? (returnTag plural ++ ' ' :: '{' :: (type ++ '}' ::
      trimEnd (' ' :: description))) = none := by
    cases plural <;> rfl
  rw [hline, Line.read, hparam, returns?_append htype hbrace, hdescription, hkeep, htrim]
  rfl

/-! ### Permissions -/

theorem permission?_write {p : Permission} (hp : IsGrant p) (r : Text) :
    permission? (p.write ++ r) = some (p, r) := by
  obtain ⟨⟨hcne, hctrim⟩, hc, ⟨hrne, hrtrim⟩, hr⟩ := hp
  have hcapability : ∀ c ∈ p.capability, isCapabilityChar c = true := by
    intro c hmem
    simp [isCapabilityChar, hc c hmem]
  have hresource : ∀ c ∈ p.resource, isResourceChar c = true := by
    intro c hmem
    simp [isResourceChar, hr c hmem]
  have hcolon : Stops isCapabilityChar (':' :: (p.resource ++ '"' :: r)) := stops_cons.mpr rfl
  have hquote : Stops isResourceChar ('"' :: r) := stops_cons.mpr rfl
  have hwrite : p.write ++ r = '"' :: (p.capability ++ ':' :: (p.resource ++ '"' :: r)) := by
    simp [Permission.write]
  have hopen : isResourceChar '"' = false := rfl
  obtain ⟨c, cs, hcs⟩ := List.exists_cons_of_ne_nil hcne
  obtain ⟨d, ds, hds⟩ := List.exists_cons_of_ne_nil hrne
  rw [hwrite, permission?, hopen, if_neg Bool.false_ne_true,
    takeWhile_append_eq hcapability hcolon, dropWhile_append_eq hcapability hcolon, hcs]
  simp only [takeWhile_append_eq hresource hquote, dropWhile_append_eq hresource hquote]
  rw [hds]
  simp only [← hcs, ← hds, hctrim, hrtrim]

theorem values_cutFrom_permission {ps : List Permission} (hps : ∀ p ∈ ps, IsGrant p)
    (before : Option Char) :
    (permission.cutFrom before (", ".toList.intercalate (ps.map Permission.write))).parts.map
      Part.value = ps := by
  induction ps generalizing before with
  | nil =>
    rw [List.map_nil, List.intercalate_nil, Marker.cutFrom_nil]
    rfl
  | cons p ps ih =>
    have hfind : ∀ r, permission.find? before (p.write ++ r) = some (p, r) :=
      permission?_write (hps p List.mem_cons_self)
    have hrest := ih fun q hq ↦ hps q (List.mem_cons_of_mem p hq)
    cases ps with
    | nil =>
      have hlast := hfind []
      rw [List.append_nil] at hlast
      rw [List.map_singleton, List.intercalate_singleton, Marker.cutFrom_of_some _ hlast,
        Marker.cutFrom_nil]
      rfl
    | cons q ps =>
      have hsep : ∀ b (t : Text), (permission.cutFrom b (", ".toList ++ t)).parts =
          (permission.cutFrom (some ' ') t).parts := by
        intro b t
        have hcomma : permission.find? b (',' :: ' ' :: t) = none := rfl
        have hblank : permission.find? (some ',') (' ' :: t) = none := rfl
        show (permission.cutFrom b (',' :: ' ' :: t)).parts = _
        rw [Marker.cutFrom_of_none _ hcomma, Marker.cutFrom_of_none _ hblank]
        rfl
      rw [List.map_cons, List.map_cons, List.intercalate_cons_cons, List.append_assoc,
        Marker.cutFrom_of_some _ (hfind _), Cut.parts_mark, hsep, List.map_cons]
      exact congrArg (p :: ·) (hrest (some ' '))

theorem readPermissions_write {ps : List Permission} (hps : ∀ p ∈ ps, IsGrant p) :
    readPermissions (", ".toList.intercalate (ps.map Permission.write)) = ps := by
  rw [readPermissions, Marker.findAll, Marker.cut, values_cutFrom_permission hps]
  refine List.filter_eq_self.mpr fun p hp ↦ ?_
  exact decide_eq_true (hps p hp).1.1

theorem read_permissions {ps : List Permission} (h : (permissions ps).IsWellFormed) :
    Line.read (trim (permissions ps).write) = .permissions ps := by
  have hline : trim (permissions ps).write = "@permission".toList ++ ' ' ::
      '[' :: (", ".toList.intercalate (ps.map Permission.write) ++ [']']) := by
    rw [write_permissions, trim_append_cons (stops_cons.mpr (by decide)) (by decide), trimEnd_nil]
    rfl
  have hparam : param? ("@permission".toList ++ ' ' ::
      '[' :: (", ".toList.intercalate (ps.map Permission.write) ++ [']'])) = none := rfl
  have hreturns : returns? ("@permission".toList ++ ' ' ::
      '[' :: (", ".toList.intercalate (ps.map Permission.write) ++ [']'])) = none := rfl
  have hpermissions : permissions? ("@permission".toList ++ ' ' ::
      '[' :: (", ".toList.intercalate (ps.map Permission.write) ++ [']'])) =
        some (.permissions ps) := by
    rw [permissions?, keyword?_blank _ (stops_cons.mpr (by decide)), Option.bind_some,
      show ∀ t, word? ['['] ('[' :: t) = some t from fun _ ↦ rfl, Option.bind_some,
      List.reverse_append, List.reverse_singleton, List.singleton_append]
    have hstop : Stops (· != ']')
        (']' :: (", ".toList.intercalate (ps.map Permission.write)).reverse) := stops_cons.mpr rfl
    rw [hstop.dropWhile_eq]
    simp only [List.reverse_reverse, readPermissions_write h]
  rw [hline, Line.read, hparam, hreturns, hpermissions]
  rfl

/-- Every item is read back from its line. -/
theorem read_write {i : Item} (h : i.IsWellFormed) : Line.read (trim i.write) = i.line := by
  cases i with
  | text t => exact read_text h
  | param type name description => exact read_param h
  | returns plural type description => exact read_returns h
  | permissions ps => exact read_permissions h

theorem line_ne_other (i : Item) : i.line ≠ .other := by
  cases i <;> exact fun h ↦ by cases h

theorem read_nil : Line.read [] = .other := rfl

/-- No item is written as an empty line. -/
theorem trim_write_ne_nil {i : Item} (h : i.IsWellFormed) : trim i.write ≠ [] := by
  intro hnil
  have hread := read_write h
  rw [hnil, read_nil] at hread
  exact i.line_ne_other hread.symm

/-! ## What items say together -/

/-- The first free text among items. -/
def description (items : List Item) : Text :=
  (items.findSome? fun
    | text t => some t
    | _ => none).getD []

/-- The parameters among items, counted from 0. -/
def parameters (items : List Item) : List Parameter :=
  (items.filterMap fun
    | param type name description => some (type, name, description)
    | _ => none).mapIdx fun k (type, name, description) ↦ ⟨name, k, type, description⟩

/-- The return values among items, counted from 0. -/
def returnValues (items : List Item) : List Return :=
  (items.filterMap fun
    | returns _ type description => some (type, description)
    | _ => none).mapIdx fun k (type, description) ↦ ⟨type, k, description⟩

/-- The permissions of all lists among items. -/
def grants (items : List Item) : List Permission :=
  items.flatMap fun
    | permissions ps => ps
    | _ => []

end Item

/-! ## Blocks -/

variable {inner : Text} {items : List Item}

/-- The items stand on the lines of a block, in their order and one on a line. Lines with nothing
on them may stand between them. -/
def Holds (inner : Text) (items : List Item) : Prop :=
  ((Text.lines inner).map cleanLine).filter (· ≠ []) = items.map fun i ↦ trim i.write

instance (inner : Text) (items : List Item) : Decidable (Holds inner items) :=
  inferInstanceAs (Decidable (_ = _))

/-- The block that has every item on a line of its own, behind an asterisk. -/
def layout (items : List Item) : Text :=
  '\n' :: ((items.map fun i ↦ " * ".toList ++ i.write).flatMap (· ++ ['\n']) ++ [' '])

/-- Every list of items can be written as a block. -/
theorem holds_layout (hitems : ∀ i ∈ items, i.IsWellFormed)
    (hbreak : ∀ i ∈ items, '\n' ∉ i.write ∧ '\r' ∉ i.write) : Holds (layout items) items := by
  have hclean : ∀ i ∈ items,
      cleanLine (dropReturn (" * ".toList ++ i.write)) = trim i.write := by
    intro i hi
    have hreturn : (" * ".toList ++ i.write).getLast? ≠ some '\r' := by
      intro hlast
      rcases List.mem_append.mp (List.mem_of_getLast? hlast) with hmem | hmem
      · exact absurd hmem (by decide)
      · exact (hbreak i hi).2 hmem
    rw [dropReturn_eq_self hreturn]
    exact trim_append_left (w := [' ']) (by decide) i.write
  have hlines : Text.lines (layout items) =
      [] :: (items.map fun i ↦ dropReturn (" * ".toList ++ i.write)) ++ [[' ']] := by
    have hnewline : ∀ l ∈ items.map fun i ↦ " * ".toList ++ i.write, '\n' ∉ l := by
      intro l hl hmem
      obtain ⟨i, hi, rfl⟩ := List.mem_map.mp hl
      rcases List.mem_append.mp hmem with hmem | hmem
      · exact absurd hmem (by decide)
      · exact (hbreak i hi).1 hmem
    rw [layout, ← List.nil_append ('\n' :: _), lines_append List.not_mem_nil,
      lines_flatMap hnewline, List.map_map]
    rfl
  have hfilter : (items.map fun i ↦ trim i.write).filter (· ≠ []) =
      items.map fun i ↦ trim i.write := by
    refine List.filter_eq_self.mpr fun l hl ↦ ?_
    obtain ⟨i, hi, rfl⟩ := List.mem_map.mp hl
    exact decide_eq_true (Item.trim_write_ne_nil (hitems i hi))
  have hmap : (items.map fun i ↦ cleanLine (dropReturn (" * ".toList ++ i.write))) =
      items.map fun i ↦ trim i.write := List.map_congr_left hclean
  rw [Holds, hlines, List.cons_append, List.map_cons, List.map_append, List.map_map,
    Function.comp_def, hmap, List.filter_cons_of_neg (by decide), List.filter_append, hfilter]
  exact List.append_nil _

/-- A block says what its items say, and nothing else. -/
theorem filter_readBlock (hitems : ∀ i ∈ items, i.IsWellFormed) (h : Holds inner items) :
    (readBlock inner).filter (· ≠ .other) = items.map Item.line := by
  -- An empty line says nothing, and every other line is the line of an item.
  have hread : ∀ l ∈ (Text.lines inner).map cleanLine,
      (decide (l ≠ []) = decide (Line.read l ≠ .other)) := by
    intro l hl
    rw [decide_eq_decide, not_iff_not]
    refine ⟨fun hnil ↦ hnil ▸ Item.read_nil, fun hother ↦ ?_⟩
    by_contra hne
    have hmem : l ∈ items.map fun i ↦ trim i.write :=
      h ▸ List.mem_filter.mpr ⟨hl, decide_eq_true hne⟩
    obtain ⟨i, hi, rfl⟩ := List.mem_map.mp hmem
    exact i.line_ne_other ((Item.read_write (hitems i hi)).symm.trans hother)
  have hmap : readBlock inner = ((Text.lines inner).map cleanLine).map Line.read := by
    rw [readBlock, List.map_map]
    rfl
  rw [hmap, List.filter_map, Function.comp_def, ← List.filter_congr hread, h, List.map_map]
  exact List.map_congr_left fun i hi ↦ Item.read_write (hitems i hi)

theorem filterMap_readBlock {α : Type} {f : Line → Option α} (hother : f .other = none)
    (hitems : ∀ i ∈ items, i.IsWellFormed) (h : Holds inner items) :
    (readBlock inner).filterMap f = items.filterMap fun i ↦ f i.line := by
  have hskip : (readBlock inner).filterMap f =
      ((readBlock inner).filter (· ≠ .other)).filterMap f := by
    rw [List.filterMap_filter]
    refine List.filterMap_congr fun l _ ↦ ?_
    by_cases hl : l = .other
    · rw [hl, hother, if_neg (by decide)]
    · rw [if_pos (decide_eq_true hl)]
  rw [hskip, filter_readBlock hitems h, List.filterMap_map]
  rfl

theorem description_readBlock (hitems : ∀ i ∈ items, i.IsWellFormed) (h : Holds inner items) :
    description (readBlock inner) = Item.description items := by
  rw [description, Item.description, ← List.head?_filterMap, filterMap_readBlock rfl hitems h,
    ← List.head?_filterMap]
  congr 3
  funext i
  cases i <;> rfl

theorem parameters_readBlock (hitems : ∀ i ∈ items, i.IsWellFormed) (h : Holds inner items) :
    parameters (readBlock inner) = Item.parameters items := by
  rw [parameters, Item.parameters, List.mapIdx_eq_zipIdx_map, filterMap_readBlock rfl hitems h]
  congr 3
  funext i
  cases i <;> rfl

theorem returnValues_readBlock (hitems : ∀ i ∈ items, i.IsWellFormed) (h : Holds inner items) :
    returnValues (readBlock inner) = Item.returnValues items := by
  rw [returnValues, Item.returnValues, List.mapIdx_eq_zipIdx_map, filterMap_readBlock rfl hitems h]
  congr 3
  funext i
  cases i <;> rfl

theorem permissionsOf_filter (lines : List Line) :
    permissionsOf (lines.filter (· ≠ .other)) = permissionsOf lines := by
  induction lines with
  | nil => rfl
  | cons l ls ih =>
    by_cases hl : l = .other
    · rw [hl, List.filter_cons_of_neg (by decide), ih]
      rfl
    · rw [List.filter_cons_of_pos (by simpa using hl), permissionsOf, List.flatMap_cons,
        ← permissionsOf, ih, permissionsOf, permissionsOf, List.flatMap_cons]

theorem permissionsOf_readBlock (hitems : ∀ i ∈ items, i.IsWellFormed) (h : Holds inner items) :
    permissionsOf (readBlock inner) = Item.grants items := by
  rw [← permissionsOf_filter, filter_readBlock hitems h, permissionsOf, List.flatMap_map,
    Item.grants]
  congr 1
  funext i
  cases i <;> rfl

end PluginPack.Documentation
