import PluginPack.Text.Marker

/-!
# Dependency statements

The statements that name another module: imports and re-exports. A statement begins a line, after
blanks, and nothing but a semicolon and blanks may follow it on its last line. Its specifier is
local when it begins with `./` or `../`; local statements are detached from a script, and their
specifiers are what the script depends on.
-/

namespace PluginPack

open Text

namespace Script

/-! ## Reading one statement -/

/-- A character that may stand in a specifier: all but quotes and the newline. -/
def isSpecifierChar (c : Char) : Bool := c != '"' && c != '\'' && c != '\n'

/-- A quote of a specifier. The closing quote need not be the opening one. -/
def isSpecifierQuote (c : Char) : Bool := c == '"' || c == '\''

/-- The specifier between quotes that a text begins with, and the rest. -/
def specifier? : Text → Option (Text × Text)
  | [] => none
  | c :: r =>
    if isSpecifierQuote c then
      match r.takeWhile isSpecifierChar, r.dropWhile isSpecifierChar with
      | [], _ => none
      | _, [] => none
      | name, q :: rest => if isSpecifierQuote q then some (name, rest) else none
    else none

/-- The rest after `* as name`. -/
def namespaceBinding? (t : Text) : Option Text :=
  (word? ['*'] t).bind fun r ↦ (white? r).bind fun r ↦ (keyword? "as".toList r).bind fun r ↦
    some? isNameChar r

/-- The rest after a braced list of names or `* as name`. -/
def binding? (t : Text) : Option Text := (braces? t).or (namespaceBinding? t)

/-- The rest after a comma and a second binding. -/
def secondBinding? (t : Text) : Option Text :=
  (word? [','] (trimStart t)).bind fun r ↦ binding? (trimStart r)

/-- The rest after an import clause: a binding or a default name, then perhaps another binding. -/
def importClause? (t : Text) : Option Text :=
  ((binding? t).or (some? isNameChar t)).map (optionally secondBinding?)

/-- The specifier after `from`, and the rest. -/
def fromSpecifier? (t : Text) : Option (Text × Text) := (keyword? "from".toList t).bind specifier?

/-- Accepts a specifier when its statement ends there: the rest is what follows the line. -/
def closeStatement? (p : Text × Text) : Option (Text × Text) := (closeLine? p.2).map (p.1, ·)

/-- Reads an import from behind the keyword: a clause and a `from` part, or a specifier alone. -/
def importBody? (t : Text) : Option (Text × Text) :=
  (((importClause? t).bind fun r ↦ (white? r).bind fromSpecifier?).or (specifier? t)).bind
    closeStatement?

/-- Reads an import statement. The word `type` after the keyword is skipped where this leads on, and
otherwise read as a name. -/
def importStatement? (t : Text) : Option (Text × Text) :=
  (keyword? "import".toList t).bind fun r ↦
    ((keyword? "type".toList r).bind importBody?).or (importBody? r)

/-- Reads the `from` part of a re-export, which may stand right after what it exports. -/
def reexportSource? (t : Text) : Option (Text × Text) :=
  (fromSpecifier? (trimStart t)).bind closeStatement?

/-- Reads on from behind the star of a re-export. After `as` comes a name, and when no `from`
follows the name its own last four letters may be that word. -/
def reexportAll? (t : Text) : Option (Text × Text) :=
  match (white? t).bind (keyword? "as".toList) with
  | none => reexportSource? t
  | some r =>
    let n := (r.takeWhile isNameChar).length
    if n = 0 then none
    else (reexportSource? (r.drop n)).or (if n ≤ 4 then none else reexportSource? (r.drop (n - 4)))

/-- Reads a re-export statement: a star, perhaps with a name, or a braced list. -/
def reexportStatement? (t : Text) : Option (Text × Text) :=
  (keyword? "export".toList t).bind fun r ↦
    let r := optionally (keyword? "type".toList) r
    ((word? ['*'] r).bind reexportAll?).or ((braces? r).bind reexportSource?)

/-- The specifier of the dependency statement that a line begins with, and the text behind it. -/
def dependency? (t : Text) : Option (Text × Text) :=
  let r := t.dropWhile isBlank
  (importStatement? r).or (reexportStatement? r)

/-! ## What a statement leaves -/

theorem specifier?_suffix {t s r : Text} (h : specifier? t = some (s, r)) : r <:+ t := by
  unfold specifier? at h
  split at h
  · cases h
  · rename_i c u
    split at h
    · split at h
      · cases h
      · cases h
      · rename_i q rest hd hne
        split at h
        · cases h
          exact ((List.suffix_cons q _).trans (hd ▸ List.dropWhile_suffix _)).trans
            (List.suffix_cons c u)
        · cases h
    · cases h

theorem namespaceBinding?_suffix {t r : Text} (h : namespaceBinding? t = some r) : r <:+ t := by
  obtain ⟨a, ha, h⟩ := Option.bind_eq_some_iff.mp h
  obtain ⟨b, hb, h⟩ := Option.bind_eq_some_iff.mp h
  obtain ⟨c, hc, h⟩ := Option.bind_eq_some_iff.mp h
  exact (some?_suffix h).trans <| (keyword?_suffix hc).trans <| (white?_suffix hb).trans <|
    word?_suffix ha

theorem binding?_suffix {t r : Text} (h : binding? t = some r) : r <:+ t := by
  rcases Option.or_eq_some_iff.mp h with h | ⟨-, h⟩
  · exact braces?_suffix h
  · exact namespaceBinding?_suffix h

theorem secondBinding?_suffix {t r : Text} (h : secondBinding? t = some r) : r <:+ t := by
  obtain ⟨a, ha, h⟩ := Option.bind_eq_some_iff.mp h
  exact (binding?_suffix h).trans <| (List.dropWhile_suffix _).trans <| (word?_suffix ha).trans <|
    List.dropWhile_suffix _

theorem importClause?_suffix {t r : Text} (h : importClause? t = some r) : r <:+ t := by
  obtain ⟨a, ha, rfl⟩ := Option.map_eq_some_iff.mp h
  refine (optionally_suffix (fun h ↦ secondBinding?_suffix h) a).trans ?_
  rcases Option.or_eq_some_iff.mp ha with h | ⟨-, h⟩
  · exact binding?_suffix h
  · exact some?_suffix h

theorem fromSpecifier?_suffix {t s r : Text} (h : fromSpecifier? t = some (s, r)) : r <:+ t := by
  obtain ⟨a, ha, h⟩ := Option.bind_eq_some_iff.mp h
  exact (specifier?_suffix h).trans (keyword?_suffix ha)

theorem closeStatement?_suffix {p : Text × Text} {s r : Text}
    (h : closeStatement? p = some (s, r)) : r <:+ p.2 := by
  obtain ⟨a, ha, he⟩ := Option.map_eq_some_iff.mp h
  cases he
  exact closeLine?_suffix ha

theorem importBody?_suffix {t s r : Text} (h : importBody? t = some (s, r)) : r <:+ t := by
  obtain ⟨p, hp, h⟩ := Option.bind_eq_some_iff.mp h
  refine (closeStatement?_suffix h).trans ?_
  rcases Option.or_eq_some_iff.mp hp with hp | ⟨-, hp⟩
  · obtain ⟨a, ha, hp⟩ := Option.bind_eq_some_iff.mp hp
    obtain ⟨b, hb, hp⟩ := Option.bind_eq_some_iff.mp hp
    exact (fromSpecifier?_suffix hp).trans <| (white?_suffix hb).trans (importClause?_suffix ha)
  · exact specifier?_suffix hp

theorem importStatement?_suffix {t s r : Text} (h : importStatement? t = some (s, r)) :
    r <:+ t ∧ r.length < t.length := by
  obtain ⟨a, ha, h⟩ := Option.bind_eq_some_iff.mp h
  have hr : r <:+ a := by
    rcases Option.or_eq_some_iff.mp h with h | ⟨-, h⟩
    · obtain ⟨b, hb, h⟩ := Option.bind_eq_some_iff.mp h
      exact (importBody?_suffix h).trans (keyword?_suffix hb)
    · exact importBody?_suffix h
  exact ⟨hr.trans (keyword?_suffix ha), Nat.lt_of_le_of_lt hr.length_le (keyword?_length_lt ha)⟩

theorem reexportSource?_suffix {t s r : Text} (h : reexportSource? t = some (s, r)) : r <:+ t := by
  obtain ⟨p, hp, h⟩ := Option.bind_eq_some_iff.mp h
  exact (closeStatement?_suffix h).trans <| (fromSpecifier?_suffix hp).trans <|
    List.dropWhile_suffix _

theorem reexportAll?_suffix {t s r : Text} (h : reexportAll? t = some (s, r)) : r <:+ t := by
  unfold reexportAll? at h
  split at h
  · exact reexportSource?_suffix h
  · rename_i u hu
    obtain ⟨a, ha, hu⟩ := Option.bind_eq_some_iff.mp hu
    refine List.IsSuffix.trans ?_ ((keyword?_suffix hu).trans (white?_suffix ha))
    dsimp only at h
    split at h
    · cases h
    · rcases Option.or_eq_some_iff.mp h with h | ⟨-, h⟩
      · exact (reexportSource?_suffix h).trans (List.drop_suffix _ _)
      · split at h
        · cases h
        · exact (reexportSource?_suffix h).trans (List.drop_suffix _ _)

theorem reexportStatement?_suffix {t s r : Text} (h : reexportStatement? t = some (s, r)) :
    r <:+ t ∧ r.length < t.length := by
  obtain ⟨a, ha, h⟩ := Option.bind_eq_some_iff.mp h
  have hr : r <:+ a := by
    refine List.IsSuffix.trans ?_
      (optionally_suffix (fun {_ _} (h : keyword? "type".toList _ = _) ↦ keyword?_suffix h) a)
    rcases Option.or_eq_some_iff.mp h with h | ⟨-, h⟩
    · obtain ⟨b, hb, h⟩ := Option.bind_eq_some_iff.mp h
      exact (reexportAll?_suffix h).trans (word?_suffix hb)
    · obtain ⟨b, hb, h⟩ := Option.bind_eq_some_iff.mp h
      exact (reexportSource?_suffix h).trans (braces?_suffix hb)
  exact ⟨hr.trans (keyword?_suffix ha), Nat.lt_of_le_of_lt hr.length_le (keyword?_length_lt ha)⟩

theorem dependency?_suffix {t s r : Text} (h : dependency? t = some (s, r)) :
    r <:+ t ∧ r.length < t.length := by
  have hb : t.dropWhile isBlank <:+ t := List.dropWhile_suffix _
  rcases Option.or_eq_some_iff.mp h with h | ⟨-, h⟩
  · have := importStatement?_suffix h
    exact ⟨this.1.trans hb, Nat.lt_of_lt_of_le this.2 hb.length_le⟩
  · have := reexportStatement?_suffix h
    exact ⟨this.1.trans hb, Nat.lt_of_lt_of_le this.2 hb.length_le⟩

/-! ## All statements of a script -/

/-- Dependency statements at the beginnings of lines, with their specifiers. -/
def dependency : Marker Text := .ofLine dependency? dependency?_suffix

/-- Whether a specifier refers to a module of the same project. -/
def isLocalSpecifier (s : Text) : Bool :=
  "./".toList.isPrefixOf s || "../".toList.isPrefixOf s

/-- A script without its local dependency statements, together with what those statements named. -/
structure Detached where
  /-- The local specifiers in the order of their first statements, each once. -/
  specifiers : List Text
  /-- The script with the local statements removed and all others left in place. -/
  code : Text
deriving DecidableEq, Repr

/-- What stays in a script of a dependency statement: nothing when it is local, else all of it. -/
def keepForeign (p : Part Text) : Text := if isLocalSpecifier p.value then [] else p.lexeme

/-- Detaches the local dependency statements of a script. -/
def detachLocal (source : Text) : Detached :=
  let k := dependency.cut source
  { specifiers := ((k.parts.map (·.value)).filter isLocalSpecifier).eraseDups
    code := k.substitute keepForeign }

end Script

end PluginPack
