import PluginPack.Text.Marker

/-!
# Export syntax

Removing the word `export` from a script while keeping what it exports. Three kinds of text are
taken from the beginnings of lines, one kind after the other: `export default`, whole lists
`export { ... }`, and the bare keyword. The blanks before a removed keyword stay.
-/

namespace PluginPack

open Text

namespace Script

/-- The blanks before `export default` at the beginning of a line, and the text behind it. -/
def exportDefault? (t : Text) : Option (Text × Text) :=
  ((keyword? "export".toList (t.dropWhile isBlank)).bind (keyword? "default".toList)).map
    (t.takeWhile isBlank, ·)

/-- The text behind a line that holds nothing but a list of exports. -/
def exportList? (t : Text) : Option (Unit × Text) :=
  ((keyword? "export".toList (t.dropWhile isBlank)).bind fun r ↦
    (braces? (optionally (keyword? "type".toList) r)).bind closeLine?).map ((), ·)

/-- The blanks before `export` at the beginning of a line, and the text behind it. -/
def exportKeyword? (t : Text) : Option (Text × Text) :=
  (keyword? "export".toList (t.dropWhile isBlank)).map (t.takeWhile isBlank, ·)

theorem exportDefault?_suffix {t b r : Text} (h : exportDefault? t = some (b, r)) :
    r <:+ t ∧ r.length < t.length := by
  obtain ⟨a, ha, he⟩ := Option.map_eq_some_iff.mp h
  cases he
  obtain ⟨c, hc, ha⟩ := Option.bind_eq_some_iff.mp ha
  have hb : t.dropWhile isBlank <:+ t := List.dropWhile_suffix _
  exact ⟨(keyword?_suffix ha).trans ((keyword?_suffix hc).trans hb),
    Nat.lt_of_lt_of_le (keyword?_length_lt ha) ((keyword?_suffix hc).trans hb).length_le⟩

theorem exportList?_suffix {t r : Text} {u : Unit} (h : exportList? t = some (u, r)) :
    r <:+ t ∧ r.length < t.length := by
  obtain ⟨a, ha, he⟩ := Option.map_eq_some_iff.mp h
  cases he
  obtain ⟨c, hc, ha⟩ := Option.bind_eq_some_iff.mp ha
  obtain ⟨d, hd, ha⟩ := Option.bind_eq_some_iff.mp ha
  have hb : t.dropWhile isBlank <:+ t := List.dropWhile_suffix _
  have hr : r <:+ c := (closeLine?_suffix ha).trans <| (braces?_suffix hd).trans
    (optionally_suffix (fun {_ _} (h : keyword? "type".toList _ = _) ↦ keyword?_suffix h) c)
  exact ⟨hr.trans ((keyword?_suffix hc).trans hb), Nat.lt_of_le_of_lt hr.length_le
    (Nat.lt_of_lt_of_le (keyword?_length_lt hc) hb.length_le)⟩

theorem exportKeyword?_suffix {t b r : Text} (h : exportKeyword? t = some (b, r)) :
    r <:+ t ∧ r.length < t.length := by
  obtain ⟨a, ha, he⟩ := Option.map_eq_some_iff.mp h
  cases he
  have hb : t.dropWhile isBlank <:+ t := List.dropWhile_suffix _
  exact ⟨(keyword?_suffix ha).trans hb,
    Nat.lt_of_lt_of_le (keyword?_length_lt ha) hb.length_le⟩

/-- `export default` at the beginnings of lines, with the blanks before it. -/
def exportDefault : Marker Text := .ofLine exportDefault? exportDefault?_suffix

/-- Lists of exports that fill their lines. -/
def exportList : Marker Unit := .ofLine exportList? exportList?_suffix

/-- The keyword `export` at the beginnings of lines, with the blanks before it. -/
def exportKeyword : Marker Text := .ofLine exportKeyword? exportKeyword?_suffix

/-- Removes export syntax and keeps the exported declarations. -/
def eraseExports (code : Text) : Text :=
  exportKeyword.replace id (exportList.erase (exportDefault.replace id code))

end Script

end PluginPack
