import PluginPack.TypeSyntax.Bracket

/-!
# Type declarations

Interfaces and type aliases declare nothing that a script has when it runs, so their whole lines are
removed. They are looked for at the beginnings of lines, also inside literals and comments.
-/

namespace PluginPack

open Text

namespace TypeSyntax

/-- The rest of a line that a declaration may begin with: behind blanks, `export` and `declare`. -/
def skipModifiers (t : Text) : Text :=
  optionally (keyword? "declare".toList)
    (optionally (keyword? "export".toList) (t.dropWhile isBlank))

/-! ## Interfaces -/

/-- The text behind an interface: its name, the rest of its first line up to a brace, a body without
inner braces, and the end of its last line. -/
def interface? (t : Text) : Option Text :=
  (keyword? "interface".toList (skipModifiers t)).bind fun r ↦
    (some? isNameChar r).bind fun r ↦
      (braces? (r.dropWhile fun c ↦ c != '{' && c != '\n')).bind closeLine?

/-! ## Aliases -/

/-- The rest after a list of type parameters on one line. -/
def aliasParameters? : Text → Option Text := angles? fun c ↦ c != '>' && c != '\n'

/-- The rest after the line when it has one semicolon, at its end, or none at all. -/
def closeAlias? (t : Text) : Option Text :=
  match t.dropWhile fun c ↦ c != ';' && c != '\n' with
  | ';' :: r => lineEnd? (r.dropWhile isBlank)
  | r => lineEnd? r

/-- The text behind the last newline of the white space that a text begins with. -/
def lastBlankLine? (t : Text) : Option Text :=
  let white := t.takeWhile isWhite
  match white.reverse.dropWhile (· != '\n') with
  | [] => none
  | kept => some (t.drop kept.length)

/-- The text behind the aliased type. The type is an object type and the rest of its line, or any
one line. When its line does not end well, the declaration still ends at the last newline between
the equals sign and the type. -/
def aliased? (t : Text) : Option Text :=
  ((braces? (trimStart t)).bind closeAlias?).or <|
    (closeAlias? (trimStart t)).or (lastBlankLine? t)

/-- The text behind a type alias: its name, perhaps type parameters, and the aliased type. -/
def alias? (t : Text) : Option Text :=
  (keyword? "type".toList (skipModifiers t)).bind fun r ↦
    (some? isNameChar r).bind fun r ↦
      (word? ['='] ((optionally aliasParameters? r).dropWhile isBlank)).bind aliased?

/-! ## What a declaration leaves -/

theorem skipModifiers_suffix (t : Text) : skipModifiers t <:+ t :=
  (optionally_suffix (fun {_ _} (h : keyword? "declare".toList _ = _) ↦ keyword?_suffix h) _).trans
    ((optionally_suffix (fun {_ _} (h : keyword? "export".toList _ = _) ↦ keyword?_suffix h)
      _).trans (List.dropWhile_suffix _))

theorem interface?_suffix {t r : Text} (h : interface? t = some r) :
    r <:+ t ∧ r.length < t.length := by
  obtain ⟨a, ha, h⟩ := Option.bind_eq_some_iff.mp h
  obtain ⟨b, hb, h⟩ := Option.bind_eq_some_iff.mp h
  obtain ⟨c, hc, h⟩ := Option.bind_eq_some_iff.mp h
  have hr : r <:+ a := (closeLine?_suffix h).trans <| (braces?_suffix hc).trans <|
    (List.dropWhile_suffix _).trans (some?_suffix hb)
  have ht := skipModifiers_suffix t
  exact ⟨hr.trans ((keyword?_suffix ha).trans ht), Nat.lt_of_le_of_lt hr.length_le
    (Nat.lt_of_lt_of_le (keyword?_length_lt ha) ht.length_le)⟩

theorem closeAlias?_suffix {t r : Text} (h : closeAlias? t = some r) : r <:+ t := by
  have hd := List.dropWhile_suffix (l := t) fun c ↦ c != ';' && c != '\n'
  unfold closeAlias? at h
  split at h
  · rename_i s hs
    rw [hs] at hd
    exact (lineEnd?_suffix h).trans ((List.dropWhile_suffix _).trans
      ((List.suffix_cons _ _).trans hd))
  · exact (lineEnd?_suffix h).trans hd

theorem lastBlankLine?_suffix {t r : Text} (h : lastBlankLine? t = some r) : r <:+ t := by
  unfold lastBlankLine? at h
  dsimp only at h
  split at h
  · cases h
  · cases h
    exact List.drop_suffix _ _

theorem aliased?_suffix {t r : Text} (h : aliased? t = some r) : r <:+ t := by
  rcases Option.or_eq_some_iff.mp h with h | ⟨-, h⟩
  · obtain ⟨a, ha, h⟩ := Option.bind_eq_some_iff.mp h
    exact (closeAlias?_suffix h).trans ((braces?_suffix ha).trans (List.dropWhile_suffix _))
  · rcases Option.or_eq_some_iff.mp h with h | ⟨-, h⟩
    · exact (closeAlias?_suffix h).trans (List.dropWhile_suffix _)
    · exact lastBlankLine?_suffix h

theorem alias?_suffix {t r : Text} (h : alias? t = some r) : r <:+ t ∧ r.length < t.length := by
  obtain ⟨a, ha, h⟩ := Option.bind_eq_some_iff.mp h
  obtain ⟨b, hb, h⟩ := Option.bind_eq_some_iff.mp h
  obtain ⟨c, hc, h⟩ := Option.bind_eq_some_iff.mp h
  have hr : r <:+ a := (aliased?_suffix h).trans <| (word?_suffix hc).trans <|
    (List.dropWhile_suffix _).trans <| (optionally_suffix (fun h ↦ angles?_suffix h) b).trans
      (some?_suffix hb)
  have ht := skipModifiers_suffix t
  exact ⟨hr.trans ((keyword?_suffix ha).trans ht), Nat.lt_of_le_of_lt hr.length_le
    (Nat.lt_of_lt_of_le (keyword?_length_lt ha) ht.length_le)⟩

/-! ## Removal -/

/-- Interfaces at the beginnings of lines. -/
def interfaceDeclaration : Marker Unit :=
  .ofLine (fun t ↦ (interface? t).map ((), ·)) fun h ↦ by
    obtain ⟨a, ha, he⟩ := Option.map_eq_some_iff.mp h
    cases he
    exact interface?_suffix ha

/-- Type aliases at the beginnings of lines. -/
def aliasDeclaration : Marker Unit :=
  .ofLine (fun t ↦ (alias? t).map ((), ·)) fun h ↦ by
    obtain ⟨a, ha, he⟩ := Option.map_eq_some_iff.mp h
    cases he
    exact alias?_suffix ha

/-- Removes all interfaces, and then all type aliases. -/
def eraseDeclarations (code : Text) : Text :=
  aliasDeclaration.erase (interfaceDeclaration.erase code)

end TypeSyntax

end PluginPack
