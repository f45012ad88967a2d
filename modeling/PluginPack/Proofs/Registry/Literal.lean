import PluginPack.Text.CharClass

/-!
# Reading object literals

A reader for the literals that a registration is made of: texts in double quotes, numbers, names,
lists, and objects whose keys are names. The text is first scanned into tokens, one character after
the other, and the tokens are then read with a list of the lists and objects that are still open.
The reader knows nothing of line breaks and indentation, nor of what a registration contains.
-/

namespace PluginPack.Registry

/-! ## Tokens -/

inductive Mark where
  | leftBrace
  | rightBrace
  | leftBracket
  | rightBracket
  | comma
  | colon
  | semicolon
  | equals
  | dot
deriving DecidableEq, Repr

def Mark.ofChar? : Char → Option Mark
  | '{' => some .leftBrace
  | '}' => some .rightBrace
  | '[' => some .leftBracket
  | ']' => some .rightBracket
  | ',' => some .comma
  | ':' => some .colon
  | ';' => some .semicolon
  | '=' => some .equals
  | '.' => some .dot
  | _ => none

inductive Token where
  | text (t : Text)
  | number (n : Nat)
  | name (t : Text)
  | mark (m : Mark)
deriving DecidableEq, Repr

/-- A character that may stand in an identifier behind its first one. -/
def isIdentifierChar (c : Char) : Bool := c.isAlphanum || c == '_' || c == '$'

/-- Whether a text is an identifier of ASCII letters, digits, underscores and dollar signs. -/
def isIdentifier : Text → Bool
  | [] => false
  | c :: r => isNameStart c && r.all isIdentifierChar

/-- The character that an escape stands for, by the character behind its backslash. -/
def escaped? : Char → Option Char
  | '\\' => some '\\'
  | '"' => some '"'
  | 'n' => some '\n'
  | 'r' => some '\r'
  | 't' => some '\t'
  | _ => none

/-- Where a scan stands: between tokens, or in a token of which something has been read. -/
inductive Scan where
  | between
  | inText (read : Text)
  | inEscape (read : Text)
  | inNumber (value : Nat)
  | inName (read : Text)
deriving DecidableEq, Repr

namespace Scan

/-- The step of a character between tokens: the tokens that it completes, and where the scan stands
behind it. -/
def begin? (c : Char) : Option (List Token × Scan) :=
  if isAsciiWhite c then some ([], between)
  else if c = '"' then some ([], inText [])
  else if c.isDigit then some ([], inNumber (c.toNat - '0'.toNat))
  else if isNameStart c then some ([], inName [c])
  else (Mark.ofChar? c).map fun m ↦ ([.mark m], between)

/-- The step of a character. A line break inside quotes is refused, and so are other escapes than
those of `escaped?`. -/
def step? : Scan → Char → Option (List Token × Scan)
  | between, c => begin? c
  | inText t, c =>
    if c = '"' then some ([.text t], between)
    else if c = '\\' then some ([], inEscape t)
    else if c = '\n' ∨ c = '\r' then none
    else some ([], inText (t ++ [c]))
  | inEscape t, c => (escaped? c).map fun d ↦ ([], inText (t ++ [d]))
  | inNumber n, c =>
    if c.isDigit then some ([], inNumber (10 * n + (c.toNat - '0'.toNat)))
    else if isIdentifierChar c then none
    else (begin? c).map fun p ↦ (.number n :: p.1, p.2)
  | inName t, c =>
    if isIdentifierChar c then some ([], inName (t ++ [c]))
    else (begin? c).map fun p ↦ (.name t :: p.1, p.2)

/-- Scans a text. -/
def run? : Scan → Text → Option (List Token × Scan)
  | s, [] => some ([], s)
  | s, c :: r => (s.step? c).bind fun p ↦ (run? p.2 r).map fun q ↦ (p.1 ++ q.1, q.2)

end Scan

/-- The tokens of a text, which must not end in the middle of one. -/
def tokens? (t : Text) : Option (List Token) :=
  match Scan.between.run? t with
  | some (ts, .between) => some ts
  | _ => none

/-! ## Literals -/

inductive Literal where
  | text (t : Text)
  | number (n : Nat)
  | name (t : Text)
  | list (items : List Literal)
  | object (members : List (Text × Literal))

/-- A list or an object that is open, with what has been read of it. The value that is being read
belongs to the last key of an open object. -/
inductive Frame where
  | items (read : List Literal)
  | members (read : List (Text × Literal)) (key : Text)

mutual

/-- Reads on where a value has to begin, or where a list may end that has just been opened. -/
def value? (frames : List Frame) : List Token → Option (Literal × List Token)
  | .text t :: r => behind? frames (.text t) r
  | .number n :: r => behind? frames (.number n) r
  | .name t :: r => behind? frames (.name t) r
  | .mark .leftBracket :: r => value? (.items [] :: frames) r
  | .mark .leftBrace :: r => key? frames [] r
  | .mark .rightBracket :: r =>
    match frames with
    | .items [] :: outer => behind? outer (.list []) r
    | _ => none
  | _ => none

/-- Reads on where a key has to begin, or where an object may end that has just been opened. -/
def key? (frames : List Frame) (read : List (Text × Literal)) :
    List Token → Option (Literal × List Token)
  | .name k :: .mark .colon :: r => value? (.members read k :: frames) r
  | .mark .rightBrace :: r => if read.isEmpty then behind? frames (.object []) r else none
  | _ => none

/-- Reads on behind a value. Where nothing is open, this value is what has been read. -/
def behind? (frames : List Frame) (l : Literal) (ts : List Token) :
    Option (Literal × List Token) :=
  match frames, ts with
  | [], r => some (l, r)
  | .items read :: outer, .mark .comma :: r => value? (.items (read ++ [l]) :: outer) r
  | .items read :: outer, .mark .rightBracket :: r => behind? outer (.list (read ++ [l])) r
  | .members read k :: outer, .mark .comma :: r => key? outer (read ++ [(k, l)]) r
  | .members read k :: outer, .mark .rightBrace :: r =>
    behind? outer (.object (read ++ [(k, l)])) r
  | _, _ => none

end

/-! ## The tokens of a literal -/

theorem sizeOf_snd_lt_of_mem {m : Text × Literal} {members : List (Text × Literal)}
    (hm : m ∈ members) : sizeOf m.2 < sizeOf members := by
  obtain ⟨k, l⟩ := m
  have hlt := List.sizeOf_lt_of_mem hm
  rw [Prod.mk.sizeOf_spec] at hlt
  exact Nat.lt_of_le_of_lt (Nat.le_add_left _ _) hlt

/-- The tokens that a literal is written with. -/
def Literal.tokens : Literal → List Token
  | .text t => [.text t]
  | .number n => [.number n]
  | .name t => [.name t]
  | .list items =>
    .mark .leftBracket :: [.mark .comma].intercalate (items.map tokens) ++ [.mark .rightBracket]
  | .object members =>
    .mark .leftBrace :: [.mark .comma].intercalate
      (members.map fun m ↦ .name m.1 :: .mark .colon :: tokens m.2) ++ [.mark .rightBrace]
decreasing_by
  · have hlt := List.sizeOf_lt_of_mem ‹_ ∈ items›
    rw [list.sizeOf_spec]
    omega
  · have hlt := sizeOf_snd_lt_of_mem ‹_ ∈ members›
    rw [object.sizeOf_spec]
    omega

/-- The literal is read on from its tokens, whatever is open around it and stands behind it. -/
def Literal.IsReadBack (l : Literal) : Prop :=
  ∀ frames rest, value? frames (l.tokens ++ rest) = behind? frames l rest

/-- Reads on in a list, behind the items that it already has. -/
theorem value?_items {l : Literal} {ls : List Literal} (hls : ∀ m ∈ l :: ls, m.IsReadBack)
    (frames : List Frame) (read : List Literal) (rest : List Token) :
    value? (.items read :: frames)
        ([.mark .comma].intercalate ((l :: ls).map Literal.tokens) ++ .mark .rightBracket :: rest) =
      behind? frames (.list (read ++ l :: ls)) rest := by
  induction ls generalizing l read with
  | nil =>
    rw [List.map_cons, List.map_nil, List.intercalate_singleton, hls l List.mem_cons_self, behind?]
  | cons m ls ih =>
    have hm := ih (fun n hn ↦ hls n (List.mem_cons_of_mem l hn)) (read ++ [l])
    rw [List.map_cons] at hm
    rw [List.map_cons, List.map_cons, List.intercalate_cons_cons, List.append_assoc,
      List.append_assoc, hls l List.mem_cons_self, List.singleton_append, behind?, hm,
      List.append_assoc, List.singleton_append]

/-- Reads on in an object, behind the members that it already has. -/
theorem key?_members {m : Text × Literal} {ms : List (Text × Literal)}
    (hms : ∀ n ∈ m :: ms, n.2.IsReadBack)
    (frames : List Frame) (read : List (Text × Literal)) (rest : List Token) :
    key? frames read
        ([.mark .comma].intercalate
          ((m :: ms).map fun n ↦ .name n.1 :: .mark .colon :: n.2.tokens) ++
            .mark .rightBrace :: rest) =
      behind? frames (.object (read ++ m :: ms)) rest := by
  induction ms generalizing m read with
  | nil =>
    rw [List.map_cons, List.map_nil, List.intercalate_singleton, List.cons_append, List.cons_append,
      key?, hms m List.mem_cons_self, behind?]
  | cons n ms ih =>
    have hn := ih (fun k hk ↦ hms k (List.mem_cons_of_mem m hk)) (read ++ [m])
    rw [List.map_cons] at hn
    rw [List.map_cons, List.map_cons, List.intercalate_cons_cons, List.append_assoc,
      List.append_assoc, List.cons_append, List.cons_append, key?, hms m List.mem_cons_self,
      List.singleton_append, behind?, hn, List.append_assoc, List.singleton_append]

theorem Literal.isReadBack (l : Literal) : l.IsReadBack := by
  intro frames rest
  match l with
  | .text t => rw [tokens, List.singleton_append, value?]
  | .number n => rw [tokens, List.singleton_append, value?]
  | .name t => rw [tokens, List.singleton_append, value?]
  | .list [] => rw [tokens]; rfl
  -- Items and the values of members are smaller literals, read back by recursion.
  | .list (m :: ls) =>
    have hls : ∀ n ∈ m :: ls, n.IsReadBack := fun n hn ↦ n.isReadBack
    rw [tokens, List.append_assoc, List.cons_append, List.singleton_append, value?,
      value?_items hls, List.nil_append]
  | .object [] => rw [tokens]; rfl
  | .object (m :: ms) =>
    have hms : ∀ n ∈ m :: ms, n.2.IsReadBack := fun n hn ↦ n.2.isReadBack
    rw [tokens, List.append_assoc, List.cons_append, List.singleton_append, value?,
      key?_members hms, List.nil_append]
termination_by sizeOf l
decreasing_by
  · have hlt := List.sizeOf_lt_of_mem hn
    rw [list.sizeOf_spec]
    omega
  · have hlt := sizeOf_snd_lt_of_mem hn
    rw [object.sizeOf_spec]
    omega

end PluginPack.Registry
