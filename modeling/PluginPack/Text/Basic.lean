import PluginPack.Text.CharClass

/-!
# Reading from the front of a text

The steps out of which recognisers are built. A step looks at the front of a text and answers with
the rest of it, or with nothing when the text does not begin as it should; what a step answers is
always a suffix of what it was given. Beside them stand trimming, cutting at a word, and lines.
-/

namespace PluginPack.Text

/-! ## Trimming -/

/-- The text without its leading white space. -/
def trimStart (t : Text) : Text := t.dropWhile isWhite

/-- The text without its trailing white space. -/
def trimEnd (t : Text) : Text := (t.reverse.dropWhile isWhite).reverse

/-- The text without white space at either end. -/
def trim (t : Text) : Text := trimEnd (trimStart t)

/-- The white space that a text ends in. -/
def trailingWhite (t : Text) : Text := (t.reverse.takeWhile isWhite).reverse

/-! ## Steps -/

/-- The rest after a given word. -/
def word? : Text → Text → Option Text
  | [], t => some t
  | _ :: _, [] => none
  | a :: w, b :: t => if a = b then word? w t else none

/-- The rest after one or more characters of a class, as many as there are. -/
def some? (p : Char → Bool) : Text → Option Text
  | [] => none
  | c :: r => if p c then some (r.dropWhile p) else none

/-- The rest after white space, of which there must be some. -/
def white? (t : Text) : Option Text := some? isWhite t

/-- The rest after a given word and the white space that must follow it. -/
def keyword? (w t : Text) : Option Text := (word? w t).bind white?

/-- What a step leaves, or all of the text when the step does not apply. -/
def optionally (step : Text → Option Text) (t : Text) : Text := (step t).getD t

/-- The rest after a brace and the next closing brace, with nothing between them read. -/
def braces? : Text → Option Text
  | '{' :: r =>
    match r.dropWhile (· != '}') with
    | _ :: r' => some r'
    | [] => none
  | _ => none

/-- The rest after the end of a line, which is a newline, a carriage return and a newline, or the
end of the text with or without a carriage return. -/
def lineEnd? : Text → Option Text
  | [] => some []
  | '\n' :: r => some r
  | ['\r'] => some []
  | '\r' :: '\n' :: r => some r
  | _ => none

/-- The rest after the line when nothing but blanks and at most one semicolon are left on it. -/
def closeLine? (t : Text) : Option Text :=
  lineEnd? ((optionally (word? [';']) (t.dropWhile isBlank)).dropWhile isBlank)

/-! ## What the steps leave -/

theorem word?_eq_some_iff {w t r : Text} : word? w t = some r ↔ t = w ++ r := by
  induction w generalizing t with
  | nil => simp [word?]
  | cons a w ih =>
    cases t with
    | nil => simp [word?]
    | cons b t =>
      by_cases h : a = b
      · simp [word?, h, ih]
      · simp [word?, h, Ne.symm h]

theorem word?_suffix {w t r : Text} (h : word? w t = some r) : r <:+ t :=
  ⟨w, (word?_eq_some_iff.mp h).symm⟩

theorem some?_suffix {p : Char → Bool} {t r : Text} (h : some? p t = some r) : r <:+ t := by
  cases t with
  | nil => simp [some?] at h
  | cons c t =>
    by_cases hc : p c
    · simp only [some?, hc, if_true, Option.some.injEq] at h
      subst h
      exact (List.dropWhile_suffix p).trans (List.suffix_cons c t)
    · simp [some?, hc] at h

theorem some?_length_lt {p : Char → Bool} {t r : Text} (h : some? p t = some r) :
    r.length < t.length := by
  cases t with
  | nil => simp [some?] at h
  | cons c t =>
    by_cases hc : p c
    · simp only [some?, hc, if_true, Option.some.injEq] at h
      subst h
      exact Nat.lt_succ_of_le (List.dropWhile_suffix p).length_le
    · simp [some?, hc] at h

theorem white?_suffix {t r : Text} (h : white? t = some r) : r <:+ t := some?_suffix h

theorem keyword?_suffix {w t r : Text} (h : keyword? w t = some r) : r <:+ t := by
  obtain ⟨s, hs, hr⟩ := Option.bind_eq_some_iff.mp h
  exact (white?_suffix hr).trans (word?_suffix hs)

theorem keyword?_length_lt {w t r : Text} (h : keyword? w t = some r) : r.length < t.length := by
  obtain ⟨s, hs, hr⟩ := Option.bind_eq_some_iff.mp h
  exact Nat.lt_of_lt_of_le (some?_length_lt hr) (word?_suffix hs).length_le

theorem optionally_suffix {step : Text → Option Text}
    (hstep : ∀ {t r : Text}, step t = some r → r <:+ t) (t : Text) : optionally step t <:+ t := by
  unfold optionally
  cases h : step t with
  | none => exact List.suffix_refl t
  | some r => exact hstep h

theorem braces?_suffix {t r : Text} (h : braces? t = some r) : r <:+ t := by
  unfold braces? at h
  split at h
  · rename_i r₀
    split at h
    · rename_i c r' hd
      cases h
      exact ((List.suffix_cons c r).trans (hd ▸ List.dropWhile_suffix _)).trans
        (List.suffix_cons '{' r₀)
    · exact absurd h (by simp)
  · exact absurd h (by simp)

theorem lineEnd?_suffix {t r : Text} (h : lineEnd? t = some r) : r <:+ t := by
  unfold lineEnd? at h
  split at h
  · cases h; exact List.suffix_refl []
  · cases h; exact List.suffix_cons _ _
  · cases h; exact List.nil_suffix
  · cases h; exact ⟨['\r', '\n'], rfl⟩
  · exact absurd h (by simp)

theorem closeLine?_suffix {t r : Text} (h : closeLine? t = some r) : r <:+ t :=
  (lineEnd?_suffix h).trans <| (List.dropWhile_suffix _).trans <|
    (optionally_suffix (fun h ↦ word?_suffix h) _).trans (List.dropWhile_suffix _)

/-! ## Cutting -/

/-- The parts of a text before and after the first occurrence of a word. -/
def cutAt? (w : Text) : Text → Option (Text × Text)
  | [] => if w.isEmpty then some ([], []) else none
  | c :: r =>
    match word? w (c :: r) with
    | some rest => some ([], rest)
    | none => (cutAt? w r).map fun p ↦ (c :: p.1, p.2)

theorem eq_append_of_cutAt? {w t a b : Text} (h : cutAt? w t = some (a, b)) : t = a ++ w ++ b := by
  induction t generalizing a with
  | nil =>
    cases w with
    | nil => simp [cutAt?] at h; simp [h]
    | cons => simp [cutAt?] at h
  | cons c r ih =>
    unfold cutAt? at h
    split at h
    · rename_i rest hw
      cases h
      exact word?_eq_some_iff.mp hw
    · obtain ⟨p, hp, he⟩ := Option.map_eq_some_iff.mp h
      cases he
      rw [ih hp]
      rfl

/-- The pieces of a text between the newlines. -/
def splitNewlines : Text → List Text
  | [] => [[]]
  | c :: r =>
    if c = '\n' then [] :: splitNewlines r
    else
      match splitNewlines r with
      | [] => [[c]]
      | l :: ls => (c :: l) :: ls

/-- Drops one carriage return from the end of a text. -/
def dropReturn (t : Text) : Text := if t.getLast? = some '\r' then t.dropLast else t

/-- The lines of a text. A newline ends a line, together with a carriage return right before it; the
last line needs no newline and is none when it is empty. -/
def lines (t : Text) : List Text :=
  let ls := splitNewlines t
  ls.dropLast.map dropReturn ++
    match ls.getLast? with
    | some l => if l.isEmpty then [] else [l]
    | none => []

/-- The number of bytes of a text in UTF-8. -/
def utf8Length (t : Text) : Nat := t.foldr (fun c n ↦ c.utf8Size + n) 0

@[simp] theorem utf8Length_nil : utf8Length [] = 0 := rfl

@[simp] theorem utf8Length_cons (c : Char) (t : Text) :
    utf8Length (c :: t) = c.utf8Size + utf8Length t := rfl

@[simp] theorem utf8Length_append (t u : Text) :
    utf8Length (t ++ u) = utf8Length t + utf8Length u := by
  induction t with
  | nil => exact (Nat.zero_add _).symm
  | cons c t ih => rw [List.cons_append, utf8Length_cons, utf8Length_cons, ih, Nat.add_assoc]

theorem length_le_utf8Length (t : Text) : t.length ≤ utf8Length t := by
  induction t with
  | nil => exact Nat.zero_le _
  | cons c t ih =>
    have hc := c.utf8Size_pos
    rw [List.length_cons, utf8Length, List.foldr_cons, ← utf8Length]
    omega

/-- A bound on the length leaves only finitely many texts. -/
theorem exists_forall_mem_of_length_le (n : Nat) :
    ∃ ts : List Text, ∀ t : Text, t.length ≤ n → t ∈ ts := by
  induction n with
  | zero => exact ⟨[[]], fun t h ↦ by rw [List.length_eq_zero_iff.mp (Nat.le_zero.mp h)]; simp⟩
  | succ n ih =>
    obtain ⟨ts, hts⟩ := ih
    refine ⟨[] :: ts.flatMap fun t ↦ (List.range 0x110000).map fun k ↦ Char.ofNat k :: t, ?_⟩
    intro t h
    cases t with
    | nil => exact List.mem_cons_self
    | cons c t =>
      refine List.mem_cons_of_mem _ (List.mem_flatMap.mpr ⟨t, hts t (by simpa using h), ?_⟩)
      refine List.mem_map.mpr ⟨c.toNat, List.mem_range.mpr ?_, by rw [Char.ofNat_toNat]⟩
      have hc : c.val.toNat.isValidChar := c.valid
      rw [Nat.isValidChar] at hc
      rw [← Char.toNat_val]
      omega

/-- The decimal digits of a number. -/
def ofNat (n : Nat) : Text := Nat.toDigits 10 n

end PluginPack.Text
