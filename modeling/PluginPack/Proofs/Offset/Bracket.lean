import PluginPack.Proofs.Offset.Literal

/-!
# Closing brackets by byte offsets

The loop that looks for the parenthesis that closes another one. It steps over literals and comments
and counts the brackets between them. It comes to an end in any bytes, and in a text it finds the
parenthesis that is found there.
-/

namespace PluginPack.Offset

open Text Script TypeSyntax

variable {s : Text} {c : Char} {i j depth : Nat} {bs : Bytes}

/-- Goes on until as many brackets have closed as are open, and answers with the offset of the last
one of these when it is a parenthesis. -/
def closingFrom (b : Bytes) (depth i : Nat) : Checked (Option Nat) :=
  if i < b.length then
    match hinert : inertEnd b i with
    | none => none
    | some (some next) =>
      have := lt_of_inertEnd hinert
      closingFrom b depth next
    | some none => do
      let c ← byteAt? b i
      if isOpening c then closingFrom b (depth + 1) (i + 1)
      else if isClosing c then
        if depth = 0 then return none
        else if depth = 1 then return if c = ')' then some i else none
        else closingFrom b (depth - 1) (i + 1)
      else closingFrom b depth (i + 1)
  else some none
termination_by b.length - i
decreasing_by all_goals omega

/-- The offset of the parenthesis that closes the one at an offset. -/
def closeParen (b : Bytes) (opening : Nat) : Checked (Option Nat) := closingFrom b 0 opening

theorem closingFrom_end (h : bs.length ≤ i) : closingFrom bs depth i = some none := by
  rw [closingFrom, if_neg (Nat.not_lt.mpr h)]

theorem closingFrom_inert (h : inertEnd bs i = some (some j)) (hi : i < bs.length) :
    closingFrom bs depth i = closingFrom bs depth j := by
  rw [closingFrom, if_pos hi]
  split <;> simp_all

theorem closingFrom_byte (h : inertEnd bs i = some none) (hbyte : byteAt? bs i = some c) :
    closingFrom bs depth i =
      if isOpening c then closingFrom bs (depth + 1) (i + 1)
      else if isClosing c then
        if depth = 0 then some none
        else if depth = 1 then some (if c = ')' then some i else none)
        else closingFrom bs (depth - 1) (i + 1)
      else closingFrom bs depth (i + 1) := by
  rw [closingFrom, if_pos (lt_of_byteAt? hbyte)]
  split <;> simp_all

/-- **The search for a closing parenthesis** comes to an end in any bytes, and where it ends there
is one. -/
theorem exists_closingFrom (bs : Bytes) (depth i : Nat) :
    ∃ r, closingFrom bs depth i = some r ∧ ∀ j ∈ r, i ≤ j ∧ byteAt? bs j = some ')' := by
  induction hn : bs.length - i using Nat.strongRecOn generalizing depth i with
  | ind n ih =>
    subst hn
    have hlater {j : Nat} (depth : Nat) (hi : i < bs.length) (hij : i < j) : ∃ r,
        closingFrom bs depth j = some r ∧ ∀ k ∈ r, i ≤ k ∧ byteAt? bs k = some ')' := by
      obtain ⟨r, hr, hparen⟩ := ih (bs.length - j) (by omega) depth j rfl
      exact ⟨r, hr, fun k hk ↦ ⟨hij.le.trans (hparen k hk).1, (hparen k hk).2⟩⟩
    rcases Nat.lt_or_ge i bs.length with hi | hi
    · obtain ⟨r, hr, hforward⟩ := exists_inertEnd bs i
      cases r with
      | some j => exact closingFrom_inert hr hi ▸ hlater depth hi (hforward j rfl).1
      | none =>
        obtain ⟨c, hbyte⟩ := exists_byteAt? hi
        rw [closingFrom_byte hr hbyte]
        split_ifs with hopens hcloses hzero hone hc
        · exact hlater _ hi (Nat.lt_succ_self i)
        · exact ⟨none, rfl, by simp⟩
        · refine ⟨some i, rfl, fun j hj ↦ ?_⟩
          cases hj
          exact ⟨le_rfl, hc ▸ hbyte⟩
        · exact ⟨none, rfl, by simp⟩
        · exact hlater _ hi (Nat.lt_succ_self i)
        · exact hlater _ hi (Nat.lt_succ_self i)
    · exact ⟨none, closingFrom_end hi, by simp⟩

theorem closingFrom_wide (hbyte : byteAt? bs i = some c) (hc : IsWide c) :
    closingFrom bs depth i = closingFrom bs depth (i + 1) := by
  rw [closingFrom_byte (inertEnd_wide hc hbyte) hbyte, hc.isOpening, hc.isClosing]
  rfl

/-- The search at a character of code that is not wide. -/
theorem closingFrom_char (hc : ¬IsWide c) (h : inert? (c :: s) = none) (a : Text) :
    closingFrom (bytes (a ++ c :: s)) depth (utf8Length a) =
      if isOpening c then closingFrom (bytes (a ++ [c] ++ s)) (depth + 1) (utf8Length (a ++ [c]))
      else if isClosing c then
        if depth = 0 then some none
        else if depth = 1 then some (if c = ')' then some (utf8Length a) else none)
        else closingFrom (bytes (a ++ [c] ++ s)) (depth - 1) (utf8Length (a ++ [c]))
      else closingFrom (bytes (a ++ [c] ++ s)) depth (utf8Length (a ++ [c])) := by
  rw [closingFrom_byte (inertEnd_of_none h a) (byteAt?_of_not_isWide hc a s),
    utf8Length_concat hc, ← List.append_cons]

/-- Where a text was cut, if it was cut before a parenthesis. -/
def parenthesisAt? (a : Text) : Text × Text → Option Nat
  | (x, ')' :: _) => some (utf8Length (a ++ x))
  | _ => none

theorem bind_parenthesisAt? (a w : Text) (x : Option (Text × Text)) :
    (x.map fun p ↦ (w ++ p.1, p.2)).bind (parenthesisAt? a) = x.bind (parenthesisAt? (a ++ w)) := by
  rcases x with _ | ⟨x, _ | ⟨c, y⟩⟩
  · rfl
  · rfl
  · by_cases hc : c = ')'
    · subst hc
      exact congrArg (some ∘ utf8Length) (List.append_assoc a w x).symm
    · simp [parenthesisAt?, hc]

/-- **The search and the text agree** on the parenthesis. -/
theorem closingFrom_eq (hdepth : 0 < depth) (a t : Text) :
    closingFrom (bytes (a ++ t)) depth (utf8Length a) =
      some ((splitClosing? depth t).bind (parenthesisAt? a)) := by
  fun_induction splitClosing? depth t generalizing a with
  | case1 => rw [closingFrom_end (by simp), Option.bind_none]
  | case2 depth c s lit r hinert _ ih =>
    rw [closingFrom_inert (inertEnd_of_some hinert a) (utf8Length_lt a c s), ← inert?_append hinert,
      ← List.append_assoc, ih hdepth, bind_parenthesisAt?]
  | case3 depth c s hinert hopens ih =>
    rw [closingFrom_char (fun hc ↦ by simp [hc.isOpening] at hopens) hinert, if_pos hopens,
      ih (Nat.succ_pos depth), ← bind_parenthesisAt?]
    rfl
  | case4 depth c s hinert hopens hcloses hone =>
    rw [closingFrom_char (fun hc ↦ by simp [hc.isClosing] at hcloses) hinert, if_neg hopens,
      if_pos hcloses, if_neg hdepth.ne', if_pos (by omega)]
    by_cases hc : c = ')'
    · subst hc
      simp [parenthesisAt?]
    · simp [parenthesisAt?, hc]
  | case5 depth c s hinert hopens hcloses hone ih =>
    rw [closingFrom_char (fun hc ↦ by simp [hc.isClosing] at hcloses) hinert, if_neg hopens,
      if_pos hcloses, if_neg hdepth.ne', if_neg (by omega), ih (by omega), ← bind_parenthesisAt?]
    rfl
  | case6 depth c s hinert hopens hcloses ih =>
    have hnext := ih hdepth (a ++ [c])
    rw [← bind_parenthesisAt?, ← List.append_cons] at hnext
    refine Eq.trans ?_ hnext
    by_cases hc : IsWide c
    · exact scan_wide hc rfl fun i d ↦ closingFrom_wide
    · rw [closingFrom_char hc hinert, if_neg hopens, if_neg hcloses, ← List.append_cons]

/-- **The closing parenthesis** of the one at an offset is the one that closes it in the text. -/
theorem closeParen_eq (a t : Text) :
    closeParen (bytes (a ++ '(' :: t)) (utf8Length a) =
      some ((closeParen? t).map fun p ↦ utf8Length (a ++ '(' :: p.1)) := by
  rw [closeParen, closingFrom_char (by decide) (Script.inert?_eq_none (by decide) (by decide) t),
    if_pos rfl, closingFrom_eq Nat.one_pos, closeParen?]
  refine congrArg some ?_
  rcases splitClosing? 1 t with _ | ⟨x, _ | ⟨c, y⟩⟩
  · rfl
  · rfl
  · by_cases hc : c = ')'
    · subst hc
      simp [parenthesisAt?]
    · simp [parenthesisAt?, hc]

end PluginPack.Offset
