import PluginPack.Proofs.Offset.Literal
import PluginPack.Proofs.Untyped.Parameter

/-!
# Parameters by byte offsets

The loop that lists the offsets of a mark outside brackets, and the removal of the types of
parameters that cuts the list at the commas, and each parameter at its colon and its equals sign.
The text is cut in the same places when it is read from one mark to the next: behind a mark outside
brackets the loop goes on as it began.
-/

namespace PluginPack.Offset

open Text Script TypeSyntax

/-- The offsets of a mark outside brackets, literals and comments, from an offset on. -/
def topLevelFrom (b : Bytes) (wanted : Char) (depth i : Nat) : Checked (List Nat) :=
  if i < b.length then
    match hinert : inertEnd b i with
    | none => none
    | some (some next) =>
      have := lt_of_inertEnd hinert
      topLevelFrom b wanted depth next
    | some none => do
      let c ← byteAt? b i
      if c = '=' ∧ (byteAt? b (i + 1) = some '>' ∨ byteAt? b (i + 1) = some '=') then
        topLevelFrom b wanted depth (i + 2)
      else if opensNesting c then topLevelFrom b wanted (depth + 1) (i + 1)
      else if closesNesting c then topLevelFrom b wanted (depth - 1) (i + 1)
      else if c = wanted ∧ depth = 0 then return i :: (← topLevelFrom b wanted depth (i + 1))
      else topLevelFrom b wanted depth (i + 1)
  else some []
termination_by b.length - i
decreasing_by all_goals omega

/-- The offsets of a mark outside brackets, literals and comments. -/
def topLevel (t : Text) (wanted : Char) : Checked (List Nat) := topLevelFrom (bytes t) wanted 0 0

/-- Removes the type of one parameter. -/
def eraseParameterType (param : Text) : Checked Text := do
  match (← topLevel param ':').head? with
  | none => return param
  | some colon =>
    let equals ← topLevel param '='
    if equals.head?.any (· < colon) then return param
    else
      let name ← slice? param 0 colon
      match equals.find? (colon < ·) with
      | some equal =>
        return dropOptional name ++ ' ' :: (← slice? param equal (utf8Length param))
      | none =>
        return dropOptional name ++
          (← slice? param (utf8Length (trimEnd param)) (utf8Length param))

/-- Removes the types of the parameters from an offset on, which end at the given commas. -/
def eraseParameterTypesFrom (params : Text) (start : Nat) : List Nat → Checked Text
  | [] => do eraseParameterType (← slice? params start (utf8Length params))
  | comma :: commas => do
    let param ← eraseParameterType (← slice? params start comma)
    return param ++ ',' :: (← eraseParameterTypesFrom params (comma + 1) commas)

/-- Removes the types of all parameters of a list. -/
def eraseParameterTypes (params : Text) : Checked Text := do
  eraseParameterTypesFrom params 0 (← topLevel params ',')

variable {a s t x y code : Text} {c wanted : Char} {p : Char → Bool} {i j depth : Nat} {bs : Bytes}

/-! ## All bytes -/

theorem topLevelFrom_end (h : bs.length ≤ i) : topLevelFrom bs wanted depth i = some [] := by
  rw [topLevelFrom, if_neg (Nat.not_lt.mpr h)]

theorem topLevelFrom_inert (h : inertEnd bs i = some (some j)) (hi : i < bs.length) :
    topLevelFrom bs wanted depth i = topLevelFrom bs wanted depth j := by
  rw [topLevelFrom, if_pos hi]
  split <;> simp_all

theorem topLevelFrom_byte (h : inertEnd bs i = some none) (hbyte : byteAt? bs i = some c) :
    topLevelFrom bs wanted depth i =
      if c = '=' ∧ (byteAt? bs (i + 1) = some '>' ∨ byteAt? bs (i + 1) = some '=') then
        topLevelFrom bs wanted depth (i + 2)
      else if opensNesting c then topLevelFrom bs wanted (depth + 1) (i + 1)
      else if closesNesting c then topLevelFrom bs wanted (depth - 1) (i + 1)
      else if c = wanted ∧ depth = 0 then
        (topLevelFrom bs wanted depth (i + 1)).map (i :: ·)
      else topLevelFrom bs wanted depth (i + 1) := by
  rw [topLevelFrom, if_pos (lt_of_byteAt? hbyte)]
  split
  · next hnone => cases h.symm.trans hnone
  · next hsome => cases h.symm.trans hsome
  · simp only [hbyte, Option.map_eq_bind]
    rfl

/-- **The loop over marks** comes to an end in any bytes, and at each offset it lists there is the
mark. -/
theorem exists_topLevelFrom (bs : Bytes) (wanted : Char) (depth i : Nat) :
    ∃ r, topLevelFrom bs wanted depth i = some r ∧
      ∀ j ∈ r, i ≤ j ∧ byteAt? bs j = some wanted := by
  induction hn : bs.length - i using Nat.strongRecOn generalizing depth i with
  | ind n ih =>
    subst hn
    have hlater {j : Nat} (depth : Nat) (hi : i < bs.length) (hij : i < j) : ∃ r,
        topLevelFrom bs wanted depth j = some r ∧
          ∀ k ∈ r, i ≤ k ∧ byteAt? bs k = some wanted := by
      obtain ⟨r, hr, hmark⟩ := ih (bs.length - j) (by omega) depth j rfl
      exact ⟨r, hr, fun k hk ↦ ⟨hij.le.trans (hmark k hk).1, (hmark k hk).2⟩⟩
    rcases Nat.lt_or_ge i bs.length with hi | hi
    · obtain ⟨r, hr, hforward⟩ := exists_inertEnd bs i
      cases r with
      | some j => exact topLevelFrom_inert hr hi ▸ hlater depth hi (hforward j rfl).1
      | none =>
        obtain ⟨c, hbyte⟩ := exists_byteAt? hi
        rw [topLevelFrom_byte hr hbyte]
        split_ifs with harrow hopens hcloses hfound
        · exact hlater _ hi (by omega)
        · exact hlater _ hi (Nat.lt_succ_self i)
        · exact hlater _ hi (Nat.lt_succ_self i)
        · obtain ⟨r, hr, hmark⟩ := hlater depth hi (Nat.lt_succ_self i)
          refine ⟨i :: r, by rw [hr, Option.map_some], fun j hj ↦ ?_⟩
          rcases List.mem_cons.mp hj with rfl | hj
          · exact ⟨le_rfl, hfound.1 ▸ hbyte⟩
          · exact hmark j hj
        · exact hlater _ hi (Nat.lt_succ_self i)
    · exact ⟨[], topLevelFrom_end hi, by simp⟩

/-! ## Marks of a text -/

theorem topLevelFrom_wide (hwanted : ¬IsWide wanted) (hbyte : byteAt? bs i = some c)
    (hc : IsWide c) : topLevelFrom bs wanted depth i = topLevelFrom bs wanted depth (i + 1) := by
  rw [topLevelFrom_byte (inertEnd_wide hc hbyte) hbyte, if_neg fun h ↦ hc.ne (by decide) h.1,
    hc.opensNesting, hc.closesNesting, if_neg Bool.false_ne_true, if_neg Bool.false_ne_true,
    if_neg fun h ↦ hc.ne hwanted h.1]

/-- The loop at a character of code that is not wide. -/
theorem topLevelFrom_char (hc : ¬IsWide c) (h : inert? (c :: s) = none)
    (hcode : code = a ++ c :: s) :
    topLevelFrom (bytes code) wanted depth (utf8Length a) =
      if c = '=' ∧ (s.head? = some '>' ∨ s.head? = some '=') then
        topLevelFrom (bytes code) wanted depth (utf8Length (a ++ c :: s.take 1))
      else if opensNesting c then
        topLevelFrom (bytes code) wanted (depth + 1) (utf8Length (a ++ [c]))
      else if closesNesting c then
        topLevelFrom (bytes code) wanted (depth - 1) (utf8Length (a ++ [c]))
      else if c = wanted ∧ depth = 0 then
        (topLevelFrom (bytes code) wanted depth (utf8Length (a ++ [c]))).map (utf8Length a :: ·)
      else topLevelFrom (bytes code) wanted depth (utf8Length (a ++ [c])) := by
  subst hcode
  rw [topLevelFrom_byte (inertEnd_of_none h a) (byteAt?_of_not_isWide hc a s), utf8Length_concat hc]
  simp only [byteAt?_second_eq_some_iff hc (d := '>') (by decide),
    byteAt?_second_eq_some_iff hc (d := '=') (by decide)]
  split_ifs with harrow
  · have htake : utf8Length (a ++ c :: s.take 1) = utf8Length a + 2 := by
      rcases harrow.2 with hd | hd
      all_goals
        obtain ⟨s, rfl⟩ := List.head?_eq_some_iff.mp hd
        simp [utf8Size_of_not_isWide hc, show '>'.utf8Size = 1 from rfl,
          show '='.utf8Size = 1 from rfl]
    rw [htake]
  all_goals rfl

/-- What the loop lists in a text that was cut before a mark: perhaps that mark, and what it lists
from behind that mark on. -/
def marksAt (code : Text) (wanted : Char) (a : Text) : Option (Text × Text) → Checked (List Nat)
  | some (x, c :: _) => (topLevelFrom (bytes code) wanted 0 (utf8Length (a ++ x ++ [c]))).map
      fun r ↦ if c = wanted then utf8Length (a ++ x) :: r else r
  | _ => some []

theorem marksAt_append (a x : Text) (q : Option (Text × Text)) :
    marksAt code wanted a (q.map fun q ↦ (x ++ q.1, q.2)) = marksAt code wanted (a ++ x) q := by
  rcases q with _ | ⟨y, _ | ⟨c, z⟩⟩
  · rfl
  · rfl
  · simp only [Option.map_some, marksAt, List.append_assoc]

section Marks

variable (wanted : Char) (hwanted : p wanted = true) (hp : ∀ c, p c = true → ¬IsWide c)
include hwanted hp

/-- **The loop and the text agree** on the first mark of a class that holds the mark that is looked
for. -/
theorem topLevelFrom_eq (depth : Nat) (hcode : code = a ++ t) :
    topLevelFrom (bytes code) wanted depth (utf8Length a) =
      marksAt code wanted a (splitTopLevel? p depth t) := by
  fun_induction splitTopLevel? p depth t generalizing a with
  | case1 =>
    rw [topLevelFrom_end (by simp [hcode])]
    rfl
  | case2 depth c s lit r hinert _ ih =>
    subst hcode
    rw [topLevelFrom_inert (inertEnd_of_some hinert a) (utf8Length_lt a c s), marksAt_append]
    exact ih (by rw [← inert?_append hinert, List.append_assoc])
  | case3 depth c s hinert harrow ih =>
    rw [topLevelFrom_char (by rw [harrow.1]; decide) hinert hcode, if_pos harrow, marksAt_append]
    exact ih (by cases s <;> simp [hcode])
  | case4 depth c s hinert harrow hopens ih =>
    rw [topLevelFrom_char (fun hc ↦ by simp [hc.opensNesting] at hopens) hinert hcode,
      if_neg harrow, if_pos hopens]
    exact (ih (by simp [hcode])).trans (marksAt_append a [c] _).symm
  | case5 depth c s hinert harrow hopens hcloses ih =>
    rw [topLevelFrom_char (fun hc ↦ by simp [hc.closesNesting] at hcloses) hinert hcode,
      if_neg harrow, if_neg hopens, if_pos hcloses]
    exact (ih (by simp [hcode])).trans (marksAt_append a [c] _).symm
  | case6 depth c s hinert harrow hopens hcloses hfound =>
    obtain ⟨hpc, hdepth⟩ := Bool.and_eq_true_iff.mp hfound
    have hzero : depth = 0 := beq_iff_eq.mp hdepth
    rw [topLevelFrom_char (hp c hpc) hinert hcode, if_neg harrow, if_neg hopens, if_neg hcloses,
      marksAt, hzero]
    by_cases hc : c = wanted
    · simp [hc]
    · simp [hc]
  | case7 depth c s hinert harrow hopens hcloses hnot ih =>
    refine Eq.trans ?_ ((ih (a := a ++ [c]) (by simp [hcode])).trans (marksAt_append a [c] _).symm)
    by_cases hwide : IsWide c
    · exact scan_wide hwide hcode fun i d ↦ topLevelFrom_wide (hp wanted hwanted)
    · have hother : ¬(c = wanted ∧ depth = 0) := by
        rintro ⟨rfl, rfl⟩
        simp [hwanted] at hnot
      rw [topLevelFrom_char hwide hinert hcode, if_neg harrow, if_neg hopens, if_neg hcloses,
        if_neg hother]

/-- The loop lists nothing when the text is not cut. -/
theorem topLevelFrom_of_none (hcode : code = a ++ t) (h : splitTopLevel? p 0 t = none) :
    topLevelFrom (bytes code) wanted 0 (utf8Length a) = some [] := by
  rw [topLevelFrom_eq wanted hwanted hp 0 hcode, h]
  rfl

theorem topLevelFrom_of_some (hcode : code = a ++ t)
    (h : splitTopLevel? p 0 t = some (x, c :: y)) :
    topLevelFrom (bytes code) wanted 0 (utf8Length a) =
      (topLevelFrom (bytes code) wanted 0 (utf8Length (a ++ x ++ [c]))).map
        fun r ↦ if c = wanted then utf8Length (a ++ x) :: r else r := by
  rw [topLevelFrom_eq wanted hwanted hp 0 hcode, h]
  rfl

theorem topLevel_of_none (h : splitTopLevel? p 0 t = none) : topLevel t wanted = some [] :=
  topLevelFrom_of_none (a := []) wanted hwanted hp rfl h

theorem topLevel_of_some (h : splitTopLevel? p 0 t = some (x, c :: y)) :
    topLevel t wanted = (topLevelFrom (bytes t) wanted 0 (utf8Length (x ++ [c]))).map
      fun r ↦ if c = wanted then utf8Length x :: r else r :=
  topLevelFrom_of_some (a := []) wanted hwanted hp rfl h

end Marks

/-! ## Types of parameters -/

/-- A parameter with a colon that no equals sign stands before. -/
theorem eraseParameterType_of_colon {colon : Nat} {colons equals : List Nat} {name param : Text}
    (hcolons : topLevel param ':' = some (colon :: colons))
    (hequals : topLevel param '=' = some equals) (hname : slice? param 0 colon = some name)
    (hlt : ∀ equal ∈ equals, colon < equal) :
    eraseParameterType param = equals.head?.elim
      ((slice? param (utf8Length (trimEnd param)) (utf8Length param)).map (dropOptional name ++ ·))
      fun equal ↦ (slice? param equal (utf8Length param)).map (dropOptional name ++ ' ' :: ·) := by
  have hhead : equals.head?.any (· < colon) = false := by
    cases equals with
    | nil => rfl
    | cons equal equals => simpa using (hlt equal List.mem_cons_self).le
  rw [eraseParameterType, hcolons]
  simp only [Option.bind_eq_bind, Option.bind_some, List.head?_cons, hequals, hhead, hname,
    Bool.false_eq_true, if_false]
  cases equals with
  | nil =>
    rw [List.find?_nil, List.head?_nil, Option.elim_none]
    cases slice? param (utf8Length (trimEnd param)) (utf8Length param) <;> rfl
  | cons equal equals =>
    rw [List.find?_cons_of_pos (by simpa using hlt equal List.mem_cons_self), List.head?_cons,
      Option.elim_some]
    dsimp only
    cases slice? param equal (utf8Length param) <;> rfl

theorem not_isWide_of_isMark (c : Char) (hc : (c == ':' || c == '=') = true) : ¬IsWide c := by
  simp only [Bool.or_eq_true, beq_iff_eq] at hc
  rcases hc with rfl | rfl <;> decide

theorem not_isWide_of_beq {d : Char} (hd : ¬IsWide d) (c : Char) (hc : (c == d) = true) :
    ¬IsWide c := beq_iff_eq.mp hc ▸ hd

/-- A parameter whose first mark is an equals sign is left as it is. -/
theorem eraseParameterType_of_equals {param : Text}
    (h : splitTopLevel? (fun c ↦ c == ':' || c == '=') 0 param = some (x, '=' :: y)) :
    eraseParameterType param = some param := by
  obtain ⟨colons, hcolons, hlater⟩ :=
    exists_topLevelFrom (bytes param) ':' 0 (utf8Length (x ++ ['=']))
  obtain ⟨equals, hequals, -⟩ := exists_topLevelFrom (bytes param) '=' 0 (utf8Length (x ++ ['=']))
  have hcolon := topLevel_of_some ':' rfl not_isWide_of_isMark h
  have hequal := topLevel_of_some '=' rfl not_isWide_of_isMark h
  rw [hcolons, Option.map_some, if_neg (by decide)] at hcolon
  rw [hequals, Option.map_some, if_pos rfl] at hequal
  rw [eraseParameterType, hcolon]
  cases colons with
  | nil => rfl
  | cons colon colons =>
    have hlt : utf8Length x < colon := by
      have := (hlater colon List.mem_cons_self).1
      rw [utf8Length_concat (by decide)] at this
      omega
    simp [hequal, hlt]

/-- A parameter whose first mark is a colon loses what stands between the colon and the next equals
sign. -/
theorem eraseParameterType_of_split {param : Text}
    (h : splitTopLevel? (fun c ↦ c == ':' || c == '=') 0 param = some (x, ':' :: y)) :
    eraseParameterType param = some (match splitTopLevel? (· == '=') 0 y with
      | some (_, value) => dropOptional x ++ ' ' :: value
      | none => dropOptional x ++ trailingWhite param) := by
  obtain ⟨colons, hcolons, -⟩ := exists_topLevelFrom (bytes param) ':' 0 (utf8Length (x ++ [':']))
  have hcolon := topLevel_of_some ':' rfl not_isWide_of_isMark h
  have hequal := topLevel_of_some '=' rfl not_isWide_of_isMark h
  rw [hcolons, Option.map_some, if_pos rfl] at hcolon
  obtain rfl : param = x ++ [':'] ++ y := by simp [← splitTopLevel?_append h]
  have hname : slice? (x ++ [':'] ++ y) 0 (utf8Length x) = some x := by
    rw [← List.append_cons]
    exact slice?_start x _
  -- Behind the colon the equals signs are those of the rest.
  obtain ⟨equals, hequals, hlater⟩ :=
    exists_topLevelFrom (bytes (x ++ [':'] ++ y)) '=' 0 (utf8Length (x ++ [':']))
  rw [hequals, Option.map_some, if_neg (by decide)] at hequal
  have hlt : ∀ equal ∈ equals, utf8Length x < equal := by
    intro equal hmem
    have := (hlater equal hmem).1
    rw [utf8Length_concat (by decide)] at this
    omega
  rw [eraseParameterType_of_colon hcolon hequal hname hlt]
  cases hvalue : splitTopLevel? (· == '=') 0 y with
  | none =>
    have hnone := topLevelFrom_of_none (a := x ++ [':']) '=' rfl
      (not_isWide_of_beq (by decide)) rfl hvalue
    obtain rfl : equals = [] := Option.some.inj (hequals.symm.trans hnone)
    have hwhite := slice?_end (trimEnd (x ++ [':'] ++ y)) (trailingWhite (x ++ [':'] ++ y))
    rw [trimEnd_append_trailingWhite] at hwhite
    rw [List.head?_nil, Option.elim_none, hwhite, Option.map_some]
  | some q =>
    obtain ⟨v, z⟩ := q
    obtain ⟨c, value, rfl, hc⟩ := exists_cons_of_splitTopLevel? hvalue
    obtain rfl : c = '=' := beq_iff_eq.mp hc
    obtain ⟨others, hothers, -⟩ := exists_topLevelFrom (bytes (x ++ [':'] ++ y)) '=' 0
      (utf8Length (x ++ [':'] ++ v ++ ['=']))
    have hsome := topLevelFrom_of_some (a := x ++ [':']) '=' rfl
      (not_isWide_of_beq (by decide)) rfl hvalue
    rw [hothers, Option.map_some, if_pos rfl] at hsome
    obtain rfl : equals = _ := Option.some.inj (hequals.symm.trans hsome)
    have hslice := slice?_end (x ++ [':'] ++ v) ('=' :: value)
    rw [List.append_assoc _ v, splitTopLevel?_append hvalue] at hslice
    rw [List.head?_cons, Option.elim_some, hslice, Option.map_some]

/-- **The type of one parameter** is removed as in the text, with every slice in range and between
characters. -/
theorem eraseParameterType_eq (param : Text) :
    eraseParameterType param = some (TypeSyntax.eraseParameterType param) := by
  rw [TypeSyntax.eraseParameterType]
  cases hcut : splitTopLevel? (fun c ↦ c == ':' || c == '=') 0 param with
  | none =>
    rw [eraseParameterType, topLevel_of_none ':' rfl not_isWide_of_isMark hcut]
    rfl
  | some q =>
    obtain ⟨name, y⟩ := q
    obtain ⟨c, type, rfl, hc⟩ := exists_cons_of_splitTopLevel? hcut
    simp only [Bool.or_eq_true, beq_iff_eq] at hc
    rcases hc with rfl | rfl
    · exact eraseParameterType_of_split hcut
    · exact eraseParameterType_of_equals hcut

/-! ## Lists of parameters -/

/-- The commas of a list are those that the list is cut at, one after the other. -/
theorem eraseParameterTypesFrom_eq (a t : Text) {commas : List Nat}
    (h : topLevelFrom (bytes (a ++ t)) ',' 0 (utf8Length a) = some commas) :
    eraseParameterTypesFrom (a ++ t) (utf8Length a) commas =
      some (TypeSyntax.eraseParameterTypes t) := by
  induction hn : t.length using Nat.strongRecOn generalizing a t commas with
  | ind n ih =>
    subst hn
    cases hcut : splitTopLevel? (· == ',') 0 t with
    | none =>
      rw [topLevelFrom_of_none ',' rfl (not_isWide_of_beq (by decide)) rfl hcut] at h
      obtain rfl : [] = commas := Option.some.inj h
      rw [eraseParameterTypesFrom, slice?_end, Untyped.eraseParameterTypes_of_none hcut]
      exact eraseParameterType_eq t
    | some q =>
      obtain ⟨param, y⟩ := q
      obtain ⟨c, others, rfl, hc⟩ := exists_cons_of_splitTopLevel? hcut
      obtain rfl : c = ',' := beq_iff_eq.mp hc
      obtain rfl : t = param ++ ',' :: others := (splitTopLevel?_append hcut).symm
      have hsplit : a ++ (param ++ ',' :: others) = a ++ param ++ [','] ++ others := by simp
      obtain ⟨later, hlater, -⟩ := exists_topLevelFrom (bytes (a ++ (param ++ ',' :: others))) ',' 0
        (utf8Length (a ++ param ++ [',']))
      rw [topLevelFrom_of_some ',' rfl (not_isWide_of_beq (by decide)) rfl hcut, hlater,
        Option.map_some, if_pos rfl] at h
      obtain rfl : _ = commas := Option.some.inj h
      have hshorter : others.length < (param ++ ',' :: others).length := by
        rw [List.length_append, List.length_cons]
        omega
      have hnext := ih others.length hshorter (a ++ param ++ [',']) others (hsplit ▸ hlater) rfl
      have hparam := slice?_append a param (',' :: others)
      rw [List.append_assoc] at hparam
      rw [utf8Length_concat (by decide), ← hsplit] at hnext
      rw [eraseParameterTypesFrom, hparam]
      simp only [Option.bind_eq_bind, Option.bind_some, eraseParameterType_eq, hnext,
        Untyped.eraseParameterTypes_of_some hcut]
      rfl

/-- **The types of a list of parameters** are removed as in the text. -/
theorem eraseParameterTypes_eq (params : Text) :
    eraseParameterTypes params = some (TypeSyntax.eraseParameterTypes params) := by
  obtain ⟨commas, hcommas, -⟩ := exists_topLevelFrom (bytes params) ',' 0 0
  rw [eraseParameterTypes, topLevel, hcommas]
  exact eraseParameterTypesFrom_eq [] params hcommas

end PluginPack.Offset
