import PluginPack.Proofs.Typed.Chain

/-!
# Erasing assertions

A value with a chain of assertions behind it. An assertion takes a single name away and leaves what
is joined to it, and it is found behind a name, a parenthesis or a square bracket only. So a chain
is taken away whole exactly when the value does not end in a brace and nothing is joined.
-/

namespace PluginPack

open Text Script TypeSyntax

namespace Typed

variable {b : Option Char} {c e : Char} {r s t v w : Text} {is : List (Link × Reference)}

/-! ## What a round finds -/

theorem linked_cons (l : Link) (x : Reference) (is : List (Link × Reference)) (r : Text) :
    linked ((l, x) :: is) ++ r = ' ' :: (l.text ++ ' ' :: (x.text ++ (linked is ++ r))) := by
  simp [linked]

/-- An assertion is found at its word and takes the name behind it. -/
theorem assertion?_linked {l : Link} {x : Reference} (h : x.isFree = true)
    (is : List (Link × Reference)) : assertion? (linked ((l, x) :: is) ++ [';']) =
      if l = .assertion then some (linked is ++ [';']) else none := by
  have hlink : Stops isWhite (l.text ++ ' ' :: (x.text ++ (linked is ++ [';']))) := by
    rcases l with _ | _ | _ <;> exact stops_cons.mpr rfl
  rw [linked_cons, assertion?, white?_blank hlink, Option.bind_some]
  cases l with
  | assertion =>
    have hkeyword := keyword?_blank "as".toList (x.stops_text (linked is ++ [';']))
    rw [Link.text, hkeyword, Option.bind_some, x.assertedType?_text h (endsName_linked is),
      if_pos rfl]
  | joint j =>
    have hkeyword (r : Text) : keyword? "as".toList (j.sign :: r) = none := by
      refine keyword?_eq_none fun hpre ↦ ?_
      have hhead := (List.cons_prefix_cons.mp hpre).1
      cases j <;> cases hhead
    rw [Link.text, List.singleton_append, hkeyword, Option.bind_none]
    rfl

/-- No assertion is found in a link and the name behind it, up to its last character. -/
theorem passes_link {a : Char} {m : Link} {y : Reference} (h : y.isFree = true) (hr : EndsName r)
    (hy : y.text = v ++ [c]) (hv : ∀ a r, assertion.Passes (some a) v (c :: r)) :
    assertion.Passes (some a) (' ' :: (m.text ++ ' ' :: v)) (c :: r) := by
  cases m with
  | joint j =>
    have hsign : endsOperand j.sign = false := by cases j <;> rfl
    exact .cons (find?_assertion_of_not rfl _) (.cons (find?_assertion_of_not hsign _)
      (.cons (find?_assertion_of_not rfl _) (hv ' ' r)))
  | assertion =>
    -- Behind the word the next word of an assertion would have to be the name.
    have hnone : assertion? (' ' :: v ++ c :: r) = none := by
      rw [List.cons_append, List.append_cons, ← hy, assertion?, white?_blank (y.stops_text r),
        Option.bind_some, y.keyword?_text h hr, Option.bind_none]
    have hlast (a : Char) : assertion.find? (some a) ('s' :: (' ' :: v ++ c :: r)) = none := by
      rw [find?_assertion_of_black rfl, hnone, Option.map_none, ite_self]
    exact .cons (find?_assertion_of_not rfl _) (.cons (find?_assertion_of_black rfl ..)
      (.cons (hlast 'a') (.cons (find?_assertion_of_not rfl _) (hv ' ' r))))

/-- What a round leaves of a text. -/
def leftFrom (b : Option Char) (t : Text) : Text :=
  (assertion.cutFrom b t).substitute fun p ↦ p.value

theorem leftFrom_of_none (h : assertion.find? b (c :: r) = none) :
    leftFrom b (c :: r) = c :: leftFrom (some c) r := by
  rw [leftFrom, Marker.cutFrom_of_none _ h, Cut.substitute_push]
  rfl

/-- An assertion behind a character is taken away. -/
theorem exists_leftFrom {x : Reference} (h : x.isFree = true) (b : Option Char)
    (hc : isWhite c = false) (hclosed : endsOperand c = true) (is : List (Link × Reference)) :
    ∃ a, leftFrom b (c :: (linked ((.assertion, x) :: is) ++ [';'])) =
      c :: leftFrom (some a) (linked is ++ [';']) := by
  have hfind : assertion.find? b (c :: (linked ((.assertion, x) :: is) ++ [';'])) =
      some ([c], linked is ++ [';']) := by
    rw [find?_assertion_of_black hc, if_pos hclosed, assertion?_linked h, if_pos rfl,
      Option.map_some]
  obtain ⟨a, ha⟩ := Option.ne_none_iff_exists'.mp
    (mt List.getLast?_eq_none_iff.mp (Marker.consumed_ne_nil (assertion.shorter hfind)))
  refine ⟨a, ?_⟩
  rw [leftFrom, Marker.cutFrom_of_some _ hfind, Cut.substitute_mark, ha]
  rfl

/-- A link that no assertion takes away is left, with the name behind it. -/
theorem leftFrom_linked {a : Char} {m : Link} {y : Reference} {is js : List (Link × Reference)}
    (h : y.isFree = true)
    (hrest : ∀ b c, isWhite c = false → endsOperand c = y.endsClosed →
      leftFrom b (c :: (linked is ++ [';'])) = c :: (linked js ++ [';'])) :
    leftFrom (some a) (linked ((m, y) :: is) ++ [';']) = linked ((m, y) :: js) ++ [';'] := by
  obtain ⟨v, c, hy, hclosed, hblack, hv⟩ := y.exists_passes
  have hsplit (is : List (Link × Reference)) : linked ((m, y) :: is) ++ [';'] =
      ' ' :: (m.text ++ ' ' :: v) ++ c :: (linked is ++ [';']) := by
    rw [linked_cons, hy]
    simp
  have hpass := passes_link (a := a) (m := m) h (endsName_linked is) hy hv
  rw [hsplit, hsplit, leftFrom, hpass.cutFrom_append, Cut.substitute_prepend,
    List.append_cancel_left_eq]
  exact hrest _ c hblack hclosed

/-- **A round over a chain** behind a character that is not white. -/
theorem leftFrom_cons (hfree : ∀ i ∈ is, i.2.isFree = true) (b : Option Char)
    (hc : isWhite c = false) : leftFrom b (c :: (linked is ++ [';'])) =
      c :: (linked (afterRound (endsOperand c) is) ++ [';']) := by
  have hsemicolon (a : Char) : leftFrom (some a) [';'] = [';'] := by
    rw [leftFrom_of_none (find?_assertion_of_not rfl []), leftFrom, Marker.cutFrom_nil,
      Cut.substitute_empty]
  generalize hclosed : endsOperand c = isClosed
  fun_induction afterRound isClosed is generalizing b c with
  | case1 isClosed =>
    have hnone : assertion.find? b [c, ';'] = none := by
      rw [find?_assertion_of_black hc]
      exact ite_eq_right_iff.mpr fun _ ↦ rfl
    exact (leftFrom_of_none hnone).trans (congrArg (c :: ·) (hsemicolon c))
  | case2 isClosed l x hl =>
    rw [Bool.and_eq_true, beq_iff_eq] at hl
    obtain ⟨rfl, rfl⟩ := hl
    rw [List.forall_mem_singleton] at hfree
    obtain ⟨a, ha⟩ := exists_leftFrom hfree b hc hclosed []
    rw [ha]
    exact congrArg (c :: ·) (hsemicolon a)
  | case3 isClosed l x hl m y is ih =>
    rw [Bool.and_eq_true, beq_iff_eq] at hl
    obtain ⟨rfl, rfl⟩ := hl
    rw [List.forall_mem_cons, List.forall_mem_cons] at hfree
    obtain ⟨a, ha⟩ := exists_leftFrom hfree.1 b hc hclosed ((m, y) :: is)
    rw [ha, leftFrom_linked hfree.2.1 fun b c hc hclosed ↦ ih hfree.2.2 b hc hclosed]
  | case4 isClosed l x is hl ih =>
    rw [List.forall_mem_cons] at hfree
    have hnone : assertion.find? b (c :: (linked ((l, x) :: is) ++ [';'])) = none := by
      rw [find?_assertion_of_black hc, assertion?_linked hfree.1]
      cases l with
      | joint j => exact ite_eq_right_iff.mpr fun _ ↦ rfl
      | assertion =>
        refine if_neg fun h ↦ hl ?_
        rw [← hclosed, h]
        rfl
    rw [leftFrom_of_none hnone,
      leftFrom_linked hfree.1 fun b c hc hclosed ↦ ih hfree.2 b hc hclosed]

/-- **A round behind an operand.** -/
theorem eraseAssertionsOnce_linked (hpass : assertion.Passes none s (e :: (linked is ++ [';'])))
    (he : isWhite e = false) (hfree : ∀ i ∈ is, i.2.isFree = true) :
    eraseAssertionsOnce (s ++ e :: (linked is ++ [';'])) =
      s ++ e :: (linked (afterRound (endsOperand e) is) ++ [';']) := by
  have hcut : eraseAssertionsOnce (s ++ e :: (linked is ++ [';'])) =
      (assertion.cutFrom none (s ++ e :: (linked is ++ [';']))).substitute fun p ↦ p.value := rfl
  rw [hcut, hpass.cutFrom_append, Cut.substitute_prepend, ← leftFrom_cons hfree _ he]
  rfl

/-- A round before all others makes no difference. -/
theorem eraseAssertions_eraseAssertionsOnce (t : Text) :
    eraseAssertions (eraseAssertionsOnce t) = eraseAssertions t := by
  rcases shrinks_eraseAssertionsOnce t with h | h
  · rw [h]
  · rw [eraseAssertions.eq_1 t, if_pos h]

/-- **All rounds behind an operand.** -/
theorem eraseAssertions_linked
    (hpass : ∀ is : List (Link × Reference), assertion.Passes none s (e :: (linked is ++ [';'])))
    (he : isWhite e = false) (hfree : ∀ i ∈ is, i.2.isFree = true) :
    eraseAssertions (s ++ e :: (linked is ++ [';'])) =
      s ++ e :: (linked (kept (endsOperand e) is) ++ [';']) := by
  induction hn : is.length using Nat.strongRecOn generalizing is with
  | ind n ih =>
    subst hn
    have hround := eraseAssertionsOnce_linked (hpass is) he hfree
    have hsub := afterRound_sublist (endsOperand e) is
    by_cases h : afterRound (endsOperand e) is = is
    · rw [h] at hround
      rw [eraseAssertions_of_eq hround, kept_eq_self h]
    · have hlt := hsub.length_le.lt_of_ne fun hlength ↦ h (hsub.eq_of_length hlength)
      rw [← eraseAssertions_eraseAssertionsOnce, hround,
        ih _ hlt (fun i hi ↦ hfree i (hsub.subset hi)) rfl, kept_afterRound id]

/-! ## Expressions as operands -/

/-- An expression that ends in the word of an assertion is a name. -/
theorem isWhite_of_expression {x : Expression false} (h : x.text = w ++ ['s']) :
    ∀ c ∈ x.text, isWhite c = false := by
  have hlast : x.text.getLast? = some 's' := by rw [h, List.getLast?_concat]
  cases x with
  | name n => exact fun c hc ↦ isWhite_of_isNameChar (n.chars c hc)
  | number n =>
    intro c hc
    have hchar := n.chars c hc
    rw [Bool.or_eq_true, Bool.or_eq_true, beq_iff_eq, beq_iff_eq] at hchar
    rcases hchar with (hchar | rfl) | rfl
    · exact isWhite_of_isPathChar hchar
    all_goals rfl
  | call n xs =>
    rw [Expression.text, ← List.cons_append, ← List.append_assoc, List.getLast?_concat] at hlast
    cases hlast
  | list xs =>
    rw [Expression.text, ← List.cons_append, List.getLast?_concat] at hlast
    cases hlast

/-- The variable of an assignment. -/
def assigned (x : Expression false) : Declarator :=
  ⟨⟨"x".toList, by decide, by decide⟩, none, some x, fun _ h ↦ by cases h⟩

theorem write_assigned (x : Expression false) :
    Declaration.write .const [(assigned x).erased] = assignment x.text [] := by
  have hassigning : assigning = "const".toList ++ ' ' :: ("x".toList ++ [' ', '=', ' ']) := by
    decide
  rw [assignment, hassigning]
  simp [Declaration.write, Declarator.erased, Declarator.valueText, Declaring.text, assigned]

/-- There is no type in an expression. -/
theorem eraseTypes_expression (x : Expression false) :
    eraseTypes (assignment x.text []) = assignment x.text [] := by
  have hplain := Declaration.eraseTypes_eq_left ⟨.const, assigned x, []⟩ false
  have htext : (assigned x).text = (assigned x).erased := by
    rw [Declarator.text, Declarator.textWith, Declarator.erased]
    rfl
  rw [Declaration.text, Declaration.left, List.map_singleton, List.map_nil, htext, write_assigned,
    if_neg (by decide), List.append_nil] at hplain
  exact hplain

/-- **Expressions are operands**, when they are not the word of an assertion. -/
theorem isOperand_expression {x : Expression false} (hx : x.text = v ++ [e])
    (he : closesOperand e = true) (hword : x.text ≠ "as".toList) : IsOperand v e where
  lexed := by
    refine IsCode.isLexed fun c hc ↦ (Declaration.isSpacedCode_expression x).code c ?_
    rw [hx]
    exact List.mem_append_left [e] hc
  closes := he
  word u hu := by
    rw [← hx] at hu
    have hblack := isWhite_of_expression (w := u ++ ['a']) (by rw [hu, List.append_assoc]; rfl)
    cases h : u.getLast? with
    | none =>
      rw [List.getLast?_eq_none_iff.mp h] at hu
      exact absurd hu hword
    | some c =>
      refine ⟨c, rfl, hblack c ?_⟩
      rw [hu]
      exact List.mem_append_left _ (List.mem_of_mem_getLast? h)
  lines y z r hv := by
    refine absurd ?_ x.nested.not_mem
    rw [hx, hv]
    simp
  plain := by
    rw [← hx]
    exact eraseTypes_expression x

/-! ## Assignments -/

theorem endsOperand_iff (h : closesOperand e = true) : endsOperand e = true ↔ e ≠ '}' := by
  rw [closesOperand, Bool.or_eq_true, beq_iff_eq] at h
  refine ⟨?_, fun hne ↦ h.resolve_right hne⟩
  rintro h rfl
  cases h

theorem linked_eq_nil_iff : linked is = [] ↔ is = [] := by
  cases is <;> simp [linked]

theorem eraseTypes_linked (h : IsOperand v e) (hfree : ∀ i ∈ is, i.2.isFree = true) :
    eraseTypes (assignment (v ++ [e]) (linked is)) =
      assignment (v ++ [e]) (linked (kept (endsOperand e) is)) := by
  have htext (is : List (Link × Reference)) : assignment (v ++ [e]) (linked is) =
      assigning ++ (v ++ e :: (linked is ++ [';'])) := by
    rw [assignment, List.append_assoc, List.singleton_append]
  obtain ⟨front, s, hsplit, hpass, herase⟩ := h.exists_eraseTypes
  rw [htext, htext, herase _ (isTail_linked is),
    eraseAssertions_linked (fun is ↦ hpass _ (isTail_linked is)) (isWhite_of_closesOperand h.closes)
      hfree, ← List.append_assoc, ← hsplit, List.append_assoc]

theorem isFree_links {ts : List (Joined Reference)}
    (h : ∀ t ∈ ts, ∀ x ∈ t.members, x.isFree = true) :
    ∀ i ∈ ts.flatMap Joined.links, i.2.isFree = true := by
  intro i hi
  obtain ⟨t, ht, hi⟩ := List.mem_flatMap.mp hi
  refine h t ht i.2 ?_
  rw [Joined.links, List.mem_cons, List.mem_map] at hi
  rw [Joined.members, List.mem_cons, List.mem_map]
  rcases hi with rfl | ⟨p, hp, rfl⟩
  · exact .inl rfl
  · exact .inr ⟨p, hp, rfl⟩

/-- **A chain of assertions loses the names that stand behind the value**, each without what is
joined to it, and so it is taken away whole exactly when the value does not end in a brace and no
assertion is to a union or an intersection. -/
theorem eraseTypes_chain {v : Text} {e : Char} (h : IsOperand v e) {ts : List (Joined Reference)}
    (hne : ts ≠ []) (hfree : ∀ t ∈ ts, ∀ x ∈ t.members, x.isFree = true) :
    eraseTypes (assignment (v ++ [e]) (chain ts)) =
        assignment (v ++ [e]) (linked (kept (endsOperand e) (ts.flatMap Joined.links))) ∧
      (eraseTypes (assignment (v ++ [e]) (chain ts)) = assignment (v ++ [e]) [] ↔
        e ≠ '}' ∧ ∀ t ∈ ts, t.rest = []) := by
  have herase := eraseTypes_linked h (isFree_links hfree)
  rw [← chain_eq] at herase
  refine ⟨herase, ?_⟩
  have hmore {w : Text} : assignment (v ++ [e]) w = assignment (v ++ [e]) [] ↔ w = [] := by
    rw [assignment, assignment, List.append_cancel_left_eq, List.append_cancel_left_eq,
      List.append_cancel_right_eq]
  rw [herase, hmore, linked_eq_nil_iff, kept_eq_nil_iff hne, endsOperand_iff h.closes]

/-- In `const x = f(y) as a.B[] | null as T;` what is joined stays. -/
theorem eraseTypes_chain_union : eraseTypes "const x = f(y) as a.B[] | null as T;".toList =
    "const x = f(y) | null;".toList := by
  let argument : Expression false := .name ⟨"y".toList, by decide, by decide⟩
  have hoperand : IsOperand "f(y".toList ')' := isOperand_expression
    (x := .call ⟨"f".toList, by decide, by decide⟩ (.one argument)) rfl rfl (by decide)
  let element : Reference :=
    ⟨⟨⟨"a".toList, by decide, by decide⟩, [⟨"B".toList, by decide, by decide⟩]⟩, none, 1⟩
  let absent : Reference := ⟨⟨⟨"null".toList, by decide, by decide⟩, []⟩, none, 0⟩
  let last : Reference := ⟨⟨⟨"T".toList, by decide, by decide⟩, []⟩, none, 0⟩
  have hne : [(⟨element, [(.union, absent)]⟩ : Joined Reference), ⟨last, []⟩] ≠ [] :=
    List.cons_ne_nil _ _
  exact (eraseTypes_chain hoperand hne (by decide)).1

/-- A union is not taken away whole: in `const x = y as string | null;` the `| null` stays. -/
theorem not_forall_chains_erased : ¬∀ (v : Text) (e : Char) (ts : List (Joined Reference)),
    IsOperand v e → ts ≠ [] → eraseTypes (assignment (v ++ [e]) (chain ts)) =
      assignment (v ++ [e]) [] := by
  intro h
  have hoperand : IsOperand [] 'y' := isOperand_expression
    (x := .name ⟨"y".toList, by decide, by decide⟩) rfl rfl (by decide)
  have herased := h [] 'y' [⟨⟨⟨⟨"string".toList, by decide, by decide⟩, []⟩, none, 0⟩,
    [(.union, ⟨⟨⟨"null".toList, by decide, by decide⟩, []⟩, none, 0⟩)]⟩] hoperand (by simp)
  rw [chain_eq, eraseTypes_linked hoperand (by decide)] at herased
  exact absurd herased (by decide)

end Typed

end PluginPack
