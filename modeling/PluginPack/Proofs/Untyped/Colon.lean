import PluginPack.Proofs.Untyped.Parenthesis

/-!
# Colons that are misread

A parenthesis of a script without types is read as a parameter list when an arrow stands behind it,
or a brace behind it and a word in front that may take parameters. It is read as one by mistake when
a colon behind it is taken for the beginning of a return type. Inside what is read as a parameter
list no other parenthesis is looked at.
-/

namespace PluginPack

open TypeSyntax

namespace Untyped

variable {b : Bracket} {c o t : Token} {d : Nat} {is : List Item} {prev : Option Token}
  {ts us : List Token}

/-! ## What stands behind a bracket -/

/-- The tokens behind the bracket that closes the innermost of those that are open. -/
def behindClosing : Nat → List Token → List Token
  | _, [] => []
  | d, t :: ts =>
    match t.kind with
    | .opening _ => behindClosing (d + 1) ts
    | .closing _ => if d = 0 then ts else behindClosing (d - 1) ts
    | _ => behindClosing d ts

theorem behindClosing_cons (ht : t.kind.isBracket = false) (d : Nat) (ts : List Token) :
    behindClosing d (t :: ts) = behindClosing d ts := by
  rw [behindClosing]
  split
  · rename_i h
    rw [h] at ht
    cases ht
  · rename_i h
    rw [h] at ht
    cases ht
  · rfl

theorem isBracket_of_isProper {fits : Text → Bool} {k : Kind} (ht : t.kind = k)
    (h : (Item.token k fits).isProper = true) : t.kind.isBracket = false := by
  rw [ht]
  simpa [Item.isProper] using h

/-- What is derived closes all brackets that it opens. -/
theorem behindClosing_append (h : Derives is us) (hproper : ∀ i ∈ is, i.isProper = true) (d : Nat)
    (ts : List Token) : behindClosing d (us ++ ts) = behindClosing d ts := by
  induction h generalizing d ts with
  | nil => rfl
  | token hk _ h ih =>
    obtain ⟨hi, hproper⟩ := List.forall_mem_cons.mp hproper
    rw [List.cons_append, behindClosing_cons (isBracket_of_isProper hk hi), ih hproper]
  | symbol hmem hsymbol h ihsymbol ih =>
    obtain ⟨-, hproper⟩ := List.forall_mem_cons.mp hproper
    rw [List.append_assoc, ihsymbol (isProper_of_mem_productions hmem), ih hproper]
  | @group b s o c _ us vs ho hc hsymbol h ihsymbol ih =>
    obtain ⟨-, hproper⟩ := List.forall_mem_cons.mp hproper
    rw [List.cons_append, List.append_assoc, List.cons_append, behindClosing, ho]
    dsimp only
    rw [ihsymbol (by simp [Item.isProper]), behindClosing, hc]
    dsimp only
    rw [if_neg (Nat.succ_ne_zero d), Nat.add_sub_cancel, ih hproper]

theorem behindClosing_group {s : Symbol} (h : Derives [.symbol s] us) (hc : c.kind = .closing b)
    (ts : List Token) : behindClosing 0 (us ++ c :: ts) = ts := by
  rw [behindClosing_append h (by simp [Item.isProper]), behindClosing, hc]
  rfl

/-! ## Parentheses that are read as parameters -/

/-- A parenthesis is a parameter list by what stands in front of it and behind it. -/
def IsRead (prev : Option Token) (behind : List Token) : Prop :=
  ∃ u ∈ behind.head?, u.kind = .arrow ∨ u.kind = .opening .brace ∧ TakesParameters prev

instance (prev : Option Token) (behind : List Token) : Decidable (IsRead prev behind) :=
  inferInstanceAs (Decidable (∃ u ∈ behind.head?, _))

/-- A colon behind a parenthesis is misread when what stands behind it reads on like a type up to an
arrow, or up to a brace and there is a word in front of the parenthesis that may take parameters. A
brace right behind the colon is no such brace. -/
def Misread (prev : Option Token) (behind : List Token) : Prop :=
  (∀ u ∈ behind.head?, u.kind ≠ .opening .brace) ∧
    (readsOn 0 behind = some .arrow ∨ readsOn 0 behind = some .body ∧ TakesParameters prev)

instance (prev : Option Token) (behind : List Token) : Decidable (Misread prev behind) :=
  inferInstanceAs (Decidable (_ ∧ _))

/-- The colons right behind a closing parenthesis. For each there is the token in front of the
opening parenthesis, and what stands behind the colon. The tokens in front of all brackets that are
open are given. Inside a parameter list only the number of open brackets is counted, up to the end
of the list. -/
def colonsFrom : Nat → List (Option Token) → Option Token → List Token →
    List (Option Token × List Token)
  | _, _, _, [] => []
  | 0, opened, prev, t :: ts =>
    match t.kind with
    | .opening b =>
      if b.opening = '(' ∧ IsRead prev (behindClosing 0 ts) then colonsFrom 1 opened (some t) ts
      else colonsFrom 0 (prev :: opened) (some t) ts
    | .closing b =>
      (match ts with
        | u :: us => if b.opening = '(' ∧ u.kind = .colon then [(opened.head?.join, us)] else []
        | [] => []) ++ colonsFrom 0 opened.tail (some t) ts
    | _ => colonsFrom 0 opened (some t) ts
  | d + 1, opened, _, t :: ts =>
    match t.kind with
    | .opening _ => colonsFrom (d + 2) opened (some t) ts
    | .closing _ => colonsFrom d opened (some t) ts
    | _ => colonsFrom (d + 1) opened (some t) ts

/-- No colon in the tokens is misread. -/
def NoneMisread (opened : List (Option Token)) (prev : Option Token) (ts : List Token) : Prop :=
  ∀ x ∈ colonsFrom 0 opened prev ts, ¬Misread x.1 x.2

instance (opened : List (Option Token)) (prev : Option Token) (ts : List Token) :
    Decidable (NoneMisread opened prev ts) :=
  inferInstanceAs (Decidable (∀ x ∈ colonsFrom 0 opened prev ts, _))

variable {opened : List (Option Token)}

theorem colonsFrom_cons (ht : t.kind.isBracket = false) (d : Nat) (opened : List (Option Token))
    (prev : Option Token) (ts : List Token) :
    colonsFrom d opened prev (t :: ts) = colonsFrom d opened (some t) ts := by
  cases d with
  | zero =>
    rw [colonsFrom]
    split
    · rename_i h
      rw [h] at ht
      cases ht
    · rename_i h
      rw [h] at ht
      cases ht
    · rfl
  | succ d =>
    rw [colonsFrom]
    split
    · rename_i h
      rw [h] at ht
      cases ht
    · rename_i h
      rw [h] at ht
      cases ht
    · rfl

theorem colonsFrom_opening (ho : o.kind = .opening b) (opened : List (Option Token))
    (hread : ¬(b.opening = '(' ∧ IsRead prev (behindClosing 0 ts))) :
    colonsFrom 0 opened prev (o :: ts) = colonsFrom 0 (prev :: opened) (some o) ts := by
  rw [colonsFrom, ho]
  dsimp only
  rw [if_neg hread]

theorem colonsFrom_closing (hc : c.kind = .closing b) (opened : List (Option Token))
    (prev : Option Token) (ts : List Token) :
    colonsFrom 0 opened prev (c :: ts) =
      (match ts with
        | u :: us => if b.opening = '(' ∧ u.kind = .colon then [(opened.head?.join, us)] else []
        | [] => []) ++ colonsFrom 0 opened.tail (some c) ts := by
  rw [colonsFrom, hc]

/-! ## Colons of what is derived -/

theorem getLast?_cons_or (t : Token) (ts : List Token) (prev : Option Token) :
    (t :: ts).getLast?.or prev = ts.getLast?.or (some t) := by
  rw [List.getLast?_cons]
  cases ts.getLast? <;> rfl

theorem getLast?_append_or (us ts : List Token) (prev : Option Token) :
    (us ++ ts).getLast?.or prev = ts.getLast?.or (us.getLast?.or prev) := by
  rw [List.getLast?_append, Option.or_assoc]

/-- In a parameter list no colons are looked for. -/
theorem colonsFrom_skip (h : Derives is us) (hproper : ∀ i ∈ is, i.isProper = true) (d : Nat)
    (opened : List (Option Token)) (prev : Option Token) (ts : List Token) :
    colonsFrom (d + 1) opened prev (us ++ ts) =
      colonsFrom (d + 1) opened (us.getLast?.or prev) ts := by
  induction h generalizing d prev ts with
  | nil => rfl
  | token hk _ h ih =>
    obtain ⟨hi, hproper⟩ := List.forall_mem_cons.mp hproper
    rw [List.cons_append, colonsFrom_cons (isBracket_of_isProper hk hi), ih hproper,
      getLast?_cons_or]
  | symbol hmem hsymbol h ihsymbol ih =>
    obtain ⟨-, hproper⟩ := List.forall_mem_cons.mp hproper
    rw [List.append_assoc, ihsymbol (isProper_of_mem_productions hmem), ih hproper,
      getLast?_append_or]
  | @group b s o c _ us vs ho hc hsymbol h ihsymbol ih =>
    obtain ⟨-, hproper⟩ := List.forall_mem_cons.mp hproper
    rw [List.cons_append, List.append_assoc, List.cons_append, colonsFrom, ho]
    dsimp only
    rw [ihsymbol (by simp [Item.isProper]), colonsFrom, hc]
    dsimp only
    rw [ih hproper, getLast?_cons_or, getLast?_append_or, getLast?_cons_or]

/-- A parameter list adds no colons. -/
theorem colonsFrom_group {s : Symbol} (ho : o.kind = .opening b) (hc : c.kind = .closing b)
    (h : Derives [.symbol s] us) (hround : b.opening = '(') (hread : IsRead prev ts)
    (opened : List (Option Token)) :
    colonsFrom 0 opened prev (o :: (us ++ c :: ts)) = colonsFrom 0 opened (some c) ts := by
  rw [colonsFrom, ho]
  dsimp only
  rw [behindClosing_group h hc, if_pos ⟨hround, hread⟩, colonsFrom_skip h (by simp [Item.isProper]),
    colonsFrom, hc]

/-- What stands behind what is derived has its own colons. -/
theorem colonsFrom_subset (h : Derives is us) (hproper : ∀ i ∈ is, i.isProper = true)
    (opened : List (Option Token)) (prev : Option Token) (ts : List Token) :
    colonsFrom 0 opened (us.getLast?.or prev) ts ⊆ colonsFrom 0 opened prev (us ++ ts) := by
  induction h generalizing opened prev ts with
  | nil => exact List.Subset.refl _
  | token hk _ h ih =>
    obtain ⟨hi, hproper⟩ := List.forall_mem_cons.mp hproper
    rw [List.cons_append, colonsFrom_cons (isBracket_of_isProper hk hi), getLast?_cons_or]
    exact ih hproper opened _ ts
  | symbol hmem hsymbol h ihsymbol ih =>
    obtain ⟨-, hproper⟩ := List.forall_mem_cons.mp hproper
    rw [List.append_assoc, getLast?_append_or]
    exact List.Subset.trans (ih hproper opened _ ts)
      (ihsymbol (isProper_of_mem_productions hmem) opened prev _)
  | @group b s o c _ us vs ho hc hsymbol h ihsymbol ih =>
    obtain ⟨-, hproper⟩ := List.forall_mem_cons.mp hproper
    have hs : ∀ i ∈ [Item.symbol s], i.isProper = true := by simp [Item.isProper]
    have hrest := ih hproper opened (some c) ts
    rw [List.cons_append, List.append_assoc, List.cons_append, getLast?_cons_or,
      getLast?_append_or, getLast?_cons_or]
    by_cases hread : b.opening = '(' ∧ IsRead prev (vs ++ ts)
    · rwa [colonsFrom_group ho hc hsymbol hread.1 hread.2]
    · rw [colonsFrom_opening ho opened (by rwa [behindClosing_group hsymbol hc])]
      refine List.Subset.trans hrest (List.Subset.trans ?_ (ihsymbol hs _ _ _))
      rw [colonsFrom_closing hc]
      exact List.subset_append_right _ _

theorem noneMisread_group {s : Symbol} (ho : o.kind = .opening b) (hc : c.kind = .closing b)
    (h : Derives [.symbol s] us) (hround : b.opening = '(') (hread : IsRead prev ts) :
    NoneMisread opened prev (o :: (us ++ c :: ts)) ↔ NoneMisread opened (some c) ts := by
  rw [NoneMisread, colonsFrom_group ho hc h hround hread, NoneMisread]

theorem noneMisread_opening (ho : o.kind = .opening b)
    (hread : ¬(b.opening = '(' ∧ IsRead prev (behindClosing 0 ts))) :
    NoneMisread opened prev (o :: ts) ↔ NoneMisread (prev :: opened) (some o) ts := by
  rw [NoneMisread, colonsFrom_opening ho opened hread, NoneMisread]

theorem noneMisread_closing (hc : c.kind = .closing b)
    (hcolon : ∀ u us, ts = u :: us → b.opening = '(' → u.kind = .colon →
      ¬Misread opened.head?.join us) :
    NoneMisread opened prev (c :: ts) ↔ NoneMisread opened.tail (some c) ts := by
  rw [NoneMisread, colonsFrom_closing hc, List.forall_mem_append, NoneMisread]
  refine and_iff_right fun x hx ↦ ?_
  cases ts with
  | nil => cases hx
  | cons u us =>
    dsimp only at hx
    split at hx
    · rename_i hu
      rw [List.mem_singleton.mp hx]
      exact hcolon u us rfl hu.1 hu.2
    · cases hx

/-- A colon that is misread is found. -/
theorem not_noneMisread_group {s : Symbol} {u : Token} {vs : List Token} (ho : o.kind = .opening b)
    (hc : c.kind = .closing b) (h : Derives [.symbol s] us) (hround : b.opening = '(')
    (hu : u.kind = .colon) (hmisread : Misread prev vs) :
    ¬NoneMisread opened prev (o :: (us ++ c :: u :: vs)) := by
  have hread : ¬IsRead prev (u :: vs) := by
    rintro ⟨v, hv, hkind⟩
    obtain rfl := Option.mem_some.mp hv
    rw [hu] at hkind
    rcases hkind with hkind | ⟨hkind, -⟩ <;> cases hkind
  rw [noneMisread_opening ho (by rw [behindClosing_group h hc]; exact fun hr ↦ hread hr.2)]
  intro hnone
  refine hnone (prev, vs) (colonsFrom_subset h (by simp [Item.isProper]) _ _ _ ?_) hmisread
  rw [colonsFrom_closing hc]
  refine List.mem_append_left _ ?_
  dsimp only
  rw [if_pos ⟨hround, hu⟩]
  exact List.mem_singleton_self _

end Untyped

end PluginPack
