import PluginPack.Proofs.Untyped.Layout

/-!
# A grammar of scripts without types

Statements and expressions as token rows: names, literals, calls, objects and arrays, conditionals,
assignments, functions and arrows, declarations, loops, branches and `try`. Statements end in
semicolons. The grammar is a table of productions. Brackets are no tokens of a production, a group
is one item of it, so that a derivation shows which bracket closes which.

The tokens of a derivation are neighbours as `follows` allows it. This is read off the table: for
every symbol there are the kinds that may stand in front of it and the kinds that it may end in, and
each production is run through once.
-/

namespace PluginPack

open Text

namespace Untyped

/-! ## Productions -/

inductive Symbol where
  | operand
  /-- Operands with operators between them. -/
  | chain
  | expression
  | arrow
  /-- What stands behind an arrow. -/
  | body
  /-- A function with the word `function`. -/
  | routine
  | arguments
  | argument
  | members
  /-- A member of an object. -/
  | member
  | key
  | parameters
  | parameter
  /-- What a value is bound to: a name or a pattern. -/
  | target
  | fields
  /-- A part of an object pattern. -/
  | field
  | declaration
  | declared
  /-- The first part of a loop with three parts. -/
  | setup
  /-- The second and the third part. -/
  | limit
  /-- What stands in the parentheses of `for`. -/
  | head
  | block
  | statement
  /-- What stands behind the block of `try`. -/
  | guarded
  | clauses
  | statements
deriving DecidableEq, Repr

/-- One item of a production. -/
inductive Item where
  /-- A token of a kind, spelled as it must be. -/
  | token (k : Kind) (fits : Text → Bool)
  | symbol (s : Symbol)
  /-- Brackets around a symbol. -/
  | group (b : Bracket) (s : Symbol)

namespace Item

/-- Any token of a kind. -/
def any (k : Kind) : Item := token k fun _ ↦ true

/-- A token of a kind that is spelled in one of some ways. -/
def one (k : Kind) (ws : List String) : Item := token k fun t ↦ ws.any fun w ↦ w.toList == t

def mark (w : String) : Item := one .mark [w]

def word (w : String) : Item := one .word [w]

def control (w : String) : Item := one .control [w]

end Item

open Item in
/-- The productions of a symbol. -/
def productions : Symbol → List (List Item)
  | .operand =>
    [[any .name], [one .word ["true", "false", "null", "this"]], [any .number], [any .string],
      [group .square .arguments], [group .brace .members], [group .call .expression],
      [symbol .routine],
      [symbol .operand, group .call .arguments],
      [symbol .operand, group .square .expression],
      [symbol .operand, one .mark [".", "?."], any .name],
      [one .mark ["!", "~", "+", "-", "++", "--"], symbol .operand],
      [one .word ["typeof", "void", "delete", "await", "new"], symbol .operand],
      [symbol .operand, one .mark ["++", "--"]]]
  | .chain =>
    [[symbol .operand],
      [symbol .operand,
        one .mark ["+", "-", "*", "**", "%", "&", "|", "^", "&&", "||", "??"], symbol .chain],
      [symbol .operand, one .equals ["==", "===", "!=", "!=="], symbol .chain]]
  | .expression =>
    [[symbol .chain],
      [symbol .chain, mark "?", symbol .expression, any .colon, symbol .expression],
      [symbol .arrow],
      [symbol .operand, one .equals ["=", "+=", "-=", "*=", "%=", "**=", "&=", "|=", "^=", "&&=",
        "||=", "??="], symbol .expression]]
  | .arrow =>
    [[any .binding, any .arrow, symbol .body],
      [group .params .parameters, any .arrow, symbol .body],
      [word "async", symbol .arrow]]
  | .body => [[symbol .expression], [symbol .block]]
  | .routine =>
    [[word "function", any .binding, group .params .parameters, symbol .block],
      [word "function", group .params .parameters, symbol .block],
      [word "async", symbol .routine]]
  | .arguments => [[], [symbol .argument], [symbol .argument, any .comma, symbol .arguments]]
  | .argument => [[symbol .expression], [mark "...", symbol .expression]]
  | .members => [[], [symbol .member], [symbol .member, any .comma, symbol .members]]
  | .member =>
    [[symbol .key, any .colon, symbol .expression], [any .name],
      [mark "...", symbol .expression],
      [symbol .key, group .params .parameters, symbol .block],
      [word "async", symbol .key, group .params .parameters, symbol .block]]
  | .key => [[any .name], [any .number], [any .string], [group .square .expression]]
  | .parameters =>
    [[], [symbol .parameter], [symbol .parameter, any .comma, symbol .parameters],
      [mark "...", symbol .target]]
  | .parameter => [[symbol .target], [symbol .target, one .equals ["="], symbol .expression]]
  | .target => [[any .binding], [group .square .parameters], [group .brace .fields]]
  | .fields =>
    [[], [symbol .field], [symbol .field, any .comma, symbol .fields], [mark "...", any .binding]]
  | .field =>
    [[any .binding], [any .binding, one .equals ["="], symbol .expression],
      [symbol .key, any .colon, symbol .parameter]]
  | .declaration => [[any .declarator, symbol .declared]]
  | .declared => [[symbol .parameter], [symbol .parameter, any .comma, symbol .declared]]
  | .setup => [[], [symbol .declaration], [symbol .expression]]
  | .limit => [[], [symbol .expression]]
  | .head =>
    [[symbol .setup, mark ";", symbol .limit, mark ";", symbol .limit],
      [any .declarator, symbol .target, any .of, symbol .expression],
      [symbol .target, any .of, symbol .expression]]
  | .block => [[group .brace .statements]]
  | .statement =>
    [[symbol .expression, mark ";"], [symbol .declaration, mark ";"], [symbol .routine],
      [symbol .block], [mark ";"],
      [control "if", group .condition .expression, symbol .statement],
      [control "if", group .condition .expression, symbol .statement, word "else",
        symbol .statement],
      [control "while", group .condition .expression, symbol .statement],
      [word "do", symbol .statement, control "while", group .condition .expression, mark ";"],
      [control "for", group .condition .head, symbol .statement],
      [control "switch", group .condition .expression, group .brace .clauses],
      [one .word ["return", "break", "continue"], mark ";"],
      [one .word ["return", "throw"], symbol .expression, mark ";"],
      [word "try", symbol .block, symbol .guarded]]
  | .guarded =>
    [[word "catch", symbol .block], [word "catch", group .params .target, symbol .block],
      [word "finally", symbol .block],
      [word "catch", symbol .block, word "finally", symbol .block],
      [word "catch", group .params .target, symbol .block, word "finally", symbol .block]]
  | .clauses =>
    [[], [word "case", symbol .expression, any .colon, symbol .statements, symbol .clauses],
      [word "default", any .colon, symbol .statements, symbol .clauses]]
  | .statements => [[], [symbol .statement, symbol .statements]]

/-! ## Derivations -/

/-- The tokens that items stand for. -/
inductive Derives : List Item → List Token → Prop
  | nil : Derives [] []
  | token {k : Kind} {fits : Text → Bool} {t : Token} {is : List Item} {ts : List Token} :
      t.kind = k → fits t.text = true → Derives is ts → Derives (.token k fits :: is) (t :: ts)
  | symbol {s : Symbol} {js is : List Item} {us ts : List Token} :
      js ∈ productions s → Derives js us → Derives is ts → Derives (.symbol s :: is) (us ++ ts)
  | group {b : Bracket} {s : Symbol} {o c : Token} {is : List Item} {us ts : List Token} :
      o.kind = .opening b → c.kind = .closing b → Derives [.symbol s] us → Derives is ts →
        Derives (.group b s :: is) (o :: (us ++ c :: ts))

variable {b : Bracket} {s : Symbol} {is js : List Item} {ts us : List Token}

theorem Derives.exists_append (h : Derives (is ++ js) ts) :
    ∃ us vs, ts = us ++ vs ∧ Derives is us ∧ Derives js vs := by
  induction is generalizing ts with
  | nil => exact ⟨[], ts, rfl, .nil, h⟩
  | cons i is ih =>
    rw [List.cons_append] at h
    cases h with
    | token hk hfits h =>
      obtain ⟨us, vs, rfl, hus, hvs⟩ := ih h
      exact ⟨_ :: us, vs, rfl, .token hk hfits hus, hvs⟩
    | symbol hjs hsymbol h =>
      obtain ⟨us, vs, rfl, hus, hvs⟩ := ih h
      exact ⟨_, vs, (List.append_assoc _ us vs).symm, .symbol hjs hsymbol hus, hvs⟩
    | group ho hc hsymbol h =>
      obtain ⟨us, vs, rfl, hus, hvs⟩ := ih h
      refine ⟨_, vs, ?_, .group ho hc hsymbol hus, hvs⟩
      simp

theorem Derives.exists_production (h : Derives [.symbol s] ts) :
    ∃ js ∈ productions s, Derives js ts := by
  cases h with
  | symbol hjs hsymbol h =>
    cases h
    rw [List.append_nil]
    exact ⟨_, hjs, hsymbol⟩

/-- An item as productions have them: a token of its own is no bracket, and what stands in the
parentheses of parameters are parameters, or one target behind `catch`. -/
def Item.isProper : Item → Bool
  | token k _ => !k.isBracket
  | group .params s => s == .parameters || s == .target
  | _ => true

theorem isProper_of_mem_productions (h : is ∈ productions s) : ∀ i ∈ is, i.isProper = true := by
  have hall : ∀ is ∈ productions s, is.all Item.isProper = true := by cases s <;> decide
  exact List.all_eq_true.mp (hall is h)

/-! ## Checking a derivation -/

/-- Reads tokens up to the first symbol. A bracket that opens leaves its closing bracket to be
read. -/
def readTokens : List Item → List Token → Option (List Item × List Token)
  | .token k fits :: is, t :: ts =>
    if t.kind = k ∧ fits t.text = true then readTokens is ts else none
  | .group b s :: is, t :: ts =>
    if t.kind = .opening b then some (.symbol s :: .any (.closing b) :: is, ts) else none
  | [], ts => some ([], ts)
  | .symbol s :: is, ts => some (.symbol s :: is, ts)
  | _, [] => none

/-- Follows a leftmost derivation, given the number of the production for each symbol that it
replaces. -/
def follow : List Nat → List Item → List Token → Bool
  | [], is, ts =>
    match readTokens is ts with
    | some ([], []) => true
    | _ => false
  | n :: ns, is, ts =>
    match readTokens is ts with
    | some (.symbol s :: js, us) =>
      match (productions s)[n]? with
      | some ks => follow ns (ks ++ js) us
      | none => false
    | _ => false

theorem derives_of_readTokens (h : readTokens is ts = some (js, us)) (hus : Derives js us) :
    Derives is ts := by
  fun_induction readTokens is ts with
  | case1 k fits is t ts ht ih => exact .token ht.1 ht.2 (ih h)
  | case2 => cases h
  | case3 b s is t ts ht =>
    obtain ⟨rfl, rfl⟩ := Prod.mk.inj (Option.some.inj h)
    have happ : Derives ([.symbol s] ++ .any (.closing b) :: is) _ := hus
    obtain ⟨vs, ws, rfl, hvs, hws⟩ := happ.exists_append
    cases hws with
    | token hc _ hrest => exact .group ht hc hvs hrest
  | case4 => cases h
  | case5 => cases h; exact hus
  | case6 => cases h; exact hus
  | case7 => cases h

/-- What is followed to its end is a derivation. -/
theorem derives_of_follow {ns : List Nat} (h : follow ns is ts = true) : Derives is ts := by
  induction ns generalizing is ts with
  | nil =>
    rw [follow] at h
    split at h
    · rename_i hread
      exact derives_of_readTokens hread .nil
    · cases h
  | cons n ns ih =>
    rw [follow] at h
    split at h
    · rename_i s js us hread
      split at h
      · rename_i ks hks
        obtain ⟨vs, ws, rfl, hvs, hws⟩ := (ih h).exists_append
        exact derives_of_readTokens hread (.symbol (List.mem_of_getElem? hks) hvs hws)
      · cases h
    · cases h

/-! ## Neighbours in a derivation -/

/-- What an entry of a pattern or a parameter list stands behind. -/
def entryStart : List Kind := [.comma, .opening .params, .opening .square, .opening .brace]

/-- What an argument or a member of an object stands behind. -/
def listStart : List Kind := [.comma, .word, .opening .call, .opening .square, .opening .brace]

/-- What an expression stands behind. -/
def expressionStart : List Kind :=
  [.of, .colon, .equals, .arrow, .mark, .opening .condition, .closing .condition,
    .closing .brace] ++ listStart

/-- What an expression ends in. -/
def expressionEnd : List Kind :=
  [.name, .word, .number, .string, .mark, .closing .square, .closing .brace, .closing .call]

/-- What the statements of a block stand behind. -/
def clauseStart : List Kind := [.colon, .mark, .opening .brace, .closing .brace]

def statementStart : List Kind := .word :: .closing .condition :: clauseStart

/-- The kinds that may stand in front of a symbol. -/
def before : Symbol → List Kind
  | .operand | .chain | .expression | .arrow | .routine => expressionStart
  | .arguments | .argument | .members | .member => listStart
  | .key => .opening .params :: listStart
  | .body => [.arrow]
  | .parameters | .fields | .field => entryStart
  | .parameter | .target =>
    .declarator :: .colon :: .mark :: .opening .condition :: entryStart
  | .declaration => .opening .condition :: statementStart
  | .declared => [.declarator, .comma]
  | .setup | .head => [.opening .condition]
  | .limit => [.mark]
  | .block => .arrow :: .closing .params :: statementStart
  | .statement => statementStart
  | .guarded => [.closing .brace]
  | .clauses | .statements => clauseStart

/-- The kinds that a symbol may end in, and for a symbol that may stand for nothing those in front
of it. -/
def after : Symbol → List Kind
  | .operand | .chain | .expression | .arrow | .body | .argument | .member | .key | .limit
  | .head => expressionEnd
  | .routine | .block | .guarded => [.closing .brace]
  | .arguments | .members => listStart ++ expressionEnd
  | .parameters | .fields => entryStart ++ .binding :: expressionEnd
  | .parameter | .field | .declaration | .declared => .binding :: expressionEnd
  | .target => [.binding, .closing .square, .closing .brace]
  | .setup => .opening .condition :: .binding :: expressionEnd
  | .statement => [.mark, .closing .brace]
  | .clauses | .statements => clauseStart

/-- Runs through items from the kinds that may stand in front of them to those that they may end in,
as long as all neighbours are allowed. -/
def run : List Kind → List Item → Option (List Kind)
  | ks, [] => some ks
  | ks, .token k _ :: is => if ks.all (follows · k) then run [k] is else none
  | ks, .symbol s :: is => if ks.all ((before s).contains ·) then run (after s) is else none
  | ks, .group b s :: is =>
    if ks.all (follows · (.opening b)) && (before s).contains (.opening b) &&
        (after s).all (follows · (.closing b)) then
      run [.closing b] is
    else none

/-- Every production leads from what stands in front of its symbol to what the symbol ends in. -/
theorem exists_run_of_mem_productions {s : Symbol} (h : is ∈ productions s) :
    ∃ ks, run (before s) is = some ks ∧ ∀ k ∈ ks, k ∈ after s := by
  have hall : ∀ is ∈ productions s,
      (run (before s) is).any (·.all ((after s).contains ·)) = true := by
    cases s <;> decide
  obtain ⟨ks, hks, hmem⟩ := (Option.any_eq_true _ _).mp (hall is h)
  refine ⟨ks, hks, fun k hk ↦ ?_⟩
  exact List.contains_iff_mem.mp (List.all_eq_true.mp hmem k hk)

/-- The tokens lead from a token of the first kind to one of the second: each may stand behind the
one before. -/
def Leads : Kind → List Token → Kind → Prop
  | j, [], k => j = k
  | j, t :: ts, k => follows j t.kind = true ∧ Leads t.kind ts k

theorem Leads.append {i j k : Kind} (h : Leads i ts j) (hus : Leads j us k) :
    Leads i (ts ++ us) k := by
  induction ts generalizing i with
  | nil =>
    rw [Leads] at h
    rwa [h]
  | cons t ts ih => exact ⟨h.1, ih h.2⟩

/-- **Neighbours.** What items derive leads on from what stands in front of them as the table
says. -/
theorem Derives.exists_leads {ks js : List Kind} {k : Kind} (h : Derives is ts)
    (hrun : run ks is = some js) (hk : k ∈ ks) : ∃ j ∈ js, Leads k ts j := by
  induction h generalizing ks js k with
  | nil =>
    rw [run, Option.some_inj] at hrun
    exact ⟨k, hrun ▸ hk, rfl⟩
  | @token _ _ t _ _ ht _ h ih =>
    rw [run] at hrun
    split at hrun
    · rename_i hfollows
      obtain ⟨j, hj, hleads⟩ := ih hrun (List.mem_singleton_self _)
      refine ⟨j, hj, ?_, ?_⟩
      · rw [ht]
        exact List.all_eq_true.mp hfollows k hk
      · rwa [ht]
    · cases hrun
  | @symbol s _ _ _ _ hmem hsymbol h ihsymbol ih =>
    rw [run] at hrun
    split at hrun
    · rename_i hbefore
      obtain ⟨is, hrun', hafter⟩ := exists_run_of_mem_productions hmem
      obtain ⟨i, hi, hleads⟩ :=
        ihsymbol hrun' (List.contains_iff_mem.mp (List.all_eq_true.mp hbefore k hk))
      obtain ⟨j, hj, hleads'⟩ := ih hrun (hafter i hi)
      exact ⟨j, hj, hleads.append hleads'⟩
    · cases hrun
  | @group b s o c _ _ _ ho hc hsymbol h ihsymbol ih =>
    rw [run] at hrun
    split at hrun
    · rename_i hgroup
      simp only [Bool.and_eq_true] at hgroup
      obtain ⟨⟨hopening, hbefore⟩, hclosing⟩ := hgroup
      have hinside : run [.opening b] [.symbol s] = some (after s) := by
        rw [run, List.all_cons, List.all_nil, hbefore]
        rfl
      obtain ⟨i, hi, hleads⟩ := ihsymbol hinside (List.mem_singleton_self _)
      obtain ⟨j, hj, hleads'⟩ := ih hrun (List.mem_singleton_self _)
      refine ⟨j, hj, ?_, Leads.append (j := i) ?_ ⟨?_, ?_⟩⟩
      · rw [ho]
        exact List.all_eq_true.mp hopening k hk
      · rwa [ho]
      · rw [hc]
        exact List.all_eq_true.mp hclosing i hi
      · rwa [hc]
    · cases hrun

/-! ## Programs -/

/-- A program without types, in any layout. -/
structure Program where
  tokens : List Token
  /-- The white space behind the last token. -/
  last : Text
  derives : Derives [.symbol .statements] tokens
  spelled : ∀ t ∈ tokens, t.IsSpelled
  apart : tokens.IsChain fun t u ↦ t.kind.isWordlike = true → u.kind.isWordlike = true → u.gap ≠ []
  white : ∀ c ∈ last, isWhite c = true

namespace Program

def text (p : Program) : Text := write p.tokens ++ p.last

end Program

theorem laid_of_leads {j k : Kind} (h : Leads j ts k) (hspelled : ∀ t ∈ ts, t.IsSpelled)
    (hapart : ts.IsChain fun t u ↦
      t.kind.isWordlike = true → u.kind.isWordlike = true → u.gap ≠ []) : Laid ts := by
  induction ts generalizing j with
  | nil => trivial
  | cons t ts ih =>
    obtain ⟨ht, hts⟩ := List.forall_mem_cons.mp hspelled
    refine ⟨ht, ?_, ih h.2 hts hapart.of_cons⟩
    intro u hu
    cases ts with
    | nil => cases hu
    | cons v ts =>
      obtain rfl := Option.mem_some.mp hu
      exact ⟨h.2.1, (List.isChain_cons_cons.mp hapart).1⟩

/-- The tokens of a program are well spelled and stand behind each other as they may. -/
theorem Program.laid (p : Program) : Laid p.tokens := by
  have hrun : run clauseStart [.symbol .statements] = some clauseStart := by decide
  obtain ⟨j, -, hleads⟩ := p.derives.exists_leads (k := .mark) hrun (by decide)
  exact laid_of_leads hleads p.spelled p.apart

end Untyped

end PluginPack
