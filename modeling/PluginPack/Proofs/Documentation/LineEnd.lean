import PluginPack.Proofs.Documentation.Search
import PluginPack.Proofs.Text.LineEnd

/-!
# Documented functions and line ends

Every step of the search for documented functions comes to the same place in a text with carriage
returns before its newlines. The lines of a block do not show how they end, and of the body, which
is cut off before a newline, the carriage return is trimmed with other white space. So the records
differ only in the line ends within the body and the parameters.
-/

namespace PluginPack.Documentation

open Text

variable {t r source : Text} {b : Block} {s : Source}

/-! ## Reading -/

def Block.crlf (b : Block) : Block := ⟨Text.crlf b.inner, Text.crlf b.rest⟩

/-- The carriage return before the closing brace belongs to the body. -/
def Source.crlf (s : Source) : Source :=
  { s with params := Text.crlf s.params, body := Text.crlf s.body ++ ['\r'],
           rest := Text.crlf s.rest }

/-- The record with other line ends in the body and in the parameters. -/
def Function.crlf (f : Function) : Function :=
  { f with body := Text.crlf f.body, params := Text.crlf f.params }

theorem nextBlock?_crlf (t : Text) : nextBlock? (crlf t) = (nextBlock? t).map Block.crlf := by
  rw [nextBlock?, cutAt?_crlf (by decide) (by decide) (by decide), nextBlock?]
  refine bind_map_of_forall fun p _ ↦ ?_
  rw [Prod.map_snd, cutAt?_crlf (by decide) (by decide) (by decide), Option.map_map, Option.map_map]
  rfl

theorem openBody?_crlf (t : Text) : openBody? (crlf t) = (openBody? t).map crlf := by
  rw [openBody?, trimStart_crlf, openBody?]
  cases trimStart t with
  | nil => rfl
  | cons c r =>
    by_cases hbrace : c = '{'
    · subst hbrace
      rfl
    · by_cases hcolon : c = ':'
      · subst hcolon
        rw [crlf_cons (by decide)]
        simp only [dropWhile_crlf (p := (· != '{')) rfl]
        cases hd : r.dropWhile (· != '{') with
        | nil => rfl
        | cons d u =>
          obtain rfl : d = '{' := by
            have hstop := stops_dropWhile (· != '{') r
            rw [hd, stops_cons] at hstop
            simpa using hstop
          have hhead : (crlf r).head? = some '{' ↔ r.head? = some '{' := by
            cases r with
            | nil => rfl
            | cons e r =>
              by_cases he : e = '\n'
              · subst he
                simp
              · rw [crlf_cons he, List.head?_cons, List.head?_cons]
          rw [crlf_cons (by decide)]
          simp only [hhead]
          split_ifs <;> rfl
      · by_cases hc : c = '\n'
        · subst hc
          rfl
        · rw [crlf_cons hc]
          simp [hbrace, hcolon]

theorem named?_crlf (isAsync : Bool) (t : Text) :
    named? isAsync (crlf t) = (named? isAsync t).map Source.crlf := by
  have hname : (crlf t).takeWhile isNameChar = t.takeWhile isNameChar := by
    rw [takeWhile_crlf rfl, crlf_eq_self]
    intro hmem
    have hline := List.all_eq_true.mp List.all_takeWhile _ hmem
    exact absurd hline (by decide)
  simp only [named?, hname]
  split_ifs
  · rw [dropWhile_crlf rfl, trimStart_crlf, word?_crlf (by decide) (by decide)]
    refine bind_map_of_forall fun r _ ↦ ?_
    rw [dropWhile_crlf rfl, takeWhile_crlf rfl]
    cases hd : r.dropWhile (· != ')') with
    | nil => rfl
    | cons c u =>
      obtain rfl : c = ')' := by
        have hstop := stops_dropWhile (· != ')') r
        rw [hd, stops_cons] at hstop
        simpa using hstop
      rw [crlf_cons (by decide)]
      simp only [openBody?_crlf]
      refine bind_map_of_forall fun opened _ ↦ ?_
      have hcut := cutAt?_newline_crlf (w := ['\x7d']) (by decide) (by decide) opened
      change (cutAt? ['\n', '\x7d'] (crlf opened)).map _ =
        ((cutAt? ['\n', '\x7d'] opened).map _).map _
      rw [hcut, Option.map_map, Option.map_map]
      rfl
  · rfl

theorem exported?_crlf (t : Text) : exported? (crlf t) = (exported? t).map Source.crlf := by
  rw [exported?, keyword?_crlf (by decide) (by decide), exported?]
  refine bind_map_of_forall fun r _ ↦ ?_
  rw [keyword?_crlf (by decide) (by decide)]
  cases keyword? "async".toList r with
  | some r' =>
    simp only [Option.map_some, keyword?_crlf (k := "function".toList) (by decide) (by decide)]
    exact bind_map_of_forall fun u _ ↦ named?_crlf true u
  | none =>
    simp only [Option.map_none, keyword?_crlf (k := "function".toList) (by decide) (by decide)]
    exact bind_map_of_forall fun u _ ↦ named?_crlf false u

/-! ## Records -/

theorem record_crlf (s : Source) {inner : Text} (h : '\r' ∉ inner) (line : Nat) :
    s.crlf.record (crlf inner) line = (s.record inner line).crlf := by
  have hbody : trim (crlf s.body ++ ['\r']) = crlf (trim s.body) := by
    rw [← trimStart_trimEnd, trimEnd_append (by decide), trimStart_trimEnd, trim_crlf]
  simp only [Source.record, Source.crlf, Function.crlf, readBlock, lines_crlf h, hbody, trim_crlf]

theorem functionsFrom_crlf (h : '\r' ∉ t) (line : Nat) :
    functionsFrom line (crlf t) = (functionsFrom line t).map Function.crlf := by
  induction hn : t.length using Nat.strongRecOn generalizing t line with
  | ind n ih =>
    subst hn
    have hblock := nextBlock?_crlf t
    cases hb : nextBlock? t with
    | none =>
      rw [hb] at hblock
      rw [functionsFrom_eq_nil line hblock, functionsFrom_eq_nil line hb, List.map_nil]
    | some b =>
      rw [hb] at hblock
      obtain ⟨before, -, -, htext⟩ := nextBlock?_eq_some_iff.mp hb
      have hrest : b.rest <:+ t := ⟨before ++ blockText b.inner, by rw [htext, List.append_assoc]⟩
      have hinner : '\r' ∉ b.inner := fun hmem ↦ h <| by
        rw [htext, blockText]
        simp [hmem]
      have hreturn : '\r' ∉ b.rest := fun hmem ↦ h (hrest.subset hmem)
      have htrim : trimStart b.rest <:+ b.rest := List.dropWhile_suffix _
      have hfunction : exported? (trimStart b.crlf.rest) =
          (exported? (trimStart b.rest)).map Source.crlf := by
        rw [Block.crlf, trimStart_crlf, exported?_crlf]
      cases hs : exported? (trimStart b.rest) with
      | none =>
        rw [hs] at hfunction
        rw [functionsFrom_eq_skip line hblock hfunction, functionsFrom_eq_skip line hb hs,
          Block.crlf, consumed_crlf hrest, count_newline_crlf]
        exact ih _ (nextBlock?_length hb) hreturn _ rfl
      | some s =>
        rw [hs] at hfunction
        obtain ⟨c, -, hcode, -⟩ := Code.exported?_eq_some_iff.mp hs
        have hsuffix : s.rest <:+ trimStart b.rest := ⟨c.text, hcode.symm⟩
        have hlength : s.rest.length < t.length :=
          (hsuffix.trans htrim).length_le.trans_lt (nextBlock?_length hb)
        rw [functionsFrom_eq_cons line hblock hfunction, functionsFrom_eq_cons line hb hs,
          Block.crlf, trimStart_crlf, consumed_crlf (htrim.trans hrest), count_newline_crlf,
          record_crlf s hinner, List.map_cons]
        have hrest' : s.crlf.rest = crlf s.rest := rfl
        rw [hrest', consumed_crlf hsuffix, count_newline_crlf]
        exact congrArg _ (ih _ hlength
          (fun hmem ↦ hreturn ((hsuffix.trans htrim).subset hmem)) _ rfl)

/-- **Line ends do not change what is extracted.** From a source with a carriage return before every
newline the same records are read, but for the line ends within bodies and parameters. -/
theorem extract_crlf (h : '\r' ∉ source) :
    extract (crlf source) = (extract source).map Function.crlf := by
  rw [extract, functionsFrom_crlf h]
  exact distinctFrom_map (f := Function.crlf) (fun _ ↦ rfl) [] (functionsFrom 0 source)

/-- A function whose parameters and body stand on several lines, behind a block that documents
nothing and in front of one that is never closed. -/
def spread : Text :=
  ("/** None. */\n/**\n * Adds.\n * @returns \x7bnumber\x7d n\n */\nexport async function add(\n" ++
    "  a,\n  b\n) \x7b\n  log();\n\n  return a + b;\n\n\x7d\n/** Open.\n").toList

theorem extract_crlf_spread : '\r' ∉ spread ∧ extract (crlf spread) =
    [⟨"add".toList, "Adds.".toList, [], [⟨"number".toList, 0, "n".toList⟩], [],
      "log();\r\n\r\n  return a + b;".toList, "a,\r\n  b".toList, true, 6⟩] := by
  have hspread : spread = _ := String.toList_append.trans
    (congrArg₂ _ String.toList_ofList String.toList_ofList)
  have hreturn : '\r' ∉ spread := by
    rw [hspread]
    decide
  refine ⟨hreturn, ?_⟩
  rw [extract_crlf hreturn, hspread]
  decide +kernel

end PluginPack.Documentation
