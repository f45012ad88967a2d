import PluginPack.Proofs.Documentation.Preceding
import PluginPack.Proofs.Text.Span
import PluginPack.Script.Literal

/-!
# Blocks and comments

A comment for documentation is a block when the search comes to it from outside. So the search comes
through a script in which `/**` stands in such comments only, and neither in literals nor in other
comments. That no literal and no comment is left open does not suffice, as one closed literal shows.
-/

namespace PluginPack.Documentation

open Text

variable {pre t : Text}

/-! ## Comments for documentation -/

/-- A comment `/** ... */`, from end to end. The comment of four characters is not one of them. -/
def IsDocComment (l : Text) : Prop := "/**".toList <+: l ∧ "*/".toList <:+ l ∧ 5 ≤ l.length

instance (l : Text) : Decidable (IsDocComment l) := inferInstanceAs (Decidable (_ ∧ _ ∧ _))

/-- The comment ends where it is closed first, so it is a block. -/
theorem exists_blockText_of_isDocComment {l r v : Text} (h : Script.inert? (l ++ r) = some (v, r))
    (hl : IsDocComment l) : ∃ inner, ¬"*/".toList <:+: inner ∧ l = blockText inner := by
  obtain ⟨⟨m, rfl⟩, hclosed, hlength⟩ := hl
  have hv : v = "/**".toList ++ m := List.append_cancel_right (Script.inert?_append h)
  have hsplit : Script.splitBlockComment ('*' :: (m ++ r)) = ('*' :: m, r) := by
    have hread : Script.inert? ("/**".toList ++ m ++ r) =
        some ('/' :: '*' :: (Script.splitBlockComment ('*' :: (m ++ r))).1,
          (Script.splitBlockComment ('*' :: (m ++ r))).2) := rfl
    rw [h, hv] at hread
    obtain ⟨hm, hr⟩ := Prod.mk.inj (Option.some.inj hread)
    exact Prod.ext (List.cons.inj (List.cons.inj hm).2).2.symm hr.symm
  unfold Script.splitBlockComment at hsplit
  split at hsplit
  · rename_i body r' hcut
    obtain ⟨hbody, rfl⟩ := Prod.mk.inj hsplit
    have hno := not_isInfix_of_cutAt?_eq_some (by decide) hcut
    cases body with
    | nil =>
      obtain rfl : m = ['/'] := by simpa using hbody.symm
      exact absurd hlength (by decide)
    | cons c inner =>
      obtain ⟨rfl, rfl⟩ := List.cons.inj hbody
      exact ⟨inner, fun h ↦ hno (h.trans (List.suffix_cons '*' inner).isInfix), rfl⟩
  · rename_i hcut
    obtain ⟨-, rfl⟩ := Prod.mk.inj hsplit
    have hend : "*/".toList <:+ m := by
      refine List.suffix_of_suffix_length_le hclosed (List.suffix_append _ m) ?_
      simp at hlength ⊢
      omega
    rw [List.append_nil] at hcut
    exact absurd (hend.trans (List.suffix_cons '*' m)).isInfix (not_isInfix_of_cutAt?_eq_none hcut)

/-! ## Scripts -/

/-- In a script `/**` stands in comments for documentation only, and none of them has the beginning
of an exported function behind it. -/
structure KeepsToComments (pre : Text) : Prop where
  opens : ∀ i < pre.length, "/**".toList <+: pre.drop i →
    ∃ s ∈ Script.inert.spans pre, IsDocComment s.text ∧ s.offset ≤ i ∧ i < s.ends
  unfollowed : ∀ s ∈ Script.inert.spans pre, IsDocComment s.text →
    ¬FunctionFollows (pre.drop s.ends)

/-- When the search is outside of the comments and the first `/**` lies in one of them, the comment
is the next block. -/
theorem nextBlock?_of_mem_spans {s : Span Text} (hs : s ∈ Script.inert.spans pre)
    (hdoc : IsDocComment s.text) {a before : Text} (hpre : pre = a ++ t)
    (hbefore : ¬"/**".toList <:+: before) (ht : before <+: t) (hle : a.length ≤ s.offset)
    (hle' : s.offset ≤ a.length + before.length) :
    ∃ inner front, front.length = s.ends ∧ pre = front ++ pre.drop s.ends ∧
      nextBlock? t = some ⟨inner, pre.drop s.ends⟩ := by
  obtain ⟨p, r, hsplit, hoffset, hfind⟩ := Marker.exists_find?_of_mem_spans hs
  obtain ⟨inner, hinner, htext⟩ := exists_blockText_of_isDocComment hfind hdoc
  obtain ⟨q, rfl⟩ : a <+: p :=
    List.prefix_of_prefix_length_le ⟨_, hpre.symm⟩ ⟨_, hsplit.symm⟩ (hoffset ▸ hle)
  have hq : t = q ++ (s.text ++ r) := by
    rw [hpre, List.append_assoc] at hsplit
    exact List.append_cancel_left hsplit
  have hqbefore : q <+: before := by
    refine List.prefix_of_prefix_length_le ⟨_, hq.symm⟩ ht ?_
    rw [hoffset, List.length_append] at hle'
    exact Nat.add_le_add_iff_left.mp hle'
  have hends : (a ++ q ++ s.text).length = s.ends := by
    rw [Span.ends, hoffset, List.length_append]
  have hrest : pre.drop s.ends = r := by
    rw [hsplit, ← hends, ← List.append_assoc, List.drop_left]
  refine ⟨inner, a ++ q ++ s.text, hends, ?_, ?_⟩
  · rw [hrest, hsplit, List.append_assoc (a ++ q)]
  · rw [hrest, hq, htext]
    exact nextBlock?_append (fun hin ↦ hbefore (hin.trans hqbefore.isInfix)) hinner r

/-- The search comes from one comment to the next. -/
theorem KeepsToComments.isPassed_of_append (h : KeepsToComments pre) {a : Text}
    (hpre : pre = a ++ t)
    (hout : ∀ s ∈ Script.inert.spans pre, s.ends ≤ a.length ∨ a.length ≤ s.offset) :
    IsPassed t := by
  induction hn : t.length using Nat.strongRecOn generalizing a t with
  | ind n ih =>
    subst hn
    by_cases ht : "/**".toList <:+: t
    · obtain ⟨⟨before, u⟩, hcut⟩ := Option.ne_none_iff_exists'.mp fun hnone ↦
        not_isInfix_of_cutAt?_eq_none hnone ht
      obtain ⟨hopen, hbefore⟩ :=
        (cutAt?_eq_some_iff (c := '/') (w := "**".toList) (by decide)).mp hcut
      have hprefix : before <+: t := ⟨_, hopen.symm⟩
      have hdrop : pre.drop (a.length + before.length) = "/**".toList ++ u := by
        rw [← List.length_append, hpre, hopen, ← List.append_assoc, List.drop_left]
        rfl
      have hlength : a.length + before.length < pre.length := by
        rw [hpre, hopen]
        simp
      obtain ⟨s, hs, hdoc, hle, hlt⟩ := h.opens _ hlength ⟨u, hdrop.symm⟩
      have ha : a.length ≤ s.offset := (hout s hs).resolve_left fun hends ↦ by omega
      obtain ⟨inner, front, hfront, hsplit, hb⟩ :=
        nextBlock?_of_mem_spans hs hdoc hpre hbefore hprefix ha hle
      refine .block hb (h.unfollowed s hs hdoc) (ih _ (nextBlock?_length hb) hsplit ?_ rfl)
      exact hfront ▸ (Lies.spans _ pre).ends_le_or_le_offset s hs
    · exact .outside ht

theorem KeepsToComments.isPassed (h : KeepsToComments pre) : IsPassed pre :=
  h.isPassed_of_append (a := []) rfl fun _ _ ↦ .inr (Nat.zero_le _)

/-- **What precedes a source.** Let a text end in a newline. It moves the functions of every source
behind it down, and does nothing else, exactly when the search comes through it. That is the case
whenever `/**` stands in comments for documentation only, and none of them has the beginning of an
exported function behind it. -/
theorem extract_preceded {pre : Text} (hpre : pre.getLast? = some '\n') :
    ((∀ src, BeginsWithBlock src →
        extract (pre ++ src) = (extract src).map (·.shift (pre.count '\n'))) ↔ IsPassed pre) ∧
      (KeepsToComments pre → ∀ src, BeginsWithBlock src →
        extract (pre ++ src) = (extract src).map (·.shift (pre.count '\n'))) := by
  have hiff : MovesDown pre ↔ IsPassed pre := by
    refine movesDown_iff_isPassed fun c hc ↦ ?_
    rw [hpre] at hc
    exact (Option.some.inj hc).symm
  exact ⟨hiff, fun h ↦ hiff.mpr h.isPassed⟩

/-- A script with a comment for documentation in front of a function that is not exported, another
comment, and a literal with a comment in it. -/
def helper : Text :=
  ("/** Not exported. */\nfunction helper() \x7b\n\x7d\n" ++
    "const s = \"/* none */\"; /* one */\n").toList

theorem keepsToComments_helper : KeepsToComments helper where
  opens := by decide +kernel
  unfollowed s hs hdoc hf := by
    have hexport : ∀ s ∈ Script.inert.spans helper, IsDocComment s.text →
        ¬"export".toList <+: trimStart (helper.drop s.ends) := by decide +kernel
    exact hexport s hs hdoc (isPrefix_of_functionFollows hf)

theorem extract_preceded_helper : IsPassed helper ∧ ∀ src, BeginsWithBlock src →
    extract (helper ++ src) = (extract src).map (·.shift 4) := by
  have hlast : helper.getLast? = some '\n' := by decide
  have hmoved := (extract_preceded hlast).2 keepsToComments_helper
  exact ⟨(extract_preceded hlast).1.mp hmoved, hmoved⟩

/-! ## A literal that opens a block -/

/-- A literal or comment that is closed: it goes up to the end of its line, as some comments do, or
it ends in itself, whatever comes behind it. -/
def IsFinished (l : Text) : Prop :=
  "//".toList <+: l ∨ ∀ r, Script.inert? (l ++ r) = some (l, r)

/-- A script with a pattern for names of files in a literal. -/
def globLine : Text := "const glob = \"src/**\";\n".toList

theorem not_forall_preceded : ¬∀ pre src : Text, pre.getLast? = some '\n' →
    (∀ s ∈ Script.inert.spans pre, IsFinished s.text) →
    (∀ s ∈ Script.inert.spans pre, IsDocComment s.text → ¬FunctionFollows (pre.drop s.ends)) →
    BeginsWithBlock src → extract (pre ++ src) = (extract src).map (·.shift (pre.count '\n')) := by
  intro h
  have hspans : ∀ s ∈ Script.inert.spans globLine, s.text = "\"src/**\"".toList := by
    decide +kernel
  have hopened : globLine ++ ((sample " Doc. ".toList).text ++ ['\n']) =
      "const glob = \"src".toList ++ ((sample "\";\n/** Doc. ".toList).text ++ ['\n']) := by
    decide +kernel
  have heq := h globLine ((sample " Doc. ".toList).text ++ ['\n']) (by decide)
    (fun s hs ↦ hspans s hs ▸ .inr fun r ↦ rfl)
    (fun s hs hs' ↦ absurd (hspans s hs ▸ hs') (by decide))
    (beginsWithBlock_sample (by decide +kernel) _)
  rw [hopened, extract_sample (by decide +kernel) (by decide +kernel) (by decide +kernel),
    extract_sample_first (by decide +kernel) (by decide +kernel), List.map_singleton,
    List.singleton_inj] at heq
  exact absurd (congrArg Function.description heq) (by decide +kernel)

end PluginPack.Documentation
