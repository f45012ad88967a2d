import PluginPack.Proofs.Text.Clearance
import PluginPack.Proofs.TypeSyntax.Barrier

/-!
# Where the scan for signatures arrives

The scan goes from character to character, and over literals, comments and signatures at once. It
arrives at a place when nothing that it goes over reaches beyond the place. A signature does not end
in a newline, so what has been written when the scan arrives at the beginning of a line ends a line.
-/

namespace PluginPack

open Text Script

namespace TypeSyntax

variable {a before kept r t : Text} {c : Char} {d : Option Char} {n : Nat} {s : Signature}

/-! ## The end of a signature -/

theorem prefix_cons_of_map {type : Text} {f : Follow} {o : Option (Text × Follow)}
    (h : o.map (fun p ↦ (c :: p.1, p.2)) = some (type, f)) (ho : ∀ p ∈ o, p.1 <+: t) :
    type <+: c :: t := by
  obtain ⟨p, hp, he⟩ := Option.map_eq_some_iff.mp h
  cases he
  exact List.cons_prefix_cons.mpr ⟨rfl, ho p hp⟩

/-- A return type is read from the front of a text. -/
theorem returnType?_isPrefix {depth : Nat} {type : Text} {f : Follow}
    (h : returnType? depth t = some (type, f)) : type <+: t := by
  fun_induction returnType? depth t generalizing type f with
  | case1 | case7 | case9 => cases h
  | case2 | case5 =>
    cases h
    exact List.nil_prefix
  | case3 depth c s hc hd ih =>
    obtain ⟨p, hp, he⟩ := Option.map_eq_some_iff.mp h
    cases he
    obtain ⟨s, rfl⟩ := List.head?_eq_some_iff.mp hc.2
    exact List.cons_prefix_cons.mpr ⟨rfl, List.cons_prefix_cons.mpr ⟨rfl, ih hp⟩⟩
  | case4 depth c s harrow hc ih =>
    obtain ⟨p, hp, he⟩ := Option.map_eq_some_iff.mp h
    cases he
    conv_rhs => rw [← splitQuoted_append c s]
    exact List.cons_prefix_cons.mpr ⟨rfl, (List.prefix_append_right_inj _).mpr (ih hp)⟩
  | case6 depth c s _ _ _ _ ih | case8 depth c s _ _ _ _ _ _ ih
  | case10 depth c s _ _ _ _ _ _ ih => exact prefix_cons_of_map h fun p hp ↦ ih hp

theorem trimEnd_isPrefix (t : Text) : trimEnd t <+: t := by
  rw [trimEnd, ← List.reverse_suffix, List.reverse_reverse]
  exact List.dropWhile_suffix _

theorem isWhite_of_mem_getLast?_trimEnd (h : c ∈ (trimEnd t).getLast?) : isWhite c = false := by
  rw [trimEnd, List.getLast?_reverse] at h
  exact stops_dropWhile isWhite t.reverse c h

/-- A type annotation without the white space behind it does not end in a newline. -/
theorem exists_concat_annotated (gap type : Text) :
    ∃ l e, gap ++ ':' :: trimEnd type = l ++ [e] ∧ e ≠ '\n' := by
  rcases List.eq_nil_or_concat (trimEnd type) with hnil | ⟨w, e, hconcat⟩
  · exact ⟨gap, ':', by rw [hnil], by decide⟩
  · refine ⟨gap ++ ':' :: w, e, by simp [hconcat], ?_⟩
    have he : isWhite e = false := by
      refine isWhite_of_mem_getLast?_trimEnd (t := type) ?_
      rw [hconcat]
      simp
    rintro rfl
    cases he

/-- **A signature does not end in a newline.** -/
theorem getLast?_consumed_signature (h : signature? before r = some s) :
    ∃ l e, '(' :: r = l ++ e :: s.rest ∧ e ≠ '\n' := by
  obtain ⟨params, behind, x, hclose, htail, rfl, -⟩ := exists_of_signature? h
  have hr := closeParen?_append hclose
  dsimp only at hr ⊢
  rcases tail?_width htail with ⟨u, hcolon⟩ | ⟨-, hwidth⟩
  · rw [tail?, hcolon] at htail
    obtain ⟨⟨type, f⟩, htype, htail⟩ := Option.bind_eq_some_iff.mp htail
    dsimp only at htail
    split at htail
    · cases htail
    · cases htail
      obtain ⟨v, hv⟩ := (trimEnd_isPrefix type).trans (returnType?_isPrefix htype)
      have hbehind : behind = behind.takeWhile isWhite ++ ':' :: trimEnd type ++ v := by
        rw [List.append_assoc, List.cons_append, hv, ← hcolon]
        exact List.takeWhile_append_dropWhile.symm
      generalize behind.takeWhile isWhite = gap at hbehind
      obtain ⟨l, e, hlast, he⟩ := exists_concat_annotated gap type
      have hdrop : behind.drop (gap.length + 1 + (trimEnd type).length) = v := by
        rw [hbehind, List.drop_left']
        simp only [List.length_append, List.length_cons]
        omega
      refine ⟨'(' :: (params ++ ')' :: l), e, ?_, he⟩
      rw [hdrop, ← hr, hbehind, hlast]
      simp
  · refine ⟨'(' :: params, ')', ?_, by decide⟩
    rw [hwidth, List.drop_zero, ← hr]
    rfl

/-! ## Arriving -/

/-- Whether the scan for signatures comes to the place where `n` characters are left. It does not
when something that it goes over at once reaches beyond the place. -/
def scansTo (n : Nat) (before kept t : Text) : Bool :=
  if t.length ≤ n then t.length == n
  else
    match t with
    | [] => false
    | c :: r =>
      match h : inert? (c :: r) with
      | some (lit, rest) =>
        have := inert?_length_lt h
        scansTo n (lit.reverse ++ before) (lit.reverse ++ kept) rest
      | none =>
        if c = '(' then
          match hs : signature? before r with
          | some s =>
            if s.lead ≤ kept.length then
              have := (signature?_rest_suffix hs).length_le
              scansTo n ((Marker.consumed (c :: r) s.rest).reverse ++ before) [] s.rest
            else scansTo n (c :: before) (c :: kept) r
          | none => scansTo n (c :: before) (c :: kept) r
        else scansTo n (c :: before) (c :: kept) r
termination_by t.length
decreasing_by all_goals (simp only [List.length_cons] at *; omega)

/-- A line begins behind what has been written if one begins behind what has been read. The
character `d` stands in front of what is still to be written. -/
def EndsAlike (before kept : Text) (d : Option Char) : Prop :=
  Marker.beginsLine before.head? = true → Marker.beginsLine (kept.head?.or d) = true

theorem endsAlike_append {l : Text} (hl : l ≠ []) (before kept : Text) (d : Option Char) :
    EndsAlike (l ++ before) (l ++ kept) d := by
  obtain ⟨c, l, rfl⟩ := List.exists_cons_of_ne_nil hl
  exact id

theorem le_length_of_scansTo (h : scansTo n before kept t = true) : n ≤ t.length := by
  rw [scansTo.eq_def] at h
  split at h
  · exact (beq_iff_eq.mp h).ge
  · rename_i hnot
    omega

/-- What the scan has written when it arrives at `r`, and that a line begins behind it if one begins
behind what has been read. -/
def ArrivesAt (r before kept a t : Text) (d : Option Char) : Prop :=
  ∃ out kept', eraseSignaturesFrom before kept t =
      out ++ eraseSignaturesFrom (a.reverse ++ before) kept' r ∧
    (Marker.beginsLine (a.getLast?.or before.head?) = true →
      Marker.beginsLine ((out ++ kept'.reverse).getLast?.or d) = true)

theorem ArrivesAt.cons {a' u : Text} (h : ArrivesAt r (c :: before) (c :: kept) a' u d)
    (hstep : eraseSignaturesFrom before kept (c :: u) =
      eraseSignaturesFrom (c :: before) (c :: kept) u) :
    ArrivesAt r before kept (c :: a') (c :: u) d := by
  obtain ⟨out, kept', hout, hlast⟩ := h
  refine ⟨out, kept', ?_, fun hbegins ↦ hlast ?_⟩
  · rw [hstep, hout]
    simp
  · rwa [← List.singleton_append, Marker.getLast?_append_or (List.cons_ne_nil c [])] at hbegins

/-- **When the scan arrives at a place** it has written something and holds something back, and a
line begins behind both if one begins at the place. -/
theorem arrivesAt_of_scansTo (h : scansTo r.length before kept (a ++ r) = true)
    (hends : EndsAlike before kept d) : ArrivesAt r before kept a (a ++ r) d := by
  generalize ht : a ++ r = t at h ⊢
  generalize hn : r.length = n at h
  fun_induction scansTo n before kept t generalizing a d with
  | case1 before kept t hle =>
    obtain rfl : a = [] := by
      have hlength := congrArg List.length ht
      rw [List.length_append] at hlength
      exact List.eq_nil_of_length_eq_zero (by omega)
    obtain rfl : r = t := ht
    exact ⟨[], kept, rfl, fun hbegins ↦ by simpa using hends (by simpa using hbegins)⟩
  | case2 before kept hle => cases h
  | case3 before kept c u lit rest hinert _ hle ih =>
    have hlit := inert?_append hinert
    have hne : lit.reverse ≠ [] := by simpa using inert?_ne_nil hinert
    obtain ⟨a', rfl, rfl⟩ := Marker.append_of_length_le (hlit.trans ht.symm)
      (hn ▸ le_length_of_scansTo h)
    obtain ⟨out, kept', hout, hlast⟩ := ih (endsAlike_append hne before kept d) rfl h
    refine ⟨out, kept', ?_, fun hbegins ↦ hlast ?_⟩
    · rw [← hlit, Untyped.eraseSignaturesFrom_inert (hlit ▸ hinert), hout]
      simp
    · rwa [List.head?_append, List.head?_reverse, ← Option.or_assoc, ← List.getLast?_append]
  | case4 before kept u s hs hlead _ hinert hle ih =>
    obtain ⟨l, e, hsplit, he⟩ := getLast?_consumed_signature hs
    rw [List.append_cons] at hsplit
    have hconsumed : Marker.consumed ('(' :: u) s.rest = l ++ [e] := by
      rw [hsplit, Marker.consumed_left]
    rw [hconsumed] at h ih
    obtain ⟨a', rfl, hrest⟩ := Marker.append_of_length_le (hsplit.symm.trans ht.symm)
      (hn ▸ le_length_of_scansTo h)
    have hne : (kept.drop s.lead).reverse ++ s.render ≠ [] := by simp [Signature.render]
    -- What is written of the signature is not held back, and the signature ends no line.
    have hends : EndsAlike ((l ++ [e]).reverse ++ before) []
        ((kept.drop s.lead).reverse ++ s.render).getLast? := by
      intro hbegins
      rw [List.reverse_append] at hbegins
      exact absurd (by simpa [Marker.beginsLine] using hbegins) he
    obtain ⟨out, kept', hout, hlast⟩ := ih hends hrest.symm h
    refine ⟨(kept.drop s.lead).reverse ++ s.render ++ out, kept', ?_, fun hbegins ↦ ?_⟩
    · rw [Untyped.eraseSignaturesFrom_some hs hlead, hconsumed, hout]
      simp
    · rw [List.append_assoc _ out, Marker.getLast?_append_or hne]
      refine hlast ?_
      rwa [List.head?_append, List.head?_reverse, ← Option.or_assoc, ← List.getLast?_append]
  | case5 before kept u s hs hlead hinert hle ih =>
    obtain ⟨a', rfl, rfl⟩ := Marker.append_of_length_le (l := ['(']) ht.symm
      (hn ▸ le_length_of_scansTo h)
    exact (ih (d := d) id rfl h).cons (eraseSignaturesFrom_far hs (Nat.lt_of_not_le hlead))
  | case6 before kept u hs hinert hle ih =>
    obtain ⟨a', rfl, rfl⟩ := Marker.append_of_length_le (l := ['(']) ht.symm
      (hn ▸ le_length_of_scansTo h)
    exact (ih (d := d) id rfl h).cons (Untyped.eraseSignaturesFrom_none hs)
  | case7 before kept c u hinert hparen hle ih =>
    obtain ⟨a', rfl, rfl⟩ := Marker.append_of_length_le (l := [c]) ht.symm
      (hn ▸ le_length_of_scansTo h)
    exact (ih (d := d) id rfl h).cons (Untyped.eraseSignaturesFrom_cons hinert hparen)

end TypeSyntax

end PluginPack
