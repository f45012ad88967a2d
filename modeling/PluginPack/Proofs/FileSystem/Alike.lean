import PluginPack.Proofs.FileSystem.Effect

/-!
# File systems that differ in what files hold

Two file systems may have the same directories and the same files, with related contents. What a
file holds does not decide where a path leads, so an operation that makes directories, writes a file
or removes one ends in the same way in both, and leaves two such file systems behind.
-/

namespace PluginPack

/-- Two results end alike: in the same error, or in related values. -/
inductive EndAlike {ε α β : Type} (R : α → β → Prop) : Except ε α → Except ε β → Prop
  | ok {a : α} {b : β} (h : R a b) : EndAlike R (.ok a) (.ok b)
  | error (e : ε) : EndAlike R (.error e) (.error e)

theorem EndAlike.bind {ε α β γ δ : Type} {R : α → β → Prop} {S : γ → δ → Prop} {x : Except ε α}
    {y : Except ε β} {f : α → Except ε γ} {g : β → Except ε δ} (h : EndAlike R x y)
    (hfg : ∀ a b, R a b → EndAlike S (f a) (g b)) : EndAlike S (x >>= f) (y >>= g) := by
  cases h with
  | ok h => exact hfg _ _ h
  | error e => exact .error e

theorem EndAlike.same {ε α : Type} (x : Except ε α) : EndAlike Eq x x := by
  cases x with
  | ok a => exact .ok rfl
  | error e => exact .error e

/-- Two nodes are directories, or files with related contents. -/
inductive Node.Alike (R : Content → Content → Prop) : Node → Node → Prop
  | dir : Node.Alike R .dir .dir
  | file {c c' : Content} (h : R c c') : Node.Alike R (.file c) (.file c')

namespace FileSystem

open Text

/-- Two file systems differ only in what their files hold. -/
structure Alike (R : Content → Content → Prop) (fs fs' : FileSystem) : Prop where
  working : fs'.workingDirectory = fs.workingDirectory
  node : ∀ l, Option.Rel (Node.Alike R) (fs.node? l) (fs'.node? l)

variable {R : Content → Content → Prop} {fs fs' : FileSystem} {l loc : Location} {n n' : Node}
  {p : Path} {ps missing : List Path} {c c' : Content}

namespace Alike

theorem refl (hR : ∀ c, R c c) (fs : FileSystem) : fs.Alike R fs where
  working := rfl
  node l := by
    cases fs.node? l with
    | none => exact .none
    | some n =>
      cases n with
      | dir => exact .some .dir
      | file c => exact .some (.file (hR c))

/-! ## Where paths lead -/

theorem start_eq (h : fs.Alike R fs') (p : Path) : fs'.start p = fs.start p :=
  start_congr h.working p

/-- At every place both have nothing, both a directory, or both a file. -/
theorem node?_cases (h : fs.Alike R fs') (l : Location) :
    fs.node? l = none ∧ fs'.node? l = none ∨
      fs.node? l = some .dir ∧ fs'.node? l = some .dir ∨
        ∃ c c', R c c' ∧ fs.node? l = some (.file c) ∧ fs'.node? l = some (.file c') := by
  have hl := h.node l
  generalize fs.node? l = x at hl ⊢
  generalize fs'.node? l = x' at hl ⊢
  cases hl with
  | none => exact .inl ⟨rfl, rfl⟩
  | some hn =>
    cases hn with
    | dir => exact .inr (.inl ⟨rfl, rfl⟩)
    | file hc => exact .inr (.inr ⟨_, _, hc, rfl, rfl⟩)

theorem node?_eq_dir_iff (h : fs.Alike R fs') :
    fs'.node? l = some .dir ↔ fs.node? l = some .dir := by
  rcases h.node?_cases l with ⟨hl, hl'⟩ | ⟨hl, hl'⟩ | ⟨c, c', -, hl, hl'⟩ <;> simp [hl, hl']

theorem step_eq (h : fs.Alike R fs') (l : Location) (piece : Text) :
    fs'.step l piece = fs.step l piece := by
  unfold step
  rcases h.node?_cases l with ⟨hl, hl'⟩ | ⟨hl, hl'⟩ | ⟨c, c', -, hl, hl'⟩ <;> rw [hl, hl']

theorem follow_eq (h : fs.Alike R fs') (l : Location) (pieces : List Text) :
    fs'.follow l pieces = fs.follow l pieces := by
  have hstep : fs'.step = fs.step := funext fun l ↦ funext fun piece ↦ h.step_eq l piece
  rw [follow, follow, hstep]

theorem locate (h : fs.Alike R fs') (p : Path) :
    EndAlike (fun x x' ↦ x'.1 = x.1 ∧ Node.Alike R x.2 x'.2) (fs.locate p) (fs'.locate p) := by
  unfold FileSystem.locate
  refine (EndAlike.same (checkPath p)).bind fun _ _ _ ↦ ?_
  rw [h.start_eq, h.follow_eq]
  refine (EndAlike.same _).bind fun l l' hl ↦ ?_
  subst hl
  rcases h.node?_cases l with ⟨hl, hl'⟩ | ⟨hl, hl'⟩ | ⟨c, c', hc, hl, hl'⟩ <;> rw [hl, hl']
  · exact .error _
  · exact .ok ⟨rfl, .dir⟩
  · exact .ok ⟨rfl, .file hc⟩

theorem isDir_eq (h : fs.Alike R fs') (p : Path) : fs'.isDir p = fs.isDir p := by
  have hp := h.locate p
  unfold isDir
  generalize fs.locate p = x at hp ⊢
  generalize fs'.locate p = x' at hp ⊢
  cases hp with
  | error e => rfl
  | @ok d d' hp =>
    obtain ⟨l, n⟩ := d
    obtain ⟨l', n'⟩ := d'
    cases hp.2 with
    | dir => rfl
    | file => rfl

theorem fileAt? (h : fs.Alike R fs') (p : Path) :
    Option.Rel R (fs.fileAt? p) (fs'.fileAt? p) := by
  have hp := h.locate p
  unfold FileSystem.fileAt?
  generalize fs.locate p = x at hp ⊢
  generalize fs'.locate p = x' at hp ⊢
  cases hp with
  | error e => exact .none
  | @ok d d' hp =>
    obtain ⟨l, n⟩ := d
    obtain ⟨l', n'⟩ := d'
    cases hp.2 with
    | dir => exact .none
    | file hc => exact .some hc

theorem locateParent_eq (h : fs.Alike R fs') (p : Path) :
    fs'.locateParent p = fs.locateParent p := by
  unfold locateParent
  -- All that is asked of the node is whether it is a directory.
  simp only [h.start_eq, h.follow_eq]
  refine congrArg _ (funext fun _ ↦ congrArg _ (funext fun l ↦ ?_))
  rcases h.node?_cases l with ⟨hl, hl'⟩ | ⟨hl, hl'⟩ | ⟨c, c', -, hl, hl'⟩ <;> rw [hl, hl']

/-! ## Changes -/

theorem setNode (h : fs.Alike R fs') (hn : Node.Alike R n n') :
    (fs.setNode loc n).Alike R (fs'.setNode loc n') where
  working := h.working
  node l := by
    by_cases hloc : loc = []
    · -- Nothing that is put at the root is ever seen.
      have hroot : ∀ (fs : FileSystem) m, (fs.setNode loc m).node? l = fs.node? l := by
        intro fs m
        by_cases hl : l = []
        · rw [hl, node?_nil, node?_nil]
        · rw [node?_of_ne_nil hl, node?_of_ne_nil hl, FileSystem.setNode, List.lookup_cons,
            lookup_filter fun m ↦ decide (m ≠ loc)]
          simp [hloc, beq_false_of_ne hl, hl]
      rw [hroot, hroot]
      exact h.node l
    · rw [node?_setNode fs n hloc, node?_setNode fs' n' hloc]
      split_ifs
      · exact .some hn
      · exact h.node l

theorem removeWhere (h : fs.Alike R fs') (q : Location → Bool) :
    (fs.removeWhere q).Alike R (fs'.removeWhere q) where
  working := h.working
  node l := by
    by_cases hl : l = []
    · rw [hl, node?_nil, node?_nil]
      exact .some .dir
    · rw [node?_removeWhere fs q hl, node?_removeWhere fs' q hl]
      split_ifs
      · exact .none
      · exact h.node l

theorem makeDir (h : fs.Alike R fs') (p : Path) :
    EndAlike (Alike R) (fs.makeDir p) (fs'.makeDir p) := by
  unfold FileSystem.makeDir
  rw [h.locateParent_eq]
  refine (EndAlike.same _).bind fun d d' hd ↦ ?_
  subst hd
  obtain ⟨dir, last⟩ := d
  cases last with
  | root | here | up => exact .error _
  | name piece =>
    simp only [h.step_eq]
    refine (EndAlike.same _).bind fun l l' hl ↦ ?_
    subst hl
    rcases h.node?_cases l with ⟨hl, hl'⟩ | ⟨hl, hl'⟩ | ⟨c, c', -, hl, hl'⟩ <;> rw [hl, hl']
    · exact .ok (h.setNode .dir)
    · exact .error _
    · exact .error _

theorem makeDirsDown (h : fs.Alike R fs') (ps : List Path) :
    (fs.makeDirsDown ps).1.Alike R (fs'.makeDirsDown ps).1 ∧
      (fs'.makeDirsDown ps).2 = (fs.makeDirsDown ps).2 := by
  induction ps generalizing fs fs' with
  | nil => exact ⟨h, rfl⟩
  | cons p ps ih =>
    have hp := h.makeDir p
    rw [FileSystem.makeDirsDown, FileSystem.makeDirsDown, h.isDir_eq]
    generalize fs.makeDir p = x at hp ⊢
    generalize fs'.makeDir p = x' at hp ⊢
    cases hp with
    | ok hp => exact ih hp
    | error e =>
      cases e with
      | alreadyExists =>
        by_cases hdir : fs.isDir p
        · simp only [hdir, if_true]
          exact ih h
        · simp only [hdir]
          exact ⟨h, rfl⟩
      | _ => exact ⟨h, rfl⟩

theorem makeDirsUp (h : fs.Alike R fs') (missing ps : List Path) :
    (fs.makeDirsUp missing ps).1.Alike R (fs'.makeDirsUp missing ps).1 ∧
      (fs'.makeDirsUp missing ps).2 = (fs.makeDirsUp missing ps).2 := by
  induction ps generalizing missing with
  | nil => exact h.makeDirsDown missing
  | cons p ps ih =>
    have hp := h.makeDir p
    rw [FileSystem.makeDirsUp, FileSystem.makeDirsUp, h.isDir_eq]
    generalize fs.makeDir p = x at hp ⊢
    generalize fs'.makeDir p = x' at hp ⊢
    cases hp with
    | ok hp => exact hp.makeDirsDown missing
    | error e =>
      cases e with
      | notFound => exact ih (p :: missing)
      | alreadyExists =>
        by_cases hdir : fs.isDir p
        · simp only [hdir, if_true]
          exact h.makeDirsDown missing
        · simp only [hdir]
          exact ⟨h, rfl⟩
      | _ => exact ⟨h, rfl⟩

theorem makeDirs (h : fs.Alike R fs') (p : Path) :
    (fs.makeDirs p).1.Alike R (fs'.makeDirs p).1 ∧ (fs'.makeDirs p).2 = (fs.makeDirs p).2 := by
  unfold FileSystem.makeDirs
  split_ifs
  · exact ⟨h, rfl⟩
  · exact h.makeDirsUp [] (ancestors p)

theorem writeFile (h : fs.Alike R fs') (p : Path) (hc : R c c') :
    EndAlike (Alike R) (fs.writeFile p c) (fs'.writeFile p c') := by
  unfold FileSystem.writeFile
  rw [h.locateParent_eq]
  refine (EndAlike.same _).bind fun d d' hd ↦ ?_
  subst hd
  obtain ⟨dir, last⟩ := d
  cases last with
  | root | here | up => exact .error _
  | name piece =>
    simp only [h.step_eq]
    refine (EndAlike.same _).bind fun l l' hl ↦ ?_
    subst hl
    simp only [h.node?_eq_dir_iff]
    split_ifs
    · exact .error _
    · exact .ok (h.setNode (.file hc))

theorem removeFile (h : fs.Alike R fs') (p : Path) :
    EndAlike (Alike R) (fs.removeFile p) (fs'.removeFile p) := by
  unfold FileSystem.removeFile
  refine (h.locate p).bind fun x x' hx ↦ ?_
  obtain ⟨l, n⟩ := x
  obtain ⟨l', n'⟩ := x'
  obtain ⟨rfl, hn⟩ : l' = l ∧ Node.Alike R n n' := hx
  cases hn with
  | dir => exact .error _
  | file => exact .ok (h.removeWhere _)

end Alike

end FileSystem

end PluginPack
