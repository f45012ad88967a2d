import PluginPack.Proofs.Console.Run
import PluginPack.Proofs.Text.Reading
import PluginPack.Proofs.FileSystem.Alike

/-!
# Logs

The active log holds one line for each call that has one, since the log was begun. Beginning a log
makes directories, and these must not come to stand where another log is to be written; then every
line finds its file. How verbose the console is does not matter for any file.

Time stamps are kept apart from the lines behind them, so that runs at different times can be
compared.
-/

namespace PluginPack.Console

open Text PluginPack.Path FileSystem

/-! ## Logs -/

/-- The text of a log with the given time stamps and lines. -/
def logText (entries : List (Text × Text)) : Text := entries.flatMap fun x ↦ x.1 ++ x.2 ++ ['\n']

/-- Two contents differ at most in the time stamps of lines written at their end. -/
def SameButStamps (x x' : Content) : Prop :=
  ∃ (base : Content) (entries entries' : List (Text × Text)), x = base.append (logText entries) ∧
    x' = base.append (logText entries') ∧ entries.map Prod.snd = entries'.map Prod.snd

/-- The log files that a run begins can be written: their paths can be named, and never lead to a
directory. -/
structure LogsWritable (env : Environment) (c : Console) (es : List Event) : Prop where
  working : c.files.node? c.files.workingDirectory = some .dir
  /-- Where a directory can be named, the log in it can be named as well. -/
  named : ∀ e ∈ es, ∀ dir ∈ e.call.logDirectory? env,
    checkPath dir = .ok () ∨ dir.parent? = none → checkPath (dir.join logName) = .ok ()
  notDir : ∀ pre, pre <+: es → ∀ e ∈ es, ∀ dir ∈ e.call.logDirectory? env,
    (c.after env pre).files.node? (c.files.place (dir.join logName)) ≠ some .dir

variable {env : Environment} {c c' : Console} {e e' : Event} {es es' post all : List Event}
  {dir p : Path} {line stamp : Text} {x x' : Content} {l : Location}

/-! ## Logs that stay writable -/

/-- What holds at every moment of a run whose logs can be written. -/
structure LogsKept (env : Environment) (all : List Event) (c : Console) (es : List Event) :
    Prop where
  subset : es ⊆ all
  working : c.files.node? c.files.workingDirectory = some .dir
  named : ∀ e ∈ all, ∀ dir ∈ e.call.logDirectory? env,
    checkPath dir = .ok () ∨ dir.parent? = none → checkPath (dir.join logName) = .ok ()
  notDir : ∀ pre, pre <+: es → ∀ e ∈ all, ∀ dir ∈ e.call.logDirectory? env,
    (c.after env pre).files.node? (c.files.place (dir.join logName)) ≠ some .dir
  /-- The active log is one of those that the run begins, and its directory is there. -/
  site : ∀ p, c.logFile = some p → c.files.HasSite p ∧
    ∃ e ∈ all, ∃ dir ∈ e.call.logDirectory? env, p = dir.join logName

theorem logName_isName : IsName logName.text ∧ '/' ∉ logName.text ∧
    utf8Length logName.text ≤ maxNameBytes := by decide

/-- Beginning a log takes no directory away. -/
theorem node?_eq_dir_openLog (h : c.files.node? l = some .dir) :
    (c.openLog dir).1.files.node? l = some .dir := by
  have hadds := addsDirs_makeDirs c.files dir
  obtain ⟨fs, error, hmake, heq⟩ | ⟨fs, hmake, heq⟩ := openLog_cases c dir
  · rw [hmake] at hadds
    rw [heq]
    exact hadds.node?_eq_some h
  · rw [hmake] at hadds
    rw [heq]
    cases hremove : fs.removeFile (dir.join logName) with
    | error error => exact hadds.node?_eq_some h
    | ok fs' => exact (node?_eq_dir_of_removeFile hremove).mpr (hadds.node?_eq_some h)

theorem workingDirectory_openLog (c : Console) (dir : Path) :
    (c.openLog dir).1.files.workingDirectory = c.files.workingDirectory := by
  have hadds := addsDirs_makeDirs c.files dir
  obtain ⟨fs, error, hmake, heq⟩ | ⟨fs, hmake, heq⟩ := openLog_cases c dir
  · rw [hmake] at hadds
    rw [heq]
    exact hadds.working
  · rw [hmake] at hadds
    rw [heq]
    cases hremove : fs.removeFile (dir.join logName) with
    | error error => exact hadds.working
    | ok fs' => exact (workingDirectory_of_removeFile hremove).trans hadds.working

theorem node?_eq_dir_run (h : c.files.node? l = some .dir) :
    (e.run env c).1.files.node? l = some .dir := by
  obtain ⟨dir, n, -, hrun, -⟩ | ⟨line, -, -, -, hfiles⟩ | ⟨-, -, -, hfiles⟩ := e.run_cases env c
  · rw [hrun]
    exact node?_eq_dir_openLog h
  · rw [hfiles]
    exact (node?_eq_dir_log _ line).mpr h
  · rw [hfiles]
    exact h

theorem workingDirectory_run (env : Environment) (c : Console) (e : Event) :
    (e.run env c).1.files.workingDirectory = c.files.workingDirectory := by
  obtain ⟨dir, n, -, hrun, -⟩ | ⟨line, -, -, -, hfiles⟩ | ⟨-, -, -, hfiles⟩ := e.run_cases env c
  · rw [hrun]
    exact workingDirectory_openLog _ dir
  · rw [hfiles]
    exact workingDirectory_log _ line
  · rw [hfiles]

namespace LogsKept

/-- Where a log was begun, there is a site for its file. -/
theorem hasSite_openLog (h : LogsKept env all c es) (he : e ∈ all)
    (hdir : e.call.logDirectory? env = some dir) (hopen : (c.openLog dir).2 = .ok ()) :
    (c.openLog dir).1.files.HasSite (dir.join logName) := by
  obtain ⟨fs, error, -, heq⟩ | ⟨fs, hmake, heq⟩ := openLog_cases c dir
  · rw [heq] at hopen
    cases hopen
  · have hcheck := h.named e he dir hdir (checkPath_of_makeDirs hmake)
    obtain ⟨loc, hfollow, hnode⟩ := follow_of_makeDirs hmake h.working
    obtain ⟨hname, hslash, hshort⟩ := logName_isName
    have hsite := hasSite_join hname hslash hshort hcheck hfollow hnode
    rw [heq]
    cases hremove : fs.removeFile (dir.join logName) with
    | error error => exact hsite
    | ok fs' =>
      exact hsite.mono (workingDirectory_of_removeFile hremove)
        fun l hl ↦ (node?_eq_dir_of_removeFile hremove).mpr hl

/-- **What is kept is kept by every step of a run.** -/
theorem step (h : LogsKept env all c (e :: es)) : LogsKept env all (e.run env c).1 es where
  subset := (List.cons_subset.mp h.subset).2
  working := by
    rw [workingDirectory_run]
    exact node?_eq_dir_run h.working
  named := h.named
  notDir pre hpre e' he' dir hdir := by
    rw [place_congr (workingDirectory_run env c e), ← after_cons]
    exact h.notDir (e :: pre) (List.cons_prefix_cons.mpr ⟨rfl, hpre⟩) e' he' dir hdir
  site p hp := by
    have he : e ∈ all := (List.cons_subset.mp h.subset).1
    -- Directories stay, so a log that stays active keeps its site.
    have hkeep : c.logFile = some p → (e.run env c).1.files.HasSite p ∧
        ∃ e ∈ all, ∃ dir ∈ e.call.logDirectory? env, p = dir.join logName := fun hp ↦
      ⟨(h.site p hp).1.mono (workingDirectory_run env c e) fun _ ↦ node?_eq_dir_run,
        (h.site p hp).2⟩
    obtain ⟨dir, n, hdir, hrun, -⟩ | ⟨line, -, -, hlog, -⟩ | ⟨-, -, hlog, -⟩ := e.run_cases env c
    · have hopened := openLog_cases { c with stamp := e.stamp, verbosity := n } dir
      obtain ⟨fs, error, -, heq⟩ | ⟨fs, -, heq⟩ := hopened
      · rw [hrun, heq] at hp
        exact hkeep hp
      · rw [hrun, heq] at hp
        obtain rfl : dir.join logName = p := Option.some.inj hp
        have h' : LogsKept env all { c with stamp := e.stamp, verbosity := n } [] :=
          ⟨List.nil_subset all, h.working, h.named, fun pre hpre e' he' dir hdir ↦ by
            obtain rfl := List.prefix_nil.mp hpre
            exact h.notDir [] List.nil_prefix e' he' dir hdir, h.site⟩
        rw [hrun]
        exact ⟨h'.hasSite_openLog he hdir (by rw [heq]), e, he, dir, hdir, rfl⟩
    · exact hkeep (hlog ▸ hp)
    · exact hkeep (hlog ▸ hp)

theorem after {pre : List Event} (h : LogsKept env all c (pre ++ post)) :
    LogsKept env all (c.after env pre) post := by
  induction pre generalizing c with
  | nil => exact h
  | cons e pre ih => exact ih h.step

end LogsKept

/-! ## What the active log holds -/

theorem logText_append (entries entries' : List (Text × Text)) :
    logText (entries ++ entries') = logText entries ++ logText entries' := List.flatMap_append

theorem logText_singleton (stamp line : Text) :
    logText [(stamp, line)] = stamp ++ line ++ ['\n'] := by
  rw [logText, List.flatMap_singleton]

namespace LogsKept

end LogsKept

/-! ## Logs without time stamps -/

/-- A text has the form of a time stamp. -/
def IsStamp (stamp : Text) : Prop :=
  stamp.length = stampForm.length ∧ ∀ p ∈ stampForm.zip stamp, fitsStamp p.1 p.2 = true

theorem IsStamp.not_mem (h : IsStamp stamp) : '\n' ∉ stamp := by
  intro hmem
  obtain ⟨i, hi, hget⟩ := List.getElem_of_mem hmem
  have hform : i < stampForm.length := h.1 ▸ hi
  have hpair : (stampForm[i], '\n') ∈ stampForm.zip stamp := by
    have hzip : i < (stampForm.zip stamp).length := by simp [h.1, hform]
    have hat := List.getElem_mem hzip
    rwa [List.getElem_zip, hget] at hat
  have hnever : ∀ form ∈ stampForm, fitsStamp form '\n' = false := by decide
  exact absurd (h.2 _ hpair) (by simp [hnever _ (List.getElem_mem hform)])

theorem dropStamp_append (h : IsStamp stamp) (line : Text) :
    dropStamp (stamp ++ line) = line := by
  have hzip : stampForm.zip (stamp ++ line) = stampForm.zip stamp := by
    rw [← List.append_nil stampForm, List.zip_append h.1.symm, List.append_nil, List.zip_nil_left,
      List.append_nil]
  have hlong : stampForm.length ≤ (stamp ++ line).length := by
    rw [List.length_append, h.1]
    exact Nat.le_add_right _ _
  rw [dropStamp, if_pos ⟨hlong, by rw [hzip]; exact List.all_eq_true.mpr h.2⟩, ← h.1]
  exact List.drop_left

theorem dropStamps_append {line : Text} (h : '\n' ∉ line) (rest : Text) :
    dropStamps (line ++ '\n' :: rest) = dropStamp line ++ '\n' :: dropStamps rest := by
  obtain ⟨l, ls, hls⟩ := List.exists_cons_of_ne_nil (splitNewlines_ne_nil rest)
  rw [dropStamps, splitNewlines_append h, dropStamps, hls, List.map_cons, List.map_cons,
    List.intercalate_cons_cons, List.append_assoc]
  rfl

/-- **Without its time stamps a log is the lines of its messages**, whenever they were given. -/
theorem dropStamps_logText {entries : List (Text × Text)}
    (h : ∀ e ∈ entries, IsStamp e.1 ∧ '\n' ∉ e.2) :
    dropStamps (logText entries) = entries.flatMap fun e ↦ e.2 ++ ['\n'] := by
  induction entries with
  | nil => rfl
  | cons e es ih =>
    obtain ⟨⟨hstamp, hline⟩, hrest⟩ := List.forall_mem_cons.mp h
    have hfirst : '\n' ∉ e.1 ++ e.2 := by
      rw [List.mem_append, not_or]
      exact ⟨hstamp.not_mem, hline⟩
    have hlog : logText (e :: es) = (e.1 ++ e.2) ++ '\n' :: logText es := by
      rw [logText, List.flatMap_cons, List.append_assoc (e.1 ++ e.2)]
      rfl
    rw [hlog, dropStamps_append hfirst, dropStamp_append hstamp, ih hrest, List.flatMap_cons,
      List.append_assoc]
    rfl

/-! ## Runs with another verbosity -/

theorem SameButStamps.refl (x : Content) : SameButStamps x x :=
  ⟨x, [], [], (Content.append_nil x).symm, (Content.append_nil x).symm, rfl⟩

theorem SameButStamps.append (h : SameButStamps x x') (stamp stamp' line : Text) :
    SameButStamps (x.append (stamp ++ line ++ ['\n'])) (x'.append (stamp' ++ line ++ ['\n'])) := by
  obtain ⟨base, entries, entries', rfl, rfl, hlines⟩ := h
  refine ⟨base, entries ++ [(stamp, line)], entries' ++ [(stamp', line)], ?_, ?_, ?_⟩
  · rw [logText_append, logText_singleton, Content.append_append]
  · rw [logText_append, logText_singleton, Content.append_append]
  · rw [List.map_append, List.map_append, hlines]
    rfl

/-- Two consoles have the same log and the same files, up to time stamps. -/
structure Alike (c c' : Console) : Prop where
  logFile : c'.logFile = c.logFile
  files : c.files.Alike SameButStamps c'.files

namespace Alike

theorem log (h : Alike c c') (stamp stamp' line : Text) :
    ({ c with stamp := stamp }.log line).files.Alike SameButStamps
      ({ c' with stamp := stamp' }.log line).files := by
  cases hp : c.logFile with
  | none => simpa only [Console.log, h.logFile, hp] using h.files
  | some p =>
    have hcontent : SameButStamps ((c.files.fileAt? p).getD (.text []))
        ((c'.files.fileAt? p).getD (.text [])) := by
      have hrel := h.files.fileAt? p
      generalize c.files.fileAt? p = x at hrel ⊢
      generalize c'.files.fileAt? p = x' at hrel ⊢
      cases hrel with
      | none => exact .refl _
      | some hx => exact hx
    have hwrite := h.files.writeFile p (hcontent.append stamp stamp' line)
    simp only [Console.log, h.logFile, hp, appendFile]
    -- A line that can not be written is lost in both runs.
    generalize c.files.writeFile p _ = y at hwrite ⊢
    generalize c'.files.writeFile p _ = y' at hwrite ⊢
    cases hwrite with
    | ok hwrite => exact hwrite
    | error e => exact h.files

theorem openLog (h : Alike c c') (dir : Path) :
    Alike (c.openLog dir).1 (c'.openLog dir).1 := by
  obtain ⟨hmade, hresult⟩ := h.files.makeDirs dir
  obtain ⟨fs, error, hmake, heq⟩ | ⟨fs, hmake, heq⟩ := openLog_cases c dir
  · obtain ⟨fs', error', hmake', heq'⟩ | ⟨fs', hmake', heq'⟩ := openLog_cases c' dir
    · rw [hmake, hmake'] at hmade
      rw [heq, heq']
      exact ⟨h.logFile, hmade⟩
    · rw [hmake, hmake'] at hresult
      cases hresult
  · obtain ⟨fs', error', hmake', heq'⟩ | ⟨fs', hmake', heq'⟩ := openLog_cases c' dir
    · rw [hmake, hmake'] at hresult
      cases hresult
    · rw [hmake, hmake'] at hmade
      rw [heq, heq']
      refine ⟨rfl, ?_⟩
      -- Whether there was a log to remove does not matter: the error is dropped.
      have hremove := hmade.removeFile (dir.join logName)
      generalize fs.removeFile (dir.join logName) = y at hremove ⊢
      generalize fs'.removeFile (dir.join logName) = y' at hremove ⊢
      cases hremove with
      | ok hremove => exact hremove
      | error e => exact hmade

/-- A log that is begun where it is by default is begun alike with any verbosity. -/
theorem openDefaultLog (h : Alike c c') (env : Environment) (n m : Nat) :
    Alike (c.openDefaultLog env n).1 (c'.openDefaultLog env m).1 := by
  have hset : Alike (c.setVerbosity n) (c'.setVerbosity m) := ⟨h.logFile, h.files⟩
  rw [Console.openDefaultLog, Console.openDefaultLog]
  cases env.directory with
  | none => exact hset
  | some dir => exact hset.openLog dir

/-- **A step of two runs that differ in their verbosity** does the same to the files of both. -/
theorem run (h : Alike c c') (hcall : e.call.SameButVerbosity e'.call) :
    Alike (e.run env c).1 (e'.run env c').1 := by
  obtain ⟨stamp, call⟩ := e
  obtain ⟨stamp', call'⟩ := e'
  have hsame : Alike { c with stamp := stamp } { c' with stamp := stamp' } := ⟨h.logFile, h.files⟩
  cases hcall with
  | openDefaultLog n m => exact hsame.openDefaultLog env n m
  | setVerbosity n m => exact ⟨h.logFile, h.files⟩
  | same =>
    cases call with
    | openLog dir => exact hsame.openLog dir
    | openDefaultLog n => exact hsame.openDefaultLog env n n
    | setVerbosity n => exact ⟨h.logFile, h.files⟩
    | tell level message =>
      refine ⟨?_, ?_⟩
      · simp only [Event.run, Call.run, logFile_tell]
        exact h.logFile
      · simp only [Event.run, Call.run, files_tell]
        exact h.log stamp stamp' _
    | announce message =>
      refine ⟨?_, h.log stamp stamp' _⟩
      simp only [Event.run, Call.run, Console.announce, logFile_log]
      exact h.logFile
    | endWork => exact hsame
    | showLogFile =>
      refine ⟨?_, ?_⟩
      · simp only [Event.run, Call.run, logFile_showLogFile]
        exact h.logFile
      · simp only [Event.run, Call.run, files_showLogFile]
        exact h.files

/-- **The files that a run leaves do not depend on its verbosity.** -/
theorem after (h : Alike c c')
    (hes : List.Forall₂ (fun e e' ↦ e.call.SameButVerbosity e'.call) es es') :
    Alike (c.after env es) (c'.after env es') := by
  induction hes generalizing c c' with
  | nil => exact h
  | cons hcall _ ih => exact ih (h.run hcall)

end Alike

end PluginPack.Console
