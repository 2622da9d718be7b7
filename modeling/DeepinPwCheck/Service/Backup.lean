import DeepinPwCheck.Runs.Trace
import DeepinPwCheck.Service.Requests

/-!
# Backup and Reset

`service.go`: `Backup` copies the configuration file to the backup file, and `Reset` copies it
back. The calls of a run execute one after another, and each one can fail at the
authorisation, at the load and at the save. A file that fails to be saved keeps its content.
-/

namespace DeepinPwCheck

open CText

/-- The configuration file and the backup file; a missing file has no content. -/
structure Files where
  conf : Option KeyFile
  backup : Option KeyFile

/-- The calls of a run. -/
inductive Call where
  | change (request : Request)
  | reset
  | backup
  deriving DecidableEq

/-- Whether the authorisation, the load and the save of a call go through. -/
structure Outcome where
  authorised : Bool
  loaded : Bool
  saved : Bool
  deriving DecidableEq, Repr

/-- The load of a file, unless it fails. -/
def loadFromFile (file : Option KeyFile) (ok : Bool) : Option KeyFile :=
  if ok then file else none

/-- The content of a file after a save, unless it fails. -/
def saveToFile (file : Option KeyFile) (kf : KeyFile) (ok : Bool) : Option KeyFile :=
  if ok then some kf else file

/-- What the handler of a request saves, unless its load fails or its data is rejected. -/
def Request.content (lib : KeyFileLib) (request : Request) (files : Files)
    (ok : Bool) : Option KeyFile :=
  match request with
  | writeConfig data => lib.loadFromData data
  | _ => (loadFromFile files.conf ok).map fun kf => request.change lib kf

/-- The files after a call, and whether it replies success. `Reset` and `Backup` drop the error
of their save. -/
def handleCall (lib : KeyFileLib) (files : Files) (call : Call)
    (outcome : Outcome) : Files × Bool :=
  if outcome.authorised then
    match call with
    | .change request =>
        match request.content lib files outcome.loaded with
        | some kf => ({ files with conf := saveToFile files.conf kf outcome.saved }, outcome.saved)
        | none => (files, false)
    | .reset =>
        match loadFromFile files.backup outcome.loaded with
        | some kf => ({ files with conf := saveToFile files.conf kf outcome.saved }, true)
        | none => (files, false)
    | .backup =>
        match loadFromFile files.conf outcome.loaded with
        | some kf => ({ files with backup := saveToFile files.backup kf outcome.saved }, true)
        | none => (files, false)
  else (files, false)

/-- A call of a run, with its outcome and its reply. -/
structure CallEvent where
  call : Call
  outcome : Outcome
  reply : Bool
  deriving DecidableEq

/-- One call of a run: it gives the reply that the event says. -/
def callStep (lib : KeyFileLib) (files : Files) (e : CallEvent) : Option Files :=
  if (handleCall lib files e.call e.outcome).2 = e.reply then
    some (handleCall lib files e.call e.outcome).1
  else none

variable {lib : KeyFileLib}

/-- **What one call can do.** A call that replies an error leaves the files as they are, except
that `Reset` and `Backup` never tell that their save failed. -/
theorem callStep_cases {files files' : Files} {e : CallEvent}
    (h : callStep lib files e = some files') :
    (e.reply = false ∧ files' = files) ∨
    (∃ request kf, e.call = .change request ∧
      request.content lib files e.outcome.loaded = some kf ∧ e.reply = e.outcome.saved ∧
      files' = { files with conf := saveToFile files.conf kf e.outcome.saved }) ∨
    (∃ kf, e.call = .reset ∧ loadFromFile files.backup e.outcome.loaded = some kf ∧
      e.reply = true ∧ files' = { files with conf := saveToFile files.conf kf e.outcome.saved }) ∨
    (∃ kf, e.call = .backup ∧ loadFromFile files.conf e.outcome.loaded = some kf ∧
      e.reply = true ∧
      files' = { files with backup := saveToFile files.backup kf e.outcome.saved }) := by
  obtain ⟨call, outcome, reply⟩ := e
  unfold callStep at h
  split_ifs at h with hreply
  obtain rfl := Option.some.inj h
  dsimp only at hreply ⊢
  subst hreply
  unfold handleCall
  split_ifs
  · cases call with
    | change request =>
        dsimp only
        cases hcontent : request.content lib files outcome.loaded with
        | none => exact Or.inl ⟨rfl, rfl⟩
        | some kf => exact Or.inr (Or.inl ⟨request, kf, rfl, hcontent, rfl, rfl⟩)
    | reset =>
        dsimp only
        cases hload : loadFromFile files.backup outcome.loaded with
        | none => exact Or.inl ⟨rfl, rfl⟩
        | some kf => exact Or.inr (Or.inr (Or.inl ⟨kf, rfl, rfl, rfl, rfl⟩))
    | backup =>
        dsimp only
        cases hload : loadFromFile files.conf outcome.loaded with
        | none => exact Or.inl ⟨rfl, rfl⟩
        | some kf => exact Or.inr (Or.inr (Or.inr ⟨kf, rfl, rfl, rfl, rfl⟩))
  · exact Or.inl ⟨rfl, rfl⟩

/-- A file that can be loaded has the loaded content. A failing load gives nothing to save. -/
theorem loadFromFile_eq_some {file : Option KeyFile} {ok : Bool} {kf : KeyFile}
    (h : loadFromFile file ok = some kf) : file = some kf := by
  unfold loadFromFile at h
  split_ifs at h
  exact h

/-- A request leaves the backup file as it is. Only `Backup` writes to it. -/
theorem backup_of_callStep {files files' : Files} {e : CallEvent}
    (h : callStep lib files e = some files') (hcall : e.call ≠ .backup) :
    files'.backup = files.backup := by
  rcases callStep_cases h with ⟨-, rfl⟩ | ⟨_, _, -, -, -, rfl⟩ | ⟨_, -, -, -, rfl⟩ |
    ⟨_, hbackup, -⟩
  · rfl
  · rfl
  · rfl
  · exact absurd hbackup hcall

/-- **The backup along a run.** Calls without a `Backup` leave the backup file as it is. `Reset`
therefore finds what the last `Backup` has saved. -/
theorem backup_of_run {files files' : Files} {calls : List CallEvent}
    (h : Trace.Run (callStep lib) files calls files') (hcalls : ∀ e ∈ calls, e.call ≠ .backup) :
    files'.backup = files.backup := by
  revert hcalls
  apply Trace.Run.invariant (P := fun calls files' =>
    (∀ e ∈ calls, e.call ≠ .backup) → files'.backup = files.backup) _ _ h
  · intro _
    rfl
  · intro calls files' e files'' _ hbackup he hcalls
    rw [backup_of_callStep he (hcalls e (by simp))]
    exact hbackup fun e' he' => hcalls e' (List.mem_append_left _ he')

/-- What a `Reset` that replies success leaves in the configuration file, when no other
`Backup` was called since the one that replied success. -/
theorem conf_after_reset {files beforeReset after : Files} {backup reset : Outcome}
    {calls : List CallEvent} (hcalls : ∀ e ∈ calls, e.call ≠ .backup)
    (hrun : Trace.Run (callStep lib) files (⟨.backup, backup, true⟩ :: calls) beforeReset)
    (hreset : callStep lib beforeReset ⟨.reset, reset, true⟩ = some after) :
    after.conf =
      if reset.saved then if backup.saved then files.conf else files.backup
      else beforeReset.conf := by
  obtain ⟨afterBackup, hbackup, hrun⟩ := hrun.of_cons
  have hkept : beforeReset.backup = afterBackup.backup := backup_of_run hrun hcalls
  have hsaved : afterBackup.backup = if backup.saved then files.conf else files.backup := by
    rcases callStep_cases hbackup with ⟨herror, -⟩ | ⟨_, _, hcall, -⟩ | ⟨_, hcall, -⟩ |
      ⟨kf, -, hload, -, rfl⟩
    · cases herror
    · cases hcall
    · cases hcall
    · rw [loadFromFile_eq_some hload]
      rfl
  rcases callStep_cases hreset with ⟨herror, -⟩ | ⟨_, _, hcall, -⟩ | ⟨kf, -, hload, -, rfl⟩ |
    ⟨_, hcall, -⟩
  · cases herror
  · cases hcall
  · rw [← hsaved, ← hkept, loadFromFile_eq_some hload]
    rfl
  · cases hcall

/-- **Backup and Reset bracket a run** exactly if `Reset` saved the configuration file and the
backup file held its content, because `Backup` saved it or it was there before, or if `Reset`
saved nothing and the requests had left the content as it was. -/
theorem restoresBackup_iff {files beforeReset after : Files} {backup reset : Outcome}
    {requests : List CallEvent} (hrequests : ∀ e ∈ requests, ∃ request, e.call = .change request)
    (hrun : Trace.Run (callStep lib) files (⟨.backup, backup, true⟩ :: requests) beforeReset)
    (hreset : callStep lib beforeReset ⟨.reset, reset, true⟩ = some after) :
    after.conf = files.conf ↔
      reset.saved = true ∧ (backup.saved = true ∨ files.backup = files.conf) ∨
      reset.saved = false ∧ beforeReset.conf = files.conf := by
  have hcalls : ∀ e ∈ requests, e.call ≠ .backup := by
    intro e he
    obtain ⟨request, hcall⟩ := hrequests e he
    rw [hcall]
    simp
  rw [conf_after_reset hcalls hrun hreset]
  cases reset.saved <;> cases backup.saved <;> simp

/-- A configuration with the strong-password flag and no backup. -/
def strongFiles : Files :=
  ⟨some (unparsed.setBool emptyKeyFile pwdConfSection (bytes "STRONG_PASSWORD") true), none⟩

/-- A backup, and a request that clears the strong-password flag. -/
def backupThenClear : List CallEvent :=
  [⟨.backup, ⟨true, true, true⟩, true⟩, ⟨.change (.setEnabled false), ⟨true, true, true⟩, true⟩]

/-- Backup and Reset bracket the request when both of them save. -/
theorem restoresBackup_strongFiles : ∃ beforeReset after : Files,
    Trace.Run (callStep unparsed) strongFiles backupThenClear beforeReset ∧
    callStep unparsed beforeReset ⟨.reset, ⟨true, true, true⟩, true⟩ = some after ∧
    after.conf = strongFiles.conf := by
  obtain ⟨beforeReset, hexec, hreset⟩ : ∃ beforeReset,
      Trace.exec (callStep unparsed) strongFiles backupThenClear = some beforeReset ∧
      ∃ after, callStep unparsed beforeReset ⟨.reset, ⟨true, true, true⟩, true⟩ =
        some after := ⟨_, rfl, _, rfl⟩
  obtain ⟨after, hreset⟩ := hreset
  have hrun := Trace.run_of_exec hexec
  refine ⟨beforeReset, after, hrun, hreset, ?_⟩
  refine (restoresBackup_iff ?_ hrun hreset).mpr (Or.inl ⟨rfl, Or.inl rfl⟩)
  intro e he
  obtain rfl := List.mem_singleton.mp he
  exact ⟨_, rfl⟩

/-- A `Reset` that fails to save replies success and leaves the flag cleared. -/
theorem failedReset_not_restored : ¬ ∀ beforeReset after : Files,
    Trace.Run (callStep unparsed) strongFiles backupThenClear beforeReset →
    callStep unparsed beforeReset ⟨.reset, ⟨true, true, false⟩, true⟩ = some after →
      after.conf = strongFiles.conf := by
  intro h
  obtain ⟨beforeReset, hexec, after, hreset, hconf⟩ : ∃ beforeReset,
      Trace.exec (callStep unparsed) strongFiles backupThenClear = some beforeReset ∧
      ∃ after, callStep unparsed beforeReset ⟨.reset, ⟨true, true, false⟩, true⟩ =
        some after ∧
      after.conf.bind (fun kf => kf pwdConfSection (bytes "STRONG_PASSWORD")) =
        some (bytes "false") := ⟨_, rfl, _, rfl, by decide⟩
  rw [h beforeReset after (Trace.run_of_exec hexec) hreset] at hconf
  revert hconf
  decide

end DeepinPwCheck
