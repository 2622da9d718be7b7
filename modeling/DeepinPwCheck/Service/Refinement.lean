import DeepinPwCheck.Service.Backup
import DeepinPwCheck.Service.Interleaving
import DeepinPwCheck.Service.Manager

/-!
# Three views of the service

Calls that execute one after another, concurrent requests on the configuration file, and all
methods on both files: each of the first two is what the third one does in its case.
-/

namespace DeepinPwCheck

open CText

/-- The stage of a handler in a phase. -/
def Phase.stage : Phase → Stage
  | waiting => .waiting
  | authorised => .authorised
  | loaded kf => .loaded kf
  | changed kf => .changed kf
  | succeeded => .replied (some .done)
  | failed => .replied none

/-- The step of a handler that is an action of a request. -/
def Action.step : Action → ManagerAction
  | authorise => .authorise
  | refuse => .refuse
  | load => .load
  | loadFails => .loadFails
  | change => .change
  | save => .save
  | saveFails => .saveFails

/-- The handler of a request does the same in both views. The lost-update theorem is about the
smaller view. -/
theorem handleMethod_change (reader : KeyFileReader) (lib : KeyFileLib)
    (request : Request) (file : KeyFile) (backup : Option KeyFile) (phase : Phase)
    (action : Action) :
    handleMethod reader lib (.change request) ⟨some file, backup⟩ phase.stage action.step =
      (handle lib request file phase action).map fun next =>
        (next.1.stage, ⟨some next.2, backup⟩) := by
  cases action with
  | load =>
    cases phase with
    | authorised =>
      cases hloads : request.loads <;>
        simp [handleMethod, handle, Action.step, Phase.stage, Method.Begins, Method.source, hloads,
          Files.get]
    | _ => simp [handleMethod, handle, Action.step, Phase.stage, Method.Begins, Method.needsAuth]
  | loadFails =>
    cases phase with
    | authorised =>
      cases hloads : request.loads <;>
        simp [handleMethod, handle, Action.step, Phase.stage, Method.Begins, Method.source, hloads]
    | _ => simp [handleMethod, handle, Action.step, Phase.stage, Method.Begins, Method.needsAuth]
  | change =>
    cases phase with
    | authorised =>
      cases request with
      | writeConfig data =>
        cases hparse : lib.loadFromData data <;>
          simp [handleMethod, handle, Action.step, Phase.stage, hparse]
      | _ => rfl
    | _ => cases request <;> rfl
  | save => cases phase <;> rfl
  | saveFails => cases phase <;> rfl
  | _ => cases phase <;> rfl

variable {ι : Type*}

/-- The state of the service with all its methods, for concurrent requests. -/
def ServiceState.manager (backup : Option KeyFile) (s : ServiceState ι) : ManagerState ι :=
  ⟨⟨some s.file, backup⟩, fun i => (s.phase i).stage⟩

variable [DecidableEq ι] {reader : KeyFileReader} {lib : KeyFileLib}

/-- A step of a request is a step of the service. The two models agree step by step. -/
theorem managerStep_change (reader : KeyFileReader) (lib : KeyFileLib)
    (request : ι → Request) (backup : Option KeyFile) (s : ServiceState ι) (e : Event ι) :
    managerStep reader lib (fun i => .change (request i)) (s.manager backup)
        (Prod.map id Action.step e) =
      (serviceStep lib request s e).map (ServiceState.manager backup) := by
  obtain ⟨i, a⟩ := e
  have hstep := handleMethod_change reader lib (request i) s.file backup (s.phase i) a
  simp only [managerStep, serviceStep, Prod.map_apply, id, ServiceState.manager, hstep,
    Option.map_map]
  congr 1
  funext next
  simp only [Function.comp_apply, ServiceState.manager, ManagerState.mk.injEq, true_and]
  funext j
  by_cases hj : j = i
  · simp [hj]
  · simp [hj]

/-- The handler of a request takes only the steps of a request. No other action can occur in such
a run. -/
theorem action_of_change {request : Request} {files : Files} {stage : Stage} {a : ManagerAction}
    {next : Stage × Files}
    (h : handleMethod reader lib (.change request) files stage a = some next) :
    ∃ action : Action, a = action.step := by
  cases a with
  | authorise => exact ⟨.authorise, rfl⟩
  | refuse => exact ⟨.refuse, rfl⟩
  | load => exact ⟨.load, rfl⟩
  | loadFails => exact ⟨.loadFails, rfl⟩
  | change => exact ⟨.change, rfl⟩
  | save => exact ⟨.save, rfl⟩
  | saveFails => exact ⟨.saveFails, rfl⟩
  | answer => cases stage <;> cases h
  | answerFails => cases stage <;> cases h

/-- **Concurrent requests are the runs without other methods.** -/
theorem managerRun_change_iff {request : ι → Request} {file : KeyFile} {backup : Option KeyFile}
    {trace : List (ManagerEvent ι)} {t : ManagerState ι} :
    ManagerRun reader lib (fun i => .change (request i)) ⟨some file, backup⟩ trace t ↔
      ∃ events s, ServiceRun lib request file events s ∧
        trace = events.map (Prod.map id Action.step) ∧ t = s.manager backup := by
  have hstart : ManagerState.start ι ⟨some file, backup⟩ =
      (ServiceState.start ι file).manager backup := rfl
  constructor
  · intro h
    induction h with
    | nil => exact ⟨[], _, .nil, rfl, hstart⟩
    | @snoc trace s t e _ he ih =>
      obtain ⟨events, s, hrun, rfl, rfl⟩ := ih
      obtain ⟨i, a⟩ := e
      obtain ⟨action, rfl⟩ : ∃ action : Action, a = action.step := by
        obtain ⟨next, hnext, -⟩ := Option.map_eq_some_iff.mp he
        exact action_of_change hnext
      have hnext := managerStep_change reader lib request backup s (i, action)
      rw [Prod.map_apply, id, he] at hnext
      obtain ⟨s', hs', rfl⟩ := Option.map_eq_some_iff.mp hnext.symm
      exact ⟨events ++ [(i, action)], s', hrun.snoc hs', by simp, rfl⟩
  · rintro ⟨events, s, hrun, rfl, rfl⟩
    apply Trace.run_of_exec
    rw [hstart, Trace.exec_map _ _ (managerStep_change reader lib request backup), hrun.exec_eq]
    rfl

/-- The method of a call. -/
def Call.method : Call → Method
  | change request => .change request
  | reset => .reset
  | backup => .backup

/-- What a call saves, if its load goes through. -/
def Call.content (lib : KeyFileLib) (call : Call) (files : Files) (ok : Bool) :
    Option KeyFile :=
  match call with
  | change request => request.content lib files ok
  | reset => loadFromFile files.backup ok
  | backup => loadFromFile files.conf ok

/-- A call that has something to save. It then returns what the save says, or success where the
error is dropped. -/
theorem handleCall_of_content {call : Call} {files : Files} {ok : Bool} {kf : KeyFile}
    {file : ServiceFile} (h : call.content lib files ok = some kf)
    (htarget : call.method.target = some file) (saved : Bool) :
    handleCall lib files call ⟨true, ok, saved⟩ =
      (if saved then files.set kf file else files, saved || call.method.dropsSaveError) := by
  cases call with
  | change request =>
    have hcontent : request.content lib files ok = some kf := h
    cases htarget
    cases saved <;> simp [handleCall, hcontent, saveToFile, Call.method, Method.dropsSaveError,
      Files.set]
  | reset =>
    have hload : loadFromFile files.backup ok = some kf := h
    cases htarget
    cases saved <;> simp [handleCall, hload, saveToFile, Call.method, Method.dropsSaveError,
      Files.set]
  | backup =>
    have hload : loadFromFile files.conf ok = some kf := h
    cases htarget
    cases saved <;> simp [handleCall, hload, saveToFile, Call.method, Method.dropsSaveError,
      Files.set]

/-- A call that has nothing to save. -/
theorem handleCall_of_content_none {call : Call} {files : Files} {ok : Bool}
    (h : call.content lib files ok = none) (saved : Bool) :
    handleCall lib files call ⟨true, ok, saved⟩ = (files, false) := by
  cases call with
  | change request =>
    have hcontent : request.content lib files ok = none := h
    simp [handleCall, hcontent]
  | reset =>
    have hload : loadFromFile files.backup ok = none := h
    simp [handleCall, hload]
  | backup =>
    have hload : loadFromFile files.conf ok = none := h
    simp [handleCall, hload]

/-- A handler that loads a file has nothing to save if it fails. Both models stop at this
point. -/
theorem Call.content_of_load_fails {call : Call} (h : call.method.source ≠ none)
    (files : Files) : call.content lib files false = none := by
  cases call with
  | change request =>
    cases request with
    | writeConfig data => exact absurd rfl h
    | _ => rfl
  | _ => rfl

/-- A handler that has loaded a file saves what its request makes of it. It connects the
sequential effect of a request with what its handler has in memory. -/
theorem Call.content_of_change {request : Request} {files : Files} {file : ServiceFile}
    {kf : KeyFile} (hsource : (Call.change request).method.source = some file)
    (hfile : files.get file = some kf) :
    (Call.change request).content lib files true = some (request.change lib kf) := by
  have hconf : file = .conf := by
    simp only [Call.method, Method.source] at hsource
    split_ifs at hsource
    exact (Option.some.inj hsource).symm
  subst hconf
  have hloaded : files.conf = some kf := hfile
  cases request with
  | writeConfig data => cases hsource
  | _ => simp [Call.content, Request.content, loadFromFile, hloaded]

/-- What a handler has done so far, when no other one touches the files. -/
def Stage.Since (lib : KeyFileLib) (call : Call) (files files' : Files) :
    Stage → Prop
  | .waiting => files' = files
  | .authorised => files' = files
  | .loaded kf => files' = files ∧ ∃ file, call.method.source = some file ∧
      files.get file = some kf
  | .changed kf => files' = files ∧ call.content lib files true = some kf
  | .replied reply => ∃ outcome, handleCall lib files call outcome = (files', reply.isSome)

/-- What a handler is about to save is what its call saves. The sequential model computes it from
the files at the start. -/
theorem Stage.Since.content {call : Call} {files files' : Files} {stage : Stage} {kf : KeyFile}
    (h : stage.Since lib call files files') (hsaved : call.method.saved stage = some kf) :
    files' = files ∧ call.content lib files true = some kf := by
  cases call with
  | change request =>
    cases stage <;> cases hsaved
    exact h
  | reset =>
    cases stage <;> cases hsaved
    obtain ⟨rfl, _, hsource, hfile⟩ := h
    cases hsource
    exact ⟨rfl, hfile⟩
  | backup =>
    cases stage <;> cases hsaved
    obtain ⟨rfl, _, hsource, hfile⟩ := h
    cases hsource
    exact ⟨rfl, hfile⟩

/-- A handler that is not disturbed computes its call. It is the step of the run lemma for a
handler alone. -/
theorem Stage.Since.step {call : Call} {files files' files'' : Files} {stage stage' : Stage}
    {a : ManagerAction} (h : stage.Since lib call files files')
    (hstep : HandlerStep reader lib call.method files' stage a stage' files'') :
    stage'.Since lib call files files'' := by
  have hbegun : call.method.Begins stage → files' = files := by
    intro hbegins
    cases stage with
    | waiting => exact h
    | authorised => exact h
    | _ => cases hbegins
  cases hstep with
  | authorise _ => exact h
  | refuse _ =>
    obtain rfl : files' = files := h
    exact ⟨⟨false, false, false⟩, rfl⟩
  | load hbegins hsource hfile =>
    obtain rfl := hbegun hbegins
    exact ⟨rfl, _, hsource, hfile⟩
  | loadFails hbegins hsource =>
    obtain rfl := hbegun hbegins
    exact ⟨_, handleCall_of_content_none (Call.content_of_load_fails hsource _) true⟩
  | write hmethod hparse =>
    cases call <;> cases hmethod
    exact ⟨h, hparse⟩
  | reject hmethod hparse =>
    obtain rfl : files' = files := h
    cases call <;> cases hmethod
    have hnone : (Call.change (.writeConfig _)).content lib files' true = none := hparse
    exact ⟨_, handleCall_of_content_none hnone true⟩
  | change hmethod =>
    obtain ⟨rfl, file, hsource, hfile⟩ := h
    cases call <;> cases hmethod
    exact ⟨rfl, Call.content_of_change hsource hfile⟩
  | save hsaved htarget =>
    obtain ⟨rfl, hcontent⟩ := h.content hsaved
    exact ⟨_, handleCall_of_content hcontent htarget true⟩
  | saveFails hsaved =>
    obtain ⟨rfl, hcontent⟩ := h.content hsaved
    obtain ⟨file, htarget⟩ := Option.ne_none_iff_exists'.mp (Method.target_of_saved hsaved)
    refine ⟨_, (handleCall_of_content hcontent htarget false).trans ?_⟩
    cases call.method.dropsSaveError <;> rfl
  | answer hanswers => cases call <;> cases hanswers
  | content hmethod => cases call <;> cases hmethod
  | answerFails hmethod => cases call <;> cases hmethod

/-- The steps of one handler that no other one disturbs. -/
def handleAlone (reader : KeyFileReader) (lib : KeyFileLib) (method : Method)
    (s : Stage × Files) (a : ManagerAction) : Option (Stage × Files) :=
  handleMethod reader lib method s.2 s.1 a

/-- A handler alone computes its call. Nothing changes the files while no other handler takes a
step. -/
theorem since_of_exec {call : Call} {files files' : Files} {block : List ManagerAction}
    {stage : Stage}
    (h : Trace.exec (handleAlone reader lib call.method) (.waiting, files) block =
      some (stage, files')) : stage.Since lib call files files' := by
  apply Trace.Run.invariant (P := fun _ (s : Stage × Files) => s.1.Since lib call files s.2) _ _
    (Trace.run_of_exec h)
  · rfl
  · rintro _ s a s' - hsince he
    exact hsince.step (handlerStep_of_handleMethod he)

/-- The handler of a call that has something to save comes to its save. -/
theorem exec_to_save (reader : KeyFileReader) {call : Call} {files : Files} {ok : Bool}
    {kf : KeyFile} (h : call.content lib files ok = some kf) : ∃ block stage,
    Trace.exec (handleAlone reader lib call.method) (.waiting, files) block =
      some (stage, files) ∧ call.method.saved stage = some kf := by
  cases call with
  | change request =>
    cases request with
    | writeConfig data =>
      have hparse : lib.loadFromData data = some kf := h
      refine ⟨[.authorise, .change], .changed kf, ?_, rfl⟩
      simp [Trace.exec, handleAlone, handleMethod, Call.method, Method.needsAuth, hparse]
    | _ =>
      obtain ⟨base, hload, rfl⟩ := Option.map_eq_some_iff.mp h
      have hconf : files.get .conf = some base := loadFromFile_eq_some hload
      refine ⟨[.authorise, .load, .change], .changed _, ?_, rfl⟩
      simp [Trace.exec, handleAlone, handleMethod, Call.method, Method.needsAuth, Method.Begins,
        Method.source, Request.loads, hconf]
  | reset =>
    have hfile : files.get .backup = some kf := loadFromFile_eq_some h
    refine ⟨[.authorise, .load], .loaded kf, ?_, rfl⟩
    simp [Trace.exec, handleAlone, handleMethod, Call.method, Method.needsAuth, Method.Begins,
      Method.source, hfile]
  | backup =>
    have hfile : files.get .conf = some kf := loadFromFile_eq_some h
    refine ⟨[.authorise, .load], .loaded kf, ?_, rfl⟩
    simp [Trace.exec, handleAlone, handleMethod, Call.method, Method.needsAuth, Method.Begins,
      Method.source, hfile]

/-- The handler of a call that has nothing to save replies an error. -/
theorem exec_to_error (reader : KeyFileReader) {call : Call} {files : Files} {ok : Bool}
    (h : call.content lib files ok = none) : ∃ block,
    Trace.exec (handleAlone reader lib call.method) (.waiting, files) block =
      some (.replied none, files) := by
  cases call with
  | change request =>
    cases request with
    | writeConfig data =>
      have hparse : lib.loadFromData data = none := h
      refine ⟨[.authorise, .change], ?_⟩
      simp [Trace.exec, handleAlone, handleMethod, Call.method, Method.needsAuth, hparse]
    | _ => exact ⟨[.authorise, .loadFails], rfl⟩
  | _ => exact ⟨[.authorise, .loadFails], rfl⟩

/-- Every outcome of a call is one of its handler. With the lemma before, the runs of one handler
are exactly the outcomes of its call. -/
theorem exec_of_handleCall (reader : KeyFileReader) (lib : KeyFileLib) (call : Call)
    (files : Files) (outcome : Outcome) : ∃ block reply,
    Trace.exec (handleAlone reader lib call.method) (.waiting, files) block =
        some (.replied reply, (handleCall lib files call outcome).1) ∧
      reply.isSome = (handleCall lib files call outcome).2 := by
  obtain ⟨authorised, ok, saved⟩ := outcome
  cases authorised with
  | false => exact ⟨[.refuse], none, by cases call <;> rfl, rfl⟩
  | true =>
    cases hcontent : call.content lib files ok with
    | none =>
      obtain ⟨block, hblock⟩ := exec_to_error reader hcontent
      rw [handleCall_of_content_none hcontent]
      exact ⟨block, none, hblock, rfl⟩
    | some kf =>
      obtain ⟨block, stage, hblock, hsaved⟩ := exec_to_save reader hcontent
      obtain ⟨file, htarget⟩ := Option.ne_none_iff_exists'.mp (Method.target_of_saved hsaved)
      rw [handleCall_of_content hcontent htarget]
      cases saved with
      | true =>
        refine ⟨block ++ [.save], some .done, ?_, rfl⟩
        rw [Trace.exec_append, hblock]
        simp [Trace.exec, handleAlone, handleMethod, hsaved, htarget]
      | false =>
        refine ⟨block ++ [.saveFails], if call.method.dropsSaveError then some .done else none, ?_,
          ?_⟩
        · rw [Trace.exec_append, hblock]
          simp [Trace.exec, handleAlone, handleMethod, hsaved]
        · cases call.method.dropsSaveError <;> rfl

/-- The service when one handler has come to a stage and left the files so. -/
def ManagerState.advance (s : ManagerState ι) (i : ι) (p : Stage × Files) : ManagerState ι :=
  ⟨p.2, Function.update s.stage i p.1⟩

/-- Steps of one handler only change its stage and the files. Blocks of different calls can be put
one after another because of it. -/
theorem exec_block (reader : KeyFileReader) (lib : KeyFileLib) (method : ι → Method)
    (s : ManagerState ι) (i : ι) (block : List ManagerAction) :
    Trace.exec (managerStep reader lib method) s (block.map (Prod.mk i)) =
      (Trace.exec (handleAlone reader lib (method i)) (s.stage i, s.files) block).map
        (s.advance i) := by
  have hstep : ∀ (p : Stage × Files) (a : ManagerAction),
      managerStep reader lib method (s.advance i p) (i, a) =
        (handleAlone reader lib (method i) p a).map (s.advance i) := by
    intro p a
    simp only [managerStep, handleAlone, ManagerState.advance, Function.update_self]
    congr 1
    funext next
    simp [ManagerState.advance, Function.update_idem]
  have hmap := Trace.exec_map (s.advance i) (Prod.mk i) hstep (s.stage i, s.files) block
  rwa [ManagerState.advance, Function.update_eq_self] at hmap

/-- A call without events waits. Blocks of events for different calls do not meet. -/
theorem stage_of_not_mem {method : ι → Method} {files : Files} {trace : List (ManagerEvent ι)}
    {s : ManagerState ι} {i : ι} (h : ManagerRun reader lib method files trace s)
    (hi : ∀ a, (i, a) ∉ trace) : s.stage i = .waiting := by
  revert hi
  apply Trace.Run.invariant (P := fun trace (s : ManagerState ι) =>
    (∀ a, (i, a) ∉ trace) → s.stage i = .waiting) _ _ h
  · intro _
    rfl
  · rintro trace s ⟨j, a⟩ s' - hwaiting he hi
    have hj : i ≠ j := by
      rintro rfl
      exact hi a (List.mem_append_right _ (List.mem_singleton.mpr rfl))
    rw [(managerStep_cases he).2 i hj]
    exact hwaiting fun a' ha' => hi a' (List.mem_append_left _ ha')

/-- The calls with the numbers below a bound, with their outcomes and replies. -/
def callEvents (call : ℕ → Call) (outcome : ℕ → Outcome) (reply : ℕ → Bool) (n : ℕ) :
    List CallEvent :=
  (List.range n).map fun i => ⟨call i, outcome i, reply i⟩

/-- The steps of their handlers, one handler after the other. -/
def uninterrupted (block : ℕ → List ManagerAction) (n : ℕ) : List (ManagerEvent ℕ) :=
  (List.range n).flatMap fun i => (block i).map (Prod.mk i)

private theorem callEvents_succ (call : ℕ → Call) (outcome : ℕ → Outcome) (reply : ℕ → Bool)
    (n : ℕ) : callEvents call outcome reply (n + 1) =
      callEvents call outcome reply n ++ [⟨call n, outcome n, reply n⟩] := by
  simp [callEvents, List.range_succ]

private theorem callEvents_update (call : ℕ → Call) (outcome : ℕ → Outcome) (reply : ℕ → Bool)
    (n : ℕ) (o : Outcome) : callEvents call (Function.update outcome n o) reply n =
      callEvents call outcome reply n := by
  apply List.map_congr_left
  intro i hi
  rw [Function.update_of_ne (List.mem_range.mp hi).ne]

private theorem uninterrupted_succ (block : ℕ → List ManagerAction) (n : ℕ) :
    uninterrupted block (n + 1) = uninterrupted block n ++ (block n).map (Prod.mk n) := by
  simp [uninterrupted, List.range_succ]

private theorem uninterrupted_update (block : ℕ → List ManagerAction) (n : ℕ)
    (b : List ManagerAction) :
    uninterrupted (Function.update block n b) n = uninterrupted block n := by
  apply List.flatMap_congr
  intro i hi
  rw [Function.update_of_ne (List.mem_range.mp hi).ne]

private theorem not_mem_uninterrupted (block : ℕ → List ManagerAction) (n : ℕ)
    (a : ManagerAction) : (n, a) ∉ uninterrupted block n := by
  simp [uninterrupted]

/-- **Calls one after another** are the runs in which the handlers do not overlap: they leave the
same files and give the same replies. -/
theorem callRun_iff (call : ℕ → Call) (reply : ℕ → Bool) (files files' : Files) (n : ℕ) :
    (∃ outcome, Trace.Run (callStep lib) files (callEvents call outcome reply n) files') ↔
      ∃ block s, ManagerRun reader lib (fun i => (call i).method) files (uninterrupted block n)
          s ∧ s.files = files' ∧ ∀ i < n, ∃ r, s.stage i = .replied r ∧ r.isSome = reply i := by
  induction n generalizing files' with
  | zero =>
    constructor
    · rintro ⟨outcome, hrun⟩
      refine ⟨fun _ => [], _, .nil, Option.some.inj hrun.exec_eq, ?_⟩
      intro i hi
      cases hi
    · rintro ⟨block, s, hrun, rfl, -⟩
      obtain rfl := Option.some.inj hrun.exec_eq
      exact ⟨fun _ => ⟨true, true, true⟩, .nil⟩
  | succ n ih =>
    constructor
    · rintro ⟨outcome, hall⟩
      rw [callEvents_succ] at hall
      obtain ⟨middle, hfirst, hlast⟩ := hall.of_append
      obtain ⟨after, hcall, hnil⟩ := hlast.of_cons
      obtain rfl := Option.some.inj hnil.exec_eq
      unfold callStep at hcall
      split_ifs at hcall with hreply
      obtain ⟨block, s, hrun, rfl, hstages⟩ := (ih middle).mp ⟨outcome, hfirst⟩
      obtain ⟨last, r, hexec, hr⟩ := exec_of_handleCall reader lib (call n) s.files (outcome n)
      have hwaiting := stage_of_not_mem hrun (not_mem_uninterrupted block n)
      have hblock := exec_block reader lib (fun i => (call i).method) s n last
      rw [hwaiting, hexec] at hblock
      rw [Option.some.inj hcall] at hexec hblock
      refine ⟨Function.update block n last, s.advance n (.replied r, after), ?_, rfl, ?_⟩
      · rw [uninterrupted_succ, uninterrupted_update, Function.update_self]
        exact hrun.append_exec hblock
      · intro i hi
        by_cases hin : i = n
        · subst hin
          exact ⟨r, by simp [ManagerState.advance], hr.trans hreply⟩
        · obtain ⟨r', hr', hreply'⟩ := hstages i (by omega)
          exact ⟨r', by simpa [ManagerState.advance, hin] using hr', hreply'⟩
    · rintro ⟨block, t, hall, rfl, hstages⟩
      rw [uninterrupted_succ] at hall
      obtain ⟨s, hrun, hlast⟩ := hall.of_append
      have hexec := hlast.exec_eq
      rw [exec_block, stage_of_not_mem hrun (not_mem_uninterrupted block n)] at hexec
      obtain ⟨⟨stage, after⟩, hblock, rfl⟩ := Option.map_eq_some_iff.mp hexec
      obtain ⟨r, hr, hreply⟩ := hstages n (by omega)
      have hstage : stage = .replied r := by simpa [ManagerState.advance] using hr
      subst hstage
      obtain ⟨o, ho⟩ := since_of_exec hblock
      have hbefore : ∀ i < n, ∃ r, s.stage i = .replied r ∧ r.isSome = reply i := by
        intro i hi
        obtain ⟨r', hr', hreply'⟩ := hstages i (by omega)
        exact ⟨r', by simpa [ManagerState.advance, hi.ne] using hr', hreply'⟩
      obtain ⟨outcome, hcalls⟩ := (ih s.files).mpr ⟨block, s, hrun, rfl, hbefore⟩
      refine ⟨Function.update outcome n o, ?_⟩
      rw [callEvents_succ, callEvents_update, Function.update_self]
      refine hcalls.snoc ?_
      rw [callStep, ho]
      exact if_pos hreply

end DeepinPwCheck
