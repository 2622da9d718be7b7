import DeepinPwCheck.Service.Backup
import Mathlib.Logic.Function.Basic

/-!
# All calls of the service

`service.go` with all its methods: those that change the configuration, the `Get` methods, which
need no authorisation, `ReadConfig`, `Reset` and `Backup`. A run interleaves the steps of any
number of handlers on the two files. What a handler has in memory was in a file when it loaded
it, and what it saves comes from there or from its own data.
-/

namespace DeepinPwCheck

open CText

/-- `GetInt` and `GetBool` of the key-file library: what they make of a value. -/
structure KeyFileReader where
  readInt : Bytes → Option ℤ
  readBool : Bytes → Option Bool

/-- The methods of `manager`, with their arguments. -/
inductive Method where
  | change (request : Request)
  | readConfig
  | getLengthLimit
  | getValidatePolicy
  | getValidateRequired
  | getEnabled
  | getFirstLetterUpper
  | reset
  | backup
  deriving DecidableEq

/-- What a call replies, if it is not an error. -/
inductive Reply where
  | done
  | content (kf : KeyFile)
  | limits (minLength maxLength : ℤ)
  | policy (validatePolicy : Bytes)
  | required (validateRequired : ℤ)
  | flag (enable : Bool)

/-- The two files of the service. -/
inductive ServiceFile where
  | conf
  | backup
  deriving DecidableEq, Repr

/-- The content of a file. -/
def Files.get (files : Files) : ServiceFile → Option KeyFile
  | .conf => files.conf
  | .backup => files.backup

/-- The files with another content in one of them. -/
def Files.set (files : Files) (kf : KeyFile) : ServiceFile → Files
  | .conf => { files with conf := some kf }
  | .backup => { files with backup := some kf }

/-- The methods that call `checkAuth`. -/
def Method.needsAuth : Method → Bool
  | change _ | readConfig | reset | backup => true
  | _ => false

/-- The file that a method loads, if it loads one. -/
def Method.source : Method → Option ServiceFile
  | change request => if request.loads then some .conf else none
  | reset => some .backup
  | _ => some .conf

/-- The file that a method saves, if it saves one. -/
def Method.target : Method → Option ServiceFile
  | change _ | reset => some .conf
  | backup => some .backup
  | _ => none

/-- `Reset` and `Backup` drop the error of their save. -/
def Method.dropsSaveError : Method → Bool
  | reset | backup => true
  | _ => false

/-- No other method drops it. -/
theorem Method.eq_of_dropsSaveError {method : Method} (h : method.dropsSaveError = true) :
    method = .reset ∨ method = .backup := by
  cases method with
  | reset => exact Or.inl rfl
  | backup => exact Or.inr rfl
  | _ => cases h

/-- `GetInt` of a key in the section of the service. -/
def KeyFile.getInt (reader : KeyFileReader) (kf : KeyFile) (key : Bytes) : Option ℤ :=
  (kf pwdConfSection key).bind reader.readInt

/-- `GetBool` of a key in the section of the service. -/
def KeyFile.getBool (reader : KeyFileReader) (kf : KeyFile) (key : Bytes) : Option Bool :=
  (kf pwdConfSection key).bind reader.readBool

/-- What a `Get` method replies for a content; there is no reply if a key is missing or cannot be
read. The other methods do not reply so. -/
def Method.answer (reader : KeyFileReader) (kf : KeyFile) : Method → Option Reply
  | getLengthLimit =>
      match kf.getInt reader (bytes "PASSWORD_MIN_LENGTH") with
      | none => none
      | some minLength =>
          (kf.getInt reader (bytes "PASSWORD_MAX_LENGTH")).map (Reply.limits minLength)
  | getValidatePolicy => (kf pwdConfSection (bytes "VALIDATE_POLICY")).map Reply.policy
  | getValidateRequired => (kf.getInt reader (bytes "VALIDATE_REQUIRED")).map Reply.required
  | getEnabled => (kf.getBool reader (bytes "STRONG_PASSWORD")).map Reply.flag
  | getFirstLetterUpper =>
      (kf.getBool reader (bytes "FIRST_LETTER_UPPERCASE")).map Reply.flag
  | _ => none

/-- The methods that reply with values of the loaded content. -/
def Method.answers : Method → Bool
  | change _ | readConfig | reset | backup => false
  | _ => true

/-- A `Get` method replies neither with a whole content nor without a value. Such replies can only
come from other methods. -/
theorem Method.answer_ne (reader : KeyFileReader) (kf : KeyFile) (method : Method) :
    method.answer reader kf ≠ some .done ∧
      ∀ content, method.answer reader kf ≠ some (.content content) := by
  cases method with
  | getLengthLimit =>
    unfold Method.answer
    cases kf.getInt reader (bytes "PASSWORD_MIN_LENGTH") <;> simp
  | _ => simp [Method.answer]

/-- How far the handler of a call has come. -/
inductive Stage where
  | waiting
  | authorised
  | loaded (kf : KeyFile)
  | changed (kf : KeyFile)
  | replied (reply : Option Reply)

/-- The steps of a handler and their outcomes. `answer` and `answerFails` are the end of a
method that reads: the reply of a `Get` method, and `ReadFile` of `ReadConfig`. -/
inductive ManagerAction where
  | authorise
  | refuse
  | load
  | loadFails
  | change
  | save
  | saveFails
  | answer
  | answerFails
  deriving DecidableEq, Repr

/-- The handler is before its first step on a file. -/
def Method.Begins (method : Method) : Stage → Prop
  | .waiting => method.needsAuth = false
  | .authorised => True
  | _ => False

instance (method : Method) (stage : Stage) : Decidable (method.Begins stage) := by
  cases stage <;> unfold Method.Begins <;> infer_instance

/-- What a handler is about to save. -/
def Method.saved : Method → Stage → Option KeyFile
  | .change _, .changed kf => some kf
  | .reset, .loaded kf => some kf
  | .backup, .loaded kf => some kf
  | _, _ => none

/-- One step of a handler on the files: its next stage and the files afterwards. -/
def handleMethod (reader : KeyFileReader) (lib : KeyFileLib) (method : Method)
    (files : Files) (stage : Stage) : ManagerAction → Option (Stage × Files)
  | .authorise =>
      match stage with
      | .waiting => if method.needsAuth then some (.authorised, files) else none
      | _ => none
  | .refuse =>
      match stage with
      | .waiting => if method.needsAuth then some (.replied none, files) else none
      | _ => none
  | .load =>
      if method.Begins stage then
        method.source.bind fun file => (files.get file).map fun kf => (.loaded kf, files)
      else none
  | .loadFails =>
      if method.Begins stage then method.source.map fun _ => (.replied none, files) else none
  | .change =>
      match method, stage with
      | .change (.writeConfig data), .authorised =>
          match lib.loadFromData data with
          | some kf => some (.changed kf, files)
          | none => some (.replied none, files)
      | .change request, .loaded kf => some (.changed (request.change lib kf), files)
      | _, _ => none
  | .save =>
      match method.saved stage, method.target with
      | some kf, some file => some (.replied (some .done), files.set kf file)
      | _, _ => none
  | .saveFails =>
      (method.saved stage).map fun _ =>
        (.replied (if method.dropsSaveError then some .done else none), files)
  | .answer =>
      match stage with
      | .loaded kf =>
          if method.answers then some (.replied (method.answer reader kf), files)
          else if method = .readConfig then
            some (.replied (files.conf.map Reply.content), files)
          else none
      | _ => none
  | .answerFails =>
      match stage with
      | .loaded _ => if method = .readConfig then some (.replied none, files) else none
      | _ => none

/-- The files and the handlers of all calls. -/
structure ManagerState (ι : Type*) where
  files : Files
  stage : ι → Stage

/-- An event of the service: a call and a step of its handler. -/
abbrev ManagerEvent (ι : Type*) := ι × ManagerAction

/-- The service before any call is handled. -/
def ManagerState.start (ι : Type*) (files : Files) : ManagerState ι := ⟨files, fun _ => .waiting⟩

/-- What one step of a handler can do. -/
inductive HandlerStep (reader : KeyFileReader) (lib : KeyFileLib) (method : Method)
    (files : Files) : Stage → ManagerAction → Stage → Files → Prop
  | authorise : method.needsAuth = true →
      HandlerStep reader lib method files .waiting .authorise .authorised files
  | refuse : method.needsAuth = true →
      HandlerStep reader lib method files .waiting .refuse (.replied none) files
  | load {stage : Stage} {file : ServiceFile} {kf : KeyFile} : method.Begins stage →
      method.source = some file → files.get file = some kf →
      HandlerStep reader lib method files stage .load (.loaded kf) files
  | loadFails {stage : Stage} : method.Begins stage → method.source ≠ none →
      HandlerStep reader lib method files stage .loadFails (.replied none) files
  | write {data : Bytes} {kf : KeyFile} : method = .change (.writeConfig data) →
      lib.loadFromData data = some kf →
      HandlerStep reader lib method files .authorised .change (.changed kf) files
  | reject {data : Bytes} : method = .change (.writeConfig data) → lib.loadFromData data = none →
      HandlerStep reader lib method files .authorised .change (.replied none) files
  | change {request : Request} {kf : KeyFile} : method = .change request →
      HandlerStep reader lib method files (.loaded kf) .change (.changed (request.change lib kf))
        files
  | save {stage : Stage} {file : ServiceFile} {kf : KeyFile} : method.saved stage = some kf →
      method.target = some file →
      HandlerStep reader lib method files stage .save (.replied (some .done))
        (files.set kf file)
  | saveFails {stage : Stage} {kf : KeyFile} : method.saved stage = some kf →
      HandlerStep reader lib method files stage .saveFails
        (.replied (if method.dropsSaveError then some .done else none)) files
  | answer {kf : KeyFile} : method.answers = true →
      HandlerStep reader lib method files (.loaded kf) .answer
        (.replied (method.answer reader kf)) files
  | content {kf : KeyFile} : method = .readConfig →
      HandlerStep reader lib method files (.loaded kf) .answer
        (.replied (files.conf.map Reply.content)) files
  | answerFails {kf : KeyFile} : method = .readConfig →
      HandlerStep reader lib method files (.loaded kf) .answerFails (.replied none) files

/-- **Steps of a handler.** The handler takes no other steps. -/
theorem handlerStep_of_handleMethod {reader : KeyFileReader} {lib : KeyFileLib}
    {method : Method} {files files' : Files} {stage stage' : Stage} {a : ManagerAction}
    (h : handleMethod reader lib method files stage a = some (stage', files')) :
    HandlerStep reader lib method files stage a stage' files' := by
  cases a with
  | authorise =>
    simp only [handleMethod] at h
    split at h
    · split_ifs at h with hauth
      cases h
      exact .authorise hauth
    · cases h
  | refuse =>
    simp only [handleMethod] at h
    split at h
    · split_ifs at h with hauth
      cases h
      exact .refuse hauth
    · cases h
  | load =>
    simp only [handleMethod] at h
    split_ifs at h with hbegins
    obtain ⟨file, hsource, h⟩ := Option.bind_eq_some_iff.mp h
    obtain ⟨kf, hfile, h⟩ := Option.map_eq_some_iff.mp h
    cases h
    exact .load hbegins hsource hfile
  | loadFails =>
    simp only [handleMethod] at h
    split_ifs at h with hbegins
    obtain ⟨file, hsource, h⟩ := Option.map_eq_some_iff.mp h
    cases h
    exact .loadFails hbegins (by rw [hsource]; exact Option.some_ne_none file)
  | change =>
    simp only [handleMethod] at h
    split at h
    · split at h
      · rename_i hparse
        cases h
        exact .write rfl hparse
      · rename_i hparse
        cases h
        exact .reject rfl hparse
    · cases h
      exact .change rfl
    · cases h
  | save =>
    simp only [handleMethod] at h
    split at h
    · rename_i hsaved htarget
      cases h
      exact .save hsaved htarget
    · cases h
  | saveFails =>
    simp only [handleMethod] at h
    obtain ⟨kf, hsaved, h⟩ := Option.map_eq_some_iff.mp h
    cases h
    exact .saveFails hsaved
  | answer =>
    simp only [handleMethod] at h
    split at h
    · split_ifs at h with hanswers hread
      · cases h
        exact .answer hanswers
      · cases h
        exact .content hread
    · cases h
  | answerFails =>
    simp only [handleMethod] at h
    split at h
    · split_ifs at h with hread
      cases h
      exact .answerFails hread
    · cases h

/-- Only a save changes the files. Most steps of a run leave the invariant on the files alone
because of it. -/
theorem HandlerStep.files_eq {reader : KeyFileReader} {lib : KeyFileLib}
    {method : Method} {files files' : Files} {stage stage' : Stage} {a : ManagerAction}
    (h : HandlerStep reader lib method files stage a stage' files') (ha : a ≠ .save) :
    files' = files := by
  cases h with
  | save _ _ => exact absurd rfl ha
  | _ => rfl

/-- A save puts what the handler holds into the file of its method. It is the only step that
changes a file. -/
theorem HandlerStep.of_save {reader : KeyFileReader} {lib : KeyFileLib}
    {method : Method} {files files' : Files} {stage stage' : Stage}
    (h : HandlerStep reader lib method files stage .save stage' files') :
    ∃ file kf, method.saved stage = some kf ∧ method.target = some file ∧
      files' = files.set kf file ∧ stage' = .replied (some .done) := by
  cases h with
  | save hsaved htarget => exact ⟨_, _, hsaved, htarget, rfl, rfl⟩

/-- A handler loads the content that the file of its method has. Where a value came from can thus
be followed back along the run. -/
theorem HandlerStep.of_load {reader : KeyFileReader} {lib : KeyFileLib}
    {method : Method} {files files' : Files} {stage stage' : Stage}
    (h : HandlerStep reader lib method files stage .load stage' files') :
    ∃ file kf, method.source = some file ∧ files.get file = some kf ∧ stage' = .loaded kf := by
  cases h with
  | load _ hsource hfile => exact ⟨_, _, hsource, hfile, rfl⟩

/-- What a handler is about to save has a file to go to. The origin of a content can therefore be
asked for at every save. -/
theorem Method.target_of_saved {method : Method} {stage : Stage} {kf : KeyFile}
    (h : method.saved stage = some kf) : method.target ≠ none := by
  unfold Method.saved at h
  split at h
  · simp [Method.target]
  · simp [Method.target]
  · simp [Method.target]
  · cases h

/-- A content that was set is in that file. The other file keeps its own. -/
theorem Files.get_set (files : Files) (kf : KeyFile) (file other : ServiceFile) :
    (files.set kf file).get other = if other = file then some kf else files.get other := by
  cases file <;> cases other <;> rfl

variable {ι : Type*}

/-- The last call that saved a file; it was authorised before that. -/
def LastSave (method : ι → Method) (trace : List (ManagerEvent ι)) (file : ServiceFile) (i : ι) :
    Prop :=
  (method i).target = some file ∧ ∃ before after, trace = before ++ (i, .save) :: after ∧
    (i, .authorise) ∈ before ∧
    ∀ j, (j, ManagerAction.save) ∈ after → (method j).target ≠ some file

/-- A call that needs the authorisation got it. -/
def Granted (method : ι → Method) (trace : List (ManagerEvent ι)) (i : ι) : Prop :=
  (method i).needsAuth = true → (i, .authorise) ∈ trace

private theorem Granted.append {trace : List (ManagerEvent ι)} {i : ι}
    (h : Granted method trace i) (rest : List (ManagerEvent ι)) :
    Granted method (trace ++ rest) i :=
  fun hauth => List.mem_append_left _ (h hauth)

section

variable [DecidableEq ι]

/-- One step of the service: the handler of one call takes a step. -/
def managerStep (reader : KeyFileReader) (lib : KeyFileLib) (method : ι → Method)
    (s : ManagerState ι) (e : ManagerEvent ι) : Option (ManagerState ι) :=
  (handleMethod reader lib (method e.1) s.files (s.stage e.1) e.2).map fun next =>
    ⟨next.2, Function.update s.stage e.1 next.1⟩

/-- A run of the service from its two files. -/
abbrev ManagerRun (reader : KeyFileReader) (lib : KeyFileLib)
    (method : ι → Method) (files : Files) : List (ManagerEvent ι) → ManagerState ι → Prop :=
  Trace.Run (managerStep reader lib method) (ManagerState.start ι files)

/-- A step of the service is a step of one handler. The invariants of all handlers are reduced to
steps of one. -/
theorem managerStep_cases {reader : KeyFileReader} {lib : KeyFileLib}
    {method : ι → Method} {s s' : ManagerState ι} {i : ι} {a : ManagerAction}
    (h : managerStep reader lib method s (i, a) = some s') :
    HandlerStep reader lib (method i) s.files (s.stage i) a (s'.stage i) s'.files ∧
      ∀ j, j ≠ i → s'.stage j = s.stage j := by
  unfold managerStep at h
  obtain ⟨next, hnext, rfl⟩ := Option.map_eq_some_iff.mp h
  refine ⟨?_, ?_⟩
  · dsimp only
    rw [Function.update_self]
    exact handlerStep_of_handleMethod hnext
  · intro j hj
    exact Function.update_of_ne hj _ _

variable {reader : KeyFileReader} {lib : KeyFileLib} {method : ι → Method}
  {files : Files}

/-- The content was in the file when the handler loaded it. -/
def LoadedFrom (reader : KeyFileReader) (lib : KeyFileLib) (method : ι → Method)
    (files : Files) (trace : List (ManagerEvent ι)) (i : ι) (file : ServiceFile) (kf : KeyFile) :
    Prop :=
  ∃ s, Trace.HappenedIn (managerStep reader lib method) (ManagerState.start ι files) trace
    (i, .load) s ∧ s.files.get file = some kf

/-- What a call saves: its own data, what it makes of the content it loaded, or this content. -/
inductive Saves (reader : KeyFileReader) (lib : KeyFileLib) (method : ι → Method)
    (files : Files) (trace : List (ManagerEvent ι)) (i : ι) : KeyFile → Prop
  | write {data : Bytes} {kf : KeyFile} : method i = .change (.writeConfig data) →
      lib.loadFromData data = some kf → Saves reader lib method files trace i kf
  | change {request : Request} {base : KeyFile} : method i = .change request →
      LoadedFrom reader lib method files trace i .conf base →
      Saves reader lib method files trace i (request.change lib base)
  | copy {file : ServiceFile} {kf : KeyFile} : method i = .reset ∧ file = .backup ∨
      method i = .backup ∧ file = .conf → LoadedFrom reader lib method files trace i file kf →
      Saves reader lib method files trace i kf

/-- Where a reply comes from. -/
def Justified (reader : KeyFileReader) (lib : KeyFileLib) (method : ι → Method)
    (files : Files) (trace : List (ManagerEvent ι)) (i : ι) : Reply → Prop
  | .done => (method i).target ≠ none ∧
      ((i, .save) ∈ trace ∨ (method i).dropsSaveError = true)
  | .content kf => method i = .readConfig ∧
      ∃ s, Trace.HappenedIn (managerStep reader lib method) (ManagerState.start ι files) trace
        (i, .answer) s ∧ s.files.conf = some kf
  | reply => ∃ kf, LoadedFrom reader lib method files trace i .conf kf ∧
      (method i).answer reader kf = some reply

/-- What a handler holds in memory in each stage, and that it was authorised. -/
def StageHolds (reader : KeyFileReader) (lib : KeyFileLib) (method : ι → Method)
    (files : Files) (trace : List (ManagerEvent ι)) (i : ι) : Stage → Prop
  | .waiting => True
  | .authorised => (i, .authorise) ∈ trace
  | .loaded kf => Granted method trace i ∧ ∃ file, (method i).source = some file ∧
      LoadedFrom reader lib method files trace i file kf
  | .changed kf => Granted method trace i ∧ Saves reader lib method files trace i kf
  | .replied none => True
  | .replied (some reply) => Granted method trace i ∧
      Justified reader lib method files trace i reply

/-- Where the content of a file comes from. -/
def FileHolds (reader : KeyFileReader) (lib : KeyFileLib) (method : ι → Method)
    (files : Files) (trace : List (ManagerEvent ι)) (file : ServiceFile)
    (content : Option KeyFile) : Prop :=
  (content = files.get file ∧ ∀ j, (j, ManagerAction.save) ∈ trace →
      (method j).target ≠ some file) ∨
  ∃ i kf, content = some kf ∧ LastSave method trace file i ∧
    Saves reader lib method files trace i kf

/-- The invariant of the service with all its calls. -/
structure ManagerInvariant (reader : KeyFileReader) (lib : KeyFileLib)
    (method : ι → Method) (files : Files) (trace : List (ManagerEvent ι)) (s : ManagerState ι) :
    Prop where
  files_hold : ∀ file, FileHolds reader lib method files trace file (s.files.get file)
  stages_hold : ∀ i, StageHolds reader lib method files trace i (s.stage i)

/-- The methods that save a file call `checkAuth`. So nothing is saved without an
authorisation. -/
theorem Method.needsAuth_of_target {method : Method} (h : method.target ≠ none) :
    method.needsAuth = true := by
  cases method <;> simp_all [Method.target, Method.needsAuth]

private theorem LoadedFrom.append {trace : List (ManagerEvent ι)} {i : ι} {file : ServiceFile}
    {kf : KeyFile} (h : LoadedFrom reader lib method files trace i file kf)
    (rest : List (ManagerEvent ι)) :
    LoadedFrom reader lib method files (trace ++ rest) i file kf := by
  obtain ⟨s, hs, hfile⟩ := h
  exact ⟨s, hs.append rest, hfile⟩

private theorem Saves.append {trace : List (ManagerEvent ι)} {i : ι} {kf : KeyFile}
    (h : Saves reader lib method files trace i kf) (rest : List (ManagerEvent ι)) :
    Saves reader lib method files (trace ++ rest) i kf := by
  cases h with
  | write hmethod hparse => exact .write hmethod hparse
  | change hmethod hbase => exact .change hmethod (hbase.append rest)
  | copy hmethod hfile => exact .copy hmethod (hfile.append rest)

private theorem Justified.append {trace : List (ManagerEvent ι)} {i : ι} {reply : Reply}
    (h : Justified reader lib method files trace i reply) (rest : List (ManagerEvent ι)) :
    Justified reader lib method files (trace ++ rest) i reply := by
  have hanswer : ∀ reply, (∃ kf, LoadedFrom reader lib method files trace i .conf kf ∧
      (method i).answer reader kf = some reply) →
      ∃ kf, LoadedFrom reader lib method files (trace ++ rest) i .conf kf ∧
        (method i).answer reader kf = some reply := by
    rintro reply ⟨kf, hkf, hreply⟩
    exact ⟨kf, hkf.append rest, hreply⟩
  cases reply with
  | done => exact ⟨h.1, h.2.imp (List.mem_append_left _) id⟩
  | content kf =>
    obtain ⟨hmethod, s, hs, hconf⟩ := h
    exact ⟨hmethod, s, hs.append rest, hconf⟩
  | limits minLength maxLength => exact hanswer _ h
  | policy validatePolicy => exact hanswer _ h
  | required validateRequired => exact hanswer _ h
  | flag enable => exact hanswer _ h

/-- What a handler holds stays so while others take steps. The invariant of the other handlers
does not depend on the step. -/
theorem StageHolds.append {trace : List (ManagerEvent ι)} {i : ι} {stage : Stage}
    (h : StageHolds reader lib method files trace i stage) (rest : List (ManagerEvent ι)) :
    StageHolds reader lib method files (trace ++ rest) i stage := by
  cases stage with
  | waiting => trivial
  | authorised => exact List.mem_append_left _ h
  | loaded kf =>
    obtain ⟨hgranted, file, hsource, hkf⟩ := h
    exact ⟨hgranted.append rest, file, hsource, hkf.append rest⟩
  | changed kf => exact ⟨h.1.append rest, h.2.append rest⟩
  | replied reply =>
    cases reply with
    | none => trivial
    | some reply => exact ⟨h.1.append rest, h.2.append rest⟩

/-- A handler that can begin was authorised, if it needs that. Together with the steps it shows
that nobody loads or saves without it. -/
private theorem granted_of_begins {trace : List (ManagerEvent ι)} {i : ι} {stage : Stage}
    (h : StageHolds reader lib method files trace i stage) (hbegins : (method i).Begins stage) :
    Granted method trace i := by
  intro hauth
  cases stage with
  | waiting =>
    have hno : (method i).needsAuth = false := hbegins
    rw [hno] at hauth
    cases hauth
  | authorised => exact h
  | loaded kf => cases hbegins
  | changed kf => cases hbegins
  | replied reply => cases hbegins

/-- What a handler is about to save. It is known where this content comes from before it reaches a
file. -/
theorem saves_of_saved {trace : List (ManagerEvent ι)} {i : ι} {stage : Stage}
    {kf : KeyFile} (h : StageHolds reader lib method files trace i stage)
    (hsaved : (method i).saved stage = some kf) :
    Granted method trace i ∧ Saves reader lib method files trace i kf := by
  unfold Method.saved at hsaved
  split at hsaved
  · cases hsaved
    exact h
  · rename_i hmethod
    cases hsaved
    obtain ⟨hgranted, file, hsource, hkf⟩ := h
    rw [hmethod] at hsource
    cases hsource
    exact ⟨hgranted, .copy (Or.inl ⟨hmethod, rfl⟩) hkf⟩
  · rename_i hmethod
    cases hsaved
    obtain ⟨hgranted, file, hsource, hkf⟩ := h
    rw [hmethod] at hsource
    cases hsource
    exact ⟨hgranted, .copy (Or.inr ⟨hmethod, rfl⟩) hkf⟩
  · cases hsaved

/-- A step of a handler keeps what it holds. It is the part of the invariant that follows one
call. -/
theorem StageHolds.step {trace : List (ManagerEvent ι)} {s : ManagerState ι} {i : ι}
    {stage stage' : Stage} {files' : Files} {a : ManagerAction}
    (hrun : ManagerRun reader lib method files trace s)
    (h : StageHolds reader lib method files trace i stage)
    (hstep : HandlerStep reader lib (method i) s.files stage a stage' files') :
    StageHolds reader lib method files (trace ++ [(i, a)]) i stage' := by
  have hbefore := h.append [(i, a)]
  cases hstep with
  | authorise hauth => exact List.mem_append_right _ (List.mem_singleton.mpr rfl)
  | refuse hauth => trivial
  | load hbegins hsource hfile =>
    exact ⟨granted_of_begins hbefore hbegins, _, hsource, s, hrun.happenedIn _, hfile⟩
  | loadFails hbegins _ => trivial
  | write hmethod hparse => exact ⟨fun _ => hbefore, .write hmethod hparse⟩
  | reject hmethod hparse => trivial
  | @change request kf hmethod =>
    obtain ⟨hgranted, file, hsource, hkf⟩ := hbefore
    have hconf : file = .conf := by
      rw [hmethod, Method.source] at hsource
      split_ifs at hsource
      exact (Option.some.inj hsource).symm
    rw [hconf] at hkf
    exact ⟨hgranted, .change hmethod hkf⟩
  | save hsaved htarget =>
    exact ⟨(saves_of_saved hbefore hsaved).1, Method.target_of_saved hsaved,
      Or.inl (List.mem_append_right _ (List.mem_singleton.mpr rfl))⟩
  | saveFails hsaved =>
    split_ifs with hdrops
    · exact ⟨(saves_of_saved hbefore hsaved).1, Method.target_of_saved hsaved, Or.inr hdrops⟩
    · trivial
  | @answer kf hanswers =>
    obtain ⟨hgranted, file, hsource, hkf⟩ := hbefore
    cases hreply : (method i).answer reader kf with
    | none => trivial
    | some reply =>
      have hconf : file = .conf := by
        cases hmethod : method i <;> rw [hmethod] at hanswers hsource <;> cases hanswers <;>
          exact (Option.some.inj hsource).symm
      rw [hconf] at hkf
      refine ⟨hgranted, ?_⟩
      cases reply with
      | done => exact absurd hreply (Method.answer_ne _ _ _).1
      | content kf => exact absurd hreply ((Method.answer_ne _ _ _).2 _)
      | _ => exact ⟨kf, hkf, hreply⟩
  | content hmethod =>
    cases hconf : s.files.conf with
    | none => trivial
    | some kf => exact ⟨hbefore.1, hmethod, s, hrun.happenedIn _, hconf⟩
  | answerFails hmethod => trivial

/-- A step of a handler keeps where the contents of the files come from. It is the part of the
invariant that follows the two files. -/
theorem FileHolds.step {trace : List (ManagerEvent ι)} {s : ManagerState ι} {i : ι}
    {stage stage' : Stage} {files' : Files} {a : ManagerAction} {file : ServiceFile}
    (h : FileHolds reader lib method files trace file (s.files.get file))
    (hstage : StageHolds reader lib method files trace i stage)
    (hstep : HandlerStep reader lib (method i) s.files stage a stage' files') :
    FileHolds reader lib method files (trace ++ [(i, a)]) file (files'.get file) := by
  -- A step that saves nothing to this file keeps its content.
  have hkept : (a = .save → (method i).target ≠ some file) →
      FileHolds reader lib method files (trace ++ [(i, a)]) file (s.files.get file) := by
    intro hother
    have hnone : ∀ j, (j, ManagerAction.save) ∈ [(i, a)] → (method j).target ≠ some file := by
      intro j hj
      obtain ⟨rfl, rfl⟩ := Prod.mk.inj (List.mem_singleton.mp hj)
      exact hother rfl
    rcases h with ⟨hinit, hall⟩ | ⟨j, kf, hkf, ⟨htarget, before, after, rfl, hauth, hlast⟩, hsaves⟩
    · refine Or.inl ⟨hinit, ?_⟩
      intro j hj
      rcases List.mem_append.mp hj with hj | hj
      · exact hall j hj
      · exact hnone j hj
    · refine Or.inr ⟨j, kf, hkf, ⟨htarget, before, after ++ [(i, a)], by simp, hauth, ?_⟩,
        hsaves.append _⟩
      intro k hk
      rcases List.mem_append.mp hk with hk | hk
      · exact hlast k hk
      · exact hnone k hk
  by_cases ha : a = .save
  · subst ha
    obtain ⟨other, kf, hsaved, htarget, rfl, -⟩ := hstep.of_save
    rw [Files.get_set]
    split_ifs with hfile
    · subst hfile
      obtain ⟨hgranted, hsaves⟩ := saves_of_saved hstage hsaved
      have hauth := hgranted (Method.needsAuth_of_target (Method.target_of_saved hsaved))
      refine Or.inr ⟨i, kf, rfl, ⟨htarget, trace, [], rfl, hauth, ?_⟩, hsaves.append _⟩
      intro j hj
      cases hj
    · apply hkept
      rintro - hsame
      exact hfile (Option.some.inj (hsame.symm.trans htarget))
  · rw [hstep.files_eq ha]
    exact hkept fun hsave => absurd hsave ha

/-- The invariant holds along every run of the service. The theorems about replies and about
values read it at the end of a run. -/
theorem managerInvariant {trace : List (ManagerEvent ι)} {s : ManagerState ι}
    (h : ManagerRun reader lib method files trace s) :
    ManagerInvariant reader lib method files trace s := by
  apply Trace.Run.invariant (P := ManagerInvariant reader lib method files) _ _ h
  · refine ⟨?_, fun _ => trivial⟩
    intro file
    exact Or.inl ⟨rfl, fun j hj => by cases hj⟩
  · rintro trace s ⟨i, a⟩ s' hrun hinv he
    obtain ⟨hstep, hothers⟩ := managerStep_cases he
    refine ⟨?_, ?_⟩
    · intro file
      exact (hinv.files_hold file).step (hinv.stages_hold i) hstep
    · intro j
      by_cases hj : j = i
      · rw [hj]
        exact (hinv.stages_hold i).step hrun hstep
      · rw [hothers j hj]
        exact (hinv.stages_hold j).append _

end

end DeepinPwCheck
