import DeepinPwCheck.Service.Manager

/-!
# What the service lets its callers do

Whatever calls overlap, a value in one of the two files comes from the files at the start or
from a call that was authorised, and a call that was not authorised leaves no trace: without it
the others do the same. What a `Set` call has saved, the `Get` call gives back.
-/

namespace DeepinPwCheck

open CText

variable {ι : Type*}

/-- The keys and values that a request sets. -/
def Request.values (request : Request) : KeyFile := request.change unparsed emptyKeyFile

/-- A request writes the value of a key. -/
def Request.Writes (lib : KeyFileLib) (request : Request) (name key value : Bytes) :
    Prop :=
  match request with
  | writeConfig data => ∃ kf, lib.loadFromData data = some kf ∧ kf name key = some value
  | _ => request.values name key = some value

/-- A change leaves the values of all other keys. All that is assumed of the key-file library
enters here. -/
theorem Request.change_eq_or {lib : KeyFileLib} (hlib : lib.Faithful) (request : Request)
    (kf : KeyFile) (name key : Bytes) :
    request.change lib kf name key = (request.values name key).or (kf name key) := by
  cases request <;> simp only [Request.values, Request.change, hlib.setInt_eq, hlib.setBool_eq,
    hlib.setString_eq, unparsed, plainKeyFileLib, KeyFile.set, emptyKeyFile, Option.none_or] <;>
    split_ifs <;> simp

/-- A value after a change was there before or is written by the request. The theorem on values
follows them back to one of these two origins. -/
theorem Request.change_writes {lib : KeyFileLib} (hlib : lib.Faithful) {request : Request}
    {kf : KeyFile} {name key value : Bytes} (h : request.change lib kf name key = some value) :
    kf name key = some value ∨ request.Writes lib name key value := by
  rw [Request.change_eq_or hlib] at h
  cases hset : request.values name key with
  | none =>
    rw [hset, Option.none_or] at h
    exact Or.inl h
  | some written =>
    rw [hset, Option.some_or] at h
    rw [h] at hset
    cases request with
    | writeConfig data => cases hset
    | _ => exact Or.inr hset

/-- A value comes from one of the files at the start, or a call that was authorised and saved
has written it. -/
def ValueFrom (lib : KeyFileLib) (method : ι → Method) (files : Files)
    (trace : List (ManagerEvent ι)) (name key value : Bytes) : Prop :=
  (∃ file kf, files.get file = some kf ∧ kf name key = some value) ∨
  ∃ i request before after, method i = .change request ∧
    trace = before ++ (i, ManagerAction.save) :: after ∧ (i, .authorise) ∈ before ∧
    request.Writes lib name key value

private theorem ValueFrom.append {lib : KeyFileLib} {method : ι → Method}
    {files : Files} {trace : List (ManagerEvent ι)} {name key value : Bytes}
    (h : ValueFrom lib method files trace name key value) (rest : List (ManagerEvent ι)) :
    ValueFrom lib method files (trace ++ rest) name key value := by
  rcases h with hinit | ⟨i, request, before, after, hmethod, rfl, hauth, hwrites⟩
  · exact Or.inl hinit
  · exact Or.inr ⟨i, request, before, after ++ rest, hmethod, by simp, hauth, hwrites⟩

variable [DecidableEq ι] {reader : KeyFileReader} {lib : KeyFileLib}
  {method : ι → Method} {files : Files}

/-- **Where values come from.** A value in one of the files was in one of them at the start, or a
call that was authorised before its save has written it. -/
theorem managerRun_values (hlib : lib.Faithful) {trace : List (ManagerEvent ι)} {s : ManagerState ι}
    (h : ManagerRun reader lib method files trace s) {file : ServiceFile} {kf : KeyFile}
    (hfile : s.files.get file = some kf) {name key value : Bytes}
    (hvalue : kf name key = some value) :
    ValueFrom lib method files trace name key value := by
  induction hn : trace.length using Nat.strong_induction_on generalizing trace s file kf with
  | _ n ih =>
    -- What a handler loaded was in a file after fewer events.
    have hloaded : ∀ i other base, LoadedFrom reader lib method files trace i other base →
        base name key = some value → ValueFrom lib method files trace name key value := by
      rintro i other base ⟨s', ⟨before, after, rfl, hbefore⟩, hbase⟩ hv
      have hlt : before.length < n := by
        rw [← hn, List.length_append, List.length_cons]
        omega
      exact (ih before.length hlt hbefore hbase hv rfl).append _
    rcases (managerInvariant h).files_hold file with
      ⟨hinit, -⟩ | ⟨i, kf', hkf', ⟨-, before, after, htrace, hauth, -⟩, hsaves⟩
    · exact Or.inl ⟨file, kf, hinit ▸ hfile, hvalue⟩
    · obtain rfl : kf = kf' := Option.some.inj (hfile.symm.trans hkf')
      cases hsaves with
      | write hmethod hparse =>
        exact Or.inr ⟨i, _, before, after, hmethod, htrace, hauth, kf, hparse, hvalue⟩
      | change hmethod hbase =>
        rcases Request.change_writes hlib hvalue with hold | hwrites
        · exact hloaded i _ _ hbase hold
        · exact Or.inr ⟨i, _, before, after, hmethod, htrace, hauth, hwrites⟩
      | copy hmethod hcopied => exact hloaded i _ _ hcopied hvalue

/-- A reader of canonical numbers and truth values. -/
def keyFileReader : KeyFileReader where
  readInt text := if decimal (strtol text) = text then some (strtol text) else none
  readBool text :=
    if text = bytes "true" then some true else if text = bytes "false" then some false else none

/-- Two administrators set the length limits and the strong-password flag, and a dialog asks for
the limits. -/
def dialogMethod : Fin 3 → Method
  | 0 => .change (.setLengthLimit 8 16)
  | 1 => .change (.setEnabled true)
  | 2 => .getLengthLimit

/-- The second administrator's call loads the file after the first one's has saved. -/
def dialogCalls : List (ManagerEvent (Fin 3)) :=
  [(0, .authorise), (1, .authorise), (0, .load), (0, .change)] ++ (0, .save) ::
    ([(1, .load), (1, .change), (1, .save)] ++ (2, .load) :: [(2, .answer)])

/-- An empty configuration and no backup. -/
def emptyFiles : Files := ⟨some emptyKeyFile, none⟩

private theorem dialogRun : ∃ s, ManagerRun keyFileReader unparsed dialogMethod emptyFiles
    dialogCalls s ∧ (∃ kf, s.files.get .conf = some kf ∧
      kf pwdConfSection (bytes "PASSWORD_MIN_LENGTH") = some (bytes "8")) ∧
    ∃ reply, s.stage 2 = .replied reply ∧ reply.isSome = true := by
  obtain ⟨s, hexec, kf, hfile, hvalue, reply, hreply, hsome⟩ : ∃ s,
      Trace.exec (managerStep keyFileReader unparsed dialogMethod)
        (ManagerState.start (Fin 3) emptyFiles) dialogCalls = some s ∧
      ∃ kf, s.files.get .conf = some kf ∧
        kf pwdConfSection (bytes "PASSWORD_MIN_LENGTH") = some (bytes "8") ∧
      ∃ reply, s.stage 2 = .replied reply ∧ reply.isSome = true :=
    ⟨_, rfl, _, rfl, by decide, _, rfl, by decide⟩
  exact ⟨s, Trace.run_of_exec hexec, ⟨kf, hfile, hvalue⟩, reply, hreply, hsome⟩

/-- The limit of 8 characters comes from the first administrator. -/
theorem managerRun_values_dialogCalls : ValueFrom unparsed dialogMethod emptyFiles
    dialogCalls pwdConfSection (bytes "PASSWORD_MIN_LENGTH") (bytes "8") := by
  obtain ⟨s, hrun, ⟨kf, hfile, hvalue⟩, -⟩ := dialogRun
  exact managerRun_values (plainKeyFileLib_faithful _) hrun hfile hvalue

/-- A moment of a run at which the handler of a call did a step, and the state at that moment. -/
def Moment (reader : KeyFileReader) (lib : KeyFileLib) (method : ι → Method)
    (files : Files) (trace : List (ManagerEvent ι)) (e : ManagerEvent ι) (s : ManagerState ι) :
    Prop :=
  Trace.HappenedIn (managerStep reader lib method) (ManagerState.start ι files) trace e s

/-- A reply is made of one content which the configuration file had while the call was handled:
when a `Get` call loaded it, and when `ReadConfig` read it. -/
def ReadFrom (reader : KeyFileReader) (lib : KeyFileLib) (method : ι → Method)
    (files : Files) (trace : List (ManagerEvent ι)) (i : ι) (reply : Reply) : Prop :=
  ∃ moment kf, moment.files.conf = some kf ∧
    (method i = .readConfig ∧ reply = .content kf ∧
        Moment reader lib method files trace (i, .answer) moment ∨
      (method i).answer reader kf = some reply ∧
        Moment reader lib method files trace (i, .load) moment)

/-- **Replies.** A call that needs the authorisation replies only errors without it, and a call
that writes replies success only if it saved, `Reset` and `Backup` excepted. What the other
calls reply was in the configuration file while they were handled. -/
theorem managerRun_replies {trace : List (ManagerEvent ι)} {s : ManagerState ι}
    (h : ManagerRun reader lib method files trace s) {i : ι} {reply : Reply}
    (hreply : s.stage i = .replied (some reply)) :
    ((method i).needsAuth = true → (i, .authorise) ∈ trace) ∧
    (reply = .done ∧ (method i).target ≠ none ∧
        ((i, .save) ∈ trace ∨ method i = .reset ∨ method i = .backup) ∨
      ReadFrom reader lib method files trace i reply) := by
  have hholds := (managerInvariant h).stages_hold i
  rw [hreply] at hholds
  obtain ⟨hgranted, hjustified⟩ := hholds
  refine ⟨hgranted, ?_⟩
  have hanswer : (∃ kf, LoadedFrom reader lib method files trace i .conf kf ∧
      (method i).answer reader kf = some reply) →
      ReadFrom reader lib method files trace i reply := by
    rintro ⟨kf, ⟨moment, hmoment, hconf⟩, hreply⟩
    exact ⟨moment, kf, hconf, Or.inr ⟨hreply, hmoment⟩⟩
  cases reply with
  | done =>
    exact Or.inl ⟨rfl, hjustified.1, hjustified.2.imp id Method.eq_of_dropsSaveError⟩
  | content kf =>
    obtain ⟨hmethod, moment, hmoment, hconf⟩ := hjustified
    exact Or.inr ⟨moment, kf, hconf, Or.inl ⟨hmethod, rfl, hmoment⟩⟩
  | limits minLength maxLength => exact Or.inr (hanswer hjustified)
  | policy validatePolicy => exact Or.inr (hanswer hjustified)
  | required validateRequired => exact Or.inr (hanswer hjustified)
  | flag enable => exact Or.inr (hanswer hjustified)

/-- The dialog shows limits that the file had. -/
theorem managerRun_replies_dialogCalls : ∃ reply,
    ReadFrom keyFileReader unparsed dialogMethod emptyFiles dialogCalls 2 reply := by
  obtain ⟨s, hrun, -, reply, hreply, hsome⟩ := dialogRun
  obtain ⟨reply, rfl⟩ := Option.isSome_iff_exists.mp hsome
  rcases (managerRun_replies hrun hreply).2 with ⟨-, hne, -⟩ | hread
  · exact absurd rfl hne
  · exact ⟨reply, hread⟩

/-- **Calls that do not count.** Take the calls out of a run that were not authorised or that
save nothing: the others do the same and leave the same files. -/
theorem managerRun_filter {trace : List (ManagerEvent ι)} {s : ManagerState ι}
    (h : ManagerRun reader lib method files trace s) (keep : ι → Bool)
    (hkeep : ∀ i, (i, .authorise) ∈ trace → (method i).target ≠ none → keep i = true) :
    ∃ s', ManagerRun reader lib method files (trace.filter fun e => keep e.1) s' ∧
      s'.files = s.files ∧ ∀ i, keep i = true → s'.stage i = s.stage i := by
  induction h with
  | nil => exact ⟨_, .nil, rfl, fun _ _ => rfl⟩
  | @snoc trace s t e hrun he ih =>
    obtain ⟨s', hrun', hfiles, hstages⟩ := ih fun i hi => hkeep i (List.mem_append_left _ hi)
    obtain ⟨i, a⟩ := e
    obtain ⟨hstep, hothers⟩ := managerStep_cases he
    cases hi : keep i with
    | true =>
      -- The handler is in the same stage and sees the same files.
      unfold managerStep at he
      obtain ⟨next, hnext, rfl⟩ := Option.map_eq_some_iff.mp he
      have he' : managerStep reader lib method s' (i, a) =
          some ⟨next.2, Function.update s'.stage i next.1⟩ := by
        unfold managerStep
        rw [hfiles, hstages i hi, hnext]
        rfl
      refine ⟨⟨next.2, Function.update s'.stage i next.1⟩, ?_, rfl, ?_⟩
      · simpa [List.filter_append, hi] using hrun'.snoc he'
      · intro j hj
        by_cases hji : j = i
        · rw [hji]
          simp
        · simp [hji, hstages j hj]
    | false =>
      refine ⟨s', ?_, ?_, ?_⟩
      · simpa [List.filter_append, hi] using hrun'
      · rw [hfiles, hstep.files_eq]
        rintro rfl
        obtain ⟨file, kf, hsaved, htarget, -⟩ := hstep.of_save
        have hne := Method.target_of_saved hsaved
        have hgranted := (saves_of_saved ((managerInvariant hrun).stages_hold i) hsaved).1
        have hauth := hgranted (Method.needsAuth_of_target hne)
        rw [hkeep i (List.mem_append_left _ hauth) hne] at hi
        cases hi
      · intro j hj
        have hji : j ≠ i := by
          rintro rfl
          rw [hj] at hi
          cases hi
        rw [hstages j hj, hothers j hji]

/-- The administrators do the same without the dialog. -/
theorem managerRun_filter_dialogCalls : ∃ s s',
    ManagerRun keyFileReader unparsed dialogMethod emptyFiles dialogCalls s ∧
    ManagerRun keyFileReader unparsed dialogMethod emptyFiles
      (dialogCalls.filter fun e => decide (e.1 ≠ 2)) s' ∧ s'.files = s.files := by
  obtain ⟨s, hrun, -⟩ := dialogRun
  obtain ⟨s', hrun', hfiles, -⟩ := managerRun_filter hrun (fun i => decide (i ≠ 2)) (by decide)
  exact ⟨s, s', hrun, hrun', hfiles⟩

/-- The `Get` method that belongs to a `Set` call, and the reply with the values that were set. -/
def Request.reading : Request → Option (Method × Reply)
  | setLengthLimit minLength maxLength => some (.getLengthLimit, .limits minLength maxLength)
  | setValidatePolicy validatePolicy => some (.getValidatePolicy, .policy validatePolicy)
  | setValidateRequired validateRequired =>
      some (.getValidateRequired, .required validateRequired)
  | setEnabled enable => some (.getEnabled, .flag enable)
  | setFirstLetterUpper enable => some (.getFirstLetterUpper, .flag enable)
  | writeConfig _ => none

/-- A number that fits into an `int`. -/
def FitsInt (z : ℤ) : Prop := -2 ^ 63 ≤ z ∧ z < 2 ^ 63

/-- The numbers of a request are of the type `int`. -/
def Request.FitsInt : Request → Prop
  | setLengthLimit minLength maxLength =>
      DeepinPwCheck.FitsInt minLength ∧ DeepinPwCheck.FitsInt maxLength
  | setValidateRequired validateRequired => DeepinPwCheck.FitsInt validateRequired
  | _ => True

/-- `GetInt` and `GetBool` read what `SetInt` and `SetBool` write. -/
structure KeyFileReader.Faithful (reader : KeyFileReader) : Prop where
  readInt_decimal : ∀ z, FitsInt z → reader.readInt (decimal z) = some z
  readBool_true : reader.readBool (bytes "true") = some true
  readBool_false : reader.readBool (bytes "false") = some false

theorem keyFileReader_faithful : keyFileReader.Faithful := by
  refine ⟨?_, ?_, ?_⟩
  · intro z hz
    have hread : strtol (decimal z) = z := strtol_decimal hz.1 hz.2
    simp [keyFileReader, hread]
  · simp [keyFileReader]
  · have hne : bytes "false" ≠ bytes "true" := by decide
    simp [keyFileReader, hne]

/-- A request sets the value of a key. -/
def Request.Sets (request : Request) (name key : Bytes) : Prop :=
  request.values name key ≠ none

/-- A content has all the values that a request sets. -/
def Request.Holds (request : Request) (kf : KeyFile) : Prop :=
  ∀ name key, request.Sets name key →
    kf name key = request.values name key

/-- A request sets its own values. It holds at the moment of the save. -/
theorem Request.holds_change (hlib : lib.Faithful) (request : Request) (kf : KeyFile) :
    request.Holds (request.change lib kf) := by
  intro name key hsets
  rw [Request.change_eq_or hlib]
  obtain ⟨value, hvalue⟩ := Option.ne_none_iff_exists'.mp hsets
  rw [hvalue, Option.some_or]

/-- A request that sets other keys leaves the values. It covers the calls that save between a
`Set` and the `Get` that matches it. -/
theorem Request.Holds.change (hlib : lib.Faithful) {request other : Request} {kf : KeyFile}
    (h : request.Holds kf)
    (hother : ∀ name key, request.Sets name key → ¬ other.Sets name key) :
    request.Holds (other.change lib kf) := by
  intro name key hsets
  rw [Request.change_eq_or hlib, not_not.mp (hother name key hsets), Option.none_or]
  exact h name key hsets

/-- What the `Get` method replies for a content with the values that were set. The reader gives
back the numbers and flags that were written as text. -/
theorem Request.Holds.answer {reader : KeyFileReader} (hreader : reader.Faithful)
    {request : Request} (hfits : request.FitsInt) {kf : KeyFile} (h : request.Holds kf)
    {getter : Method} {reply : Reply} (hget : request.reading = some (getter, reply)) :
    getter.answer reader kf = some reply := by
  have hvalue : ∀ key value, request.values pwdConfSection key = some value →
      kf pwdConfSection key = some value := by
    intro key value hset
    rw [h pwdConfSection key (by simp [Request.Sets, hset]), hset]
  have hbool : ∀ enable : Bool,
      reader.readBool (flagText enable) = some enable := by
    intro enable
    cases enable with
    | false => exact hreader.readBool_false
    | true => exact hreader.readBool_true
  cases request with
  | setLengthLimit minLength maxLength =>
    cases hget
    have hkeys : bytes "PASSWORD_MIN_LENGTH" ≠ bytes "PASSWORD_MAX_LENGTH" := by decide
    have hmin := hvalue (bytes "PASSWORD_MIN_LENGTH") (decimal minLength) (by
      simp [Request.values, Request.change, unparsed, plainKeyFileLib, KeyFile.set, hkeys])
    have hmax := hvalue (bytes "PASSWORD_MAX_LENGTH") (decimal maxLength) (by
      simp [Request.values, Request.change, unparsed, plainKeyFileLib, KeyFile.set])
    simp [Method.answer, KeyFile.getInt, hmin, hmax, hreader.readInt_decimal _ hfits.1,
      hreader.readInt_decimal _ hfits.2]
  | setValidatePolicy validatePolicy =>
    cases hget
    have hpolicy := hvalue (bytes "VALIDATE_POLICY") validatePolicy (by
      simp [Request.values, Request.change, unparsed, plainKeyFileLib, KeyFile.set])
    simp [Method.answer, hpolicy]
  | setValidateRequired validateRequired =>
    cases hget
    have hrequired := hvalue (bytes "VALIDATE_REQUIRED") (decimal validateRequired) (by
      simp [Request.values, Request.change, unparsed, plainKeyFileLib, KeyFile.set])
    simp [Method.answer, KeyFile.getInt, hrequired, hreader.readInt_decimal _ hfits]
  | setEnabled enable =>
    cases hget
    have henabled := hvalue (bytes "STRONG_PASSWORD") _ (by
      simp only [Request.values, Request.change, unparsed, plainKeyFileLib, KeyFile.set, and_self,
        if_true]
      rfl)
    simp only [Method.answer, KeyFile.getBool, henabled, Option.bind_some, hbool, Option.map_some]
  | setFirstLetterUpper enable =>
    cases hget
    have henabled := hvalue (bytes "FIRST_LETTER_UPPERCASE") _ (by
      simp only [Request.values, Request.change, unparsed, plainKeyFileLib, KeyFile.set, and_self,
        if_true]
      rfl)
    simp only [Method.answer, KeyFile.getBool, henabled, Option.bind_some, hbool, Option.map_some]
  | writeConfig data => cases hget

/-- The `Get` methods load the configuration file and reply with its values. What is replied is
therefore decided at the load. -/
theorem Request.answers_of_reading {request : Request} {getter : Method} {reply : Reply}
    (h : request.reading = some (getter, reply)) :
    getter.answers = true ∧ getter.source = some .conf ∧ request.loads = true := by
  cases request <;> cases h <;> exact ⟨rfl, rfl, rfl⟩

/-- Another request leaves the keys that a request sets. -/
def Request.Leaves (request other : Request) : Prop :=
  ∀ name key, request.Sets name key → ¬ other.Sets name key

/-- Every call that saves the configuration file has loaded it before that, and sets other
keys. -/
def Respects (method : ι → Method) (request : Request) (middle : List (ManagerEvent ι)) : Prop :=
  ∀ k seen rest, middle = seen ++ (k, .save) :: rest → (method k).target = some .conf →
    ∃ other, method k = .change other ∧ (k, .load) ∈ seen ∧ request.Leaves other

/-- A handler that has loaded the file holds the values of a request. -/
def Stage.Keeps (request : Request) : Stage → Prop
  | .loaded kf => request.Holds kf
  | .changed kf => request.Holds kf
  | .replied _ => True
  | _ => False

/-- The values of a request are in the configuration file, and with the handlers that have
loaded it since. -/
structure Kept (method : ι → Method) (request : Request) (seen : List (ManagerEvent ι))
    (s : ManagerState ι) : Prop where
  conf : ∃ kf, s.files.conf = some kf ∧ request.Holds kf
  stages : ∀ k other, method k = .change other → request.Leaves other → (k, .load) ∈ seen →
    (s.stage k).Keeps request

/-- A `Set` call that saves leaves its values in the configuration file. The values are there at
the moment of the save, before any other call. -/
theorem conf_after_save (hlib : lib.Faithful) {trace : List (ManagerEvent ι)}
    {s t : ManagerState ι} {i : ι} {request : Request}
    (hrun : ManagerRun reader lib method files trace s)
    (he : managerStep reader lib method s (i, .save) = some t)
    (hmethod : method i = .change request) (hloads : request.loads = true) :
    ∃ kf, t.files.conf = some kf ∧ request.Holds kf := by
  obtain ⟨file, kf, hsaved, htarget, hfiles, -⟩ := (managerStep_cases he).1.of_save
  rw [hmethod] at htarget
  cases htarget
  refine ⟨kf, by rw [hfiles]; rfl, ?_⟩
  cases (saves_of_saved ((managerInvariant hrun).stages_hold i) hsaved).2 with
  | write hwrite _ =>
    cases hmethod.symm.trans hwrite
    cases hloads
  | change hchange _ =>
    cases hmethod.symm.trans hchange
    exact request.holds_change hlib _
  | copy hcopy _ =>
    rcases hcopy with ⟨hreset, -⟩ | ⟨hbackup, -⟩
    · cases hmethod.symm.trans hreset
    · cases hmethod.symm.trans hbackup

/-- A step of a call keeps the values of a request, if its save does. The run between the two
calls is an induction with this step. -/
theorem Kept.step (hlib : lib.Faithful) {request : Request} {seen : List (ManagerEvent ι)}
    {s t : ManagerState ι} {i : ι} {a : ManagerAction} (h : Kept method request seen s)
    (he : managerStep reader lib method s (i, a) = some t)
    (hsave : a = .save → (method i).target = some .conf →
      ∃ other, method i = .change other ∧ (i, .load) ∈ seen ∧ request.Leaves other) :
    Kept method request (seen ++ [(i, a)]) t := by
  obtain ⟨hstep, hothers⟩ := managerStep_cases he
  refine ⟨?_, ?_⟩
  · by_cases ha : a = .save
    · subst ha
      obtain ⟨file, kf, hsaved, htarget, hfiles, -⟩ := hstep.of_save
      rw [hfiles]
      cases file with
      | backup => exact h.conf
      | conf =>
        obtain ⟨other, hother, hloaded, hleaves⟩ := hsave rfl htarget
        have hkeeps := h.stages i other hother hleaves hloaded
        rw [hother] at hsaved
        cases hstage : s.stage i <;> rw [hstage] at hsaved hkeeps <;> cases hsaved
        exact ⟨kf, rfl, hkeeps⟩
    · rw [hstep.files_eq ha]
      exact h.conf
  · intro k other hother hleaves hloaded
    -- Before this event the load can only be one of the calls so far.
    have hseen : a ≠ .load ∨ k ≠ i → (k, .load) ∈ seen := by
      intro hne
      rcases List.mem_append.mp hloaded with hmem | hmem
      · exact hmem
      · obtain ⟨rfl, rfl⟩ := Prod.mk.inj (List.mem_singleton.mp hmem)
        rcases hne with hne | hne
        · exact absurd rfl hne
        · exact absurd rfl hne
    by_cases hk : k = i
    · subst hk
      have hkeeps : a ≠ .load → (s.stage k).Keeps request :=
        fun ha => h.stages k other hother hleaves (hseen (Or.inl ha))
      revert hstep hkeeps
      generalize s.stage k = stage
      generalize t.stage k = stage'
      generalize t.files = files'
      intro hstep hkeeps
      cases hstep with
      | authorise _ => exact absurd (hkeeps (by decide)) id
      | @load stage file kf _ hsource hfile =>
        rw [hother, Method.source] at hsource
        split_ifs at hsource
        cases hsource
        obtain ⟨kf', hconf, hholds⟩ := h.conf
        cases hconf.symm.trans hfile
        exact hholds
      | write _ _ => exact absurd (hkeeps (by decide)) id
      | change hchange =>
        cases hother.symm.trans hchange
        exact (hkeeps (by decide)).change hlib hleaves
      | _ => trivial
    · rw [hothers k hk]
      exact h.stages k other hother hleaves (hseen (Or.inr hk))

/-- A handler that has replied takes no more steps. A reply is final. -/
theorem HandlerStep.not_replied {method : Method} {stage' : Stage} {files' : Files}
    {a : ManagerAction} {reply : Option Reply} :
    ¬ HandlerStep reader lib method files (.replied reply) a stage' files' := by
  intro h
  cases h with
  | load hbegins _ _ => exact hbegins
  | loadFails hbegins _ => exact hbegins
  | save hsaved _ => cases method <;> cases hsaved
  | saveFails hsaved => cases method <;> cases hsaved

/-- A `Get` method that has loaded the file can only reply. Its reply is therefore fixed by the
content that it has loaded. -/
theorem HandlerStep.of_answers {method : Method} {stage' : Stage} {files' : Files}
    {a : ManagerAction} {kf : KeyFile} (hanswers : method.answers = true)
    (h : HandlerStep reader lib method files (.loaded kf) a stage' files') :
    a = .answer ∧ stage' = .replied (method.answer reader kf) := by
  cases h with
  | load hbegins _ _ => exact absurd hbegins id
  | loadFails hbegins _ => exact absurd hbegins id
  | change hmethod =>
    rw [hmethod] at hanswers
    cases hanswers
  | save hsaved _ => cases method <;> cases hanswers <;> cases hsaved
  | saveFails hsaved => cases method <;> cases hanswers <;> cases hsaved
  | answer _ => exact ⟨rfl, rfl⟩
  | content hmethod =>
    rw [hmethod] at hanswers
    cases hanswers
  | answerFails hmethod =>
    rw [hmethod] at hanswers
    cases hanswers

/-- A `Get` call replies for the content that it has loaded, whatever happens meanwhile. Later
saves of others do not reach it. -/
theorem replied_of_loaded {s t : ManagerState ι} {after : List (ManagerEvent ι)} {j : ι}
    {kf : KeyFile} (hanswers : (method j).answers = true) (hloaded : s.stage j = .loaded kf)
    (hrun : Trace.Run (managerStep reader lib method) s after t)
    (hanswer : (j, .answer) ∈ after) : t.stage j = .replied ((method j).answer reader kf) := by
  have hinv : t.stage j = .loaded kf ∧ (j, .answer) ∉ after ∨
      t.stage j = .replied ((method j).answer reader kf) := by
    apply Trace.Run.invariant (P := fun after t => t.stage j = .loaded kf ∧ (j, .answer) ∉ after ∨
      t.stage j = .replied ((method j).answer reader kf)) _ _ hrun
    · exact Or.inl ⟨hloaded, List.not_mem_nil⟩
    · rintro after t ⟨i, a⟩ t' - hinv he
      obtain ⟨hstep, hothers⟩ := managerStep_cases he
      by_cases hi : i = j
      · subst hi
        rcases hinv with ⟨hstage, -⟩ | hstage
        · rw [hstage] at hstep
          exact Or.inr (hstep.of_answers hanswers).2
        · rw [hstage] at hstep
          exact absurd hstep HandlerStep.not_replied
      · rw [hothers j (Ne.symm hi)]
        refine hinv.imp ?_ id
        rintro ⟨hstage, hnot⟩
        refine ⟨hstage, ?_⟩
        rw [List.mem_append, List.mem_singleton]
        rintro (hmem | hmem)
        · exact hnot hmem
        · exact hi (Prod.mk.inj hmem).1.symm
  rcases hinv with ⟨-, hnot⟩ | hreplied
  · exact absurd hanswer hnot
  · exact hreplied

/-- **`Get` after `Set`.** Once a `Set` call has saved, its `Get` call replies the values that
were set, for whatever calls overlap with the two of them, if those that save the configuration
file in between have loaded it since and set other keys. -/
theorem get_after_set (hreader : reader.Faithful) (hlib : lib.Faithful)
    {before middle after : List (ManagerEvent ι)} {s : ManagerState ι} {i j : ι}
    {request : Request} {reply : Reply} (hmethod : method i = .change request)
    (hfits : request.FitsInt)
    (hget : request.reading = some (method j, reply)) (hmiddle : Respects method request middle)
    (hrun : ManagerRun reader lib method files
      (before ++ (i, .save) :: (middle ++ (j, .load) :: after)) s)
    (hanswer : (j, .answer) ∈ after) : s.stage j = .replied (some reply) := by
  obtain ⟨hanswers, hsource, hloads⟩ := Request.answers_of_reading hget
  obtain ⟨s₁, hbefore, hrest⟩ := hrun.of_append
  obtain ⟨s₂, hsave, hrest⟩ := hrest.of_cons
  obtain ⟨s₃, hmid, hrest⟩ := hrest.of_append
  obtain ⟨s₄, hload, hafter⟩ := hrest.of_cons
  have hkept : Kept method request middle s₃ := by
    refine (Trace.Run.invariant (P := fun seen s => ∀ rest, middle = seen ++ rest →
      Kept method request seen s) ?_ ?_ hmid) [] (List.append_nil _).symm
    · intro rest _
      refine ⟨conf_after_save hlib hbefore hsave hmethod hloads, ?_⟩
      intro k other _ _ hmem
      cases hmem
    · rintro seen s ⟨k, a⟩ s' - hseen he rest hrest
      rw [List.append_assoc, List.singleton_append] at hrest
      refine (hseen _ hrest).step hlib he ?_
      rintro rfl htarget
      exact hmiddle k seen rest hrest htarget
  obtain ⟨kf, hconf, hholds⟩ := hkept.conf
  have hloaded : s₄.stage j = .loaded kf := by
    obtain ⟨file, kf', hfrom, hfile, hstage⟩ := (managerStep_cases hload).1.of_load
    cases hsource.symm.trans hfrom
    cases hconf.symm.trans hfile
    exact hstage
  rw [replied_of_loaded hanswers hloaded hafter hanswer,
    hholds.answer hreader hfits hget]

private theorem respects_dialogCalls : Respects dialogMethod (.setLengthLimit 8 16)
    [(1, .load), (1, .change), (1, .save)] := by
  intro k seen rest heq _
  obtain ⟨rfl, rfl⟩ : k = 1 ∧ seen = [(1, .load), (1, .change)] := by
    simp only [List.cons_eq_append_iff, List.cons.injEq, Prod.mk.injEq, List.nil_eq_append_iff,
      reduceCtorEq, and_false, false_and, false_or, exists_false, or_false] at heq
    simp_all
  refine ⟨.setEnabled true, rfl, by simp, ?_⟩
  intro name key hsets hother
  obtain ⟨value, hvalue⟩ := Option.ne_none_iff_exists'.mp hsets
  obtain ⟨-, rfl⟩ : name = pwdConfSection ∧ key = bytes "STRONG_PASSWORD" := by
    by_contra hne
    exact hother (if_neg hne)
  revert hvalue
  simp only [Request.values, Request.change, unparsed, plainKeyFileLib, KeyFile.set, emptyKeyFile]
  have hmin : bytes "STRONG_PASSWORD" ≠ bytes "PASSWORD_MIN_LENGTH" := by decide
  have hmax : bytes "STRONG_PASSWORD" ≠ bytes "PASSWORD_MAX_LENGTH" := by decide
  simp [hmin, hmax]

/-- The dialog shows the limits that the first administrator has set. -/
theorem get_after_set_dialogCalls : ∃ s,
    ManagerRun keyFileReader unparsed dialogMethod emptyFiles dialogCalls s ∧
      s.stage 2 = .replied (some (.limits 8 16)) := by
  obtain ⟨s, hrun, -⟩ := dialogRun
  have hmethod : dialogMethod 0 = .change (.setLengthLimit 8 16) := rfl
  have hget : Request.reading (.setLengthLimit 8 16) = some (dialogMethod 2, .limits 8 16) := rfl
  have hfits : Request.FitsInt (.setLengthLimit 8 16) := by
    simp [Request.FitsInt, FitsInt]
  exact ⟨s, hrun, get_after_set keyFileReader_faithful (plainKeyFileLib_faithful _) hmethod hfits
    hget respects_dialogCalls hrun (by simp)⟩

end DeepinPwCheck
