import DeepinPwCheck.Runs.Trace
import DeepinPwCheck.Service.Requests
import Mathlib.Logic.Function.Basic

/-!
# Concurrent requests

Each call runs in a goroutine of its own, and no handler excludes another. A run interleaves
the steps of any number of handlers: the authorisation, the load of the file, the change in
memory and the save. Load and save are atomic on the file, but another handler can save
between them.
-/

namespace DeepinPwCheck

open CText

/-- How far the handler of a call has come. -/
inductive Phase where
  | waiting
  | authorised
  | loaded (kf : KeyFile)
  | changed (kf : KeyFile)
  | succeeded
  | failed

/-- The steps of a handler and their outcomes. -/
inductive Action where
  | authorise
  | refuse
  | load
  | loadFails
  | change
  | save
  | saveFails
  deriving DecidableEq, Repr

/-- One step of a handler on the file: its next phase and the file afterwards. For a
`WriteConfig` call the change is `LoadFromData`, which can reject the data. -/
def handle (lib : KeyFileLib) (request : Request) (file : KeyFile) :
    Phase → Action → Option (Phase × KeyFile)
  | .waiting, .authorise => some (.authorised, file)
  | .waiting, .refuse => some (.failed, file)
  | .authorised, .load => if request.loads then some (.loaded file, file) else none
  | .authorised, .loadFails => if request.loads then some (.failed, file) else none
  | .authorised, .change =>
      match request with
      | .writeConfig data =>
          match lib.loadFromData data with
          | some kf => some (.changed kf, file)
          | none => some (.failed, file)
      | _ => none
  | .loaded kf, .change => some (.changed (request.change lib kf), file)
  | .changed kf, .save => some (.succeeded, kf)
  | .changed _, .saveFails => some (.failed, file)
  | _, _ => none

/-- The configuration file and the handlers of all calls. -/
structure ServiceState (ι : Type*) where
  file : KeyFile
  phase : ι → Phase

/-- An event of the service: a call and a step of its handler. -/
abbrev Event (ι : Type*) := ι × Action

/-- The service before any call is handled. -/
def ServiceState.start (ι : Type*) (file : KeyFile) : ServiceState ι := ⟨file, fun _ => .waiting⟩

variable {ι : Type*}

/-- The calls that saved, in the order of their saves. -/
def saves (trace : List (Event ι)) : List ι :=
  (trace.filter fun e => e.2 = .save).map Prod.fst

/-- The file is what the calls that were authorised and replied success make of the file at
the start, one after another in some order. -/
def Serialisable (lib : KeyFileLib) (request : ι → Request) (file : KeyFile)
    (trace : List (Event ι)) (s : ServiceState ι) : Prop :=
  ∃ order : List ι, order.Nodup ∧
    (∀ i, i ∈ order ↔ (i, .authorise) ∈ trace ∧ s.phase i = .succeeded) ∧
    s.file = order.foldl (fun kf i => (request i).apply lib kf) file

/-- A handler saves over what a call saved after the handler had loaded the file. -/
def Overwritten (trace : List (Event ι)) (j : ι) : Prop :=
  ∃ i before middle after, trace = before ++ (i, .load) :: (middle ++ (i, .save) :: after) ∧
    (j, Action.save) ∈ middle

/-- No handler saves between the load and the save of another one. -/
def Undisturbed (trace : List (Event ι)) : Prop := ∀ j, ¬ Overwritten trace j

/-- **What one step of a handler can do.** The invariant is proved by these cases and not by
unfolding the handler. -/
theorem handle_cases {lib : KeyFileLib} {request : Request} {file file' : KeyFile}
    {p p' : Phase} {a : Action} (h : handle lib request file p a = some (p', file')) :
    (p = .waiting ∧ a = .authorise ∧ p' = .authorised ∧ file' = file) ∨
    (p = .authorised ∧ a = .load ∧ request.loads = true ∧ p' = .loaded file ∧ file' = file) ∨
    (∃ data kf, p = .authorised ∧ a = .change ∧ request = .writeConfig data ∧
      lib.loadFromData data = some kf ∧ p' = .changed kf ∧ file' = file) ∨
    (∃ kf, p = .loaded kf ∧ a = .change ∧ p' = .changed (request.change lib kf) ∧ file' = file) ∨
    (∃ kf, p = .changed kf ∧ a = .save ∧ p' = .succeeded ∧ file' = kf) ∨
    (a ≠ .save ∧ p ≠ .succeeded ∧ p' = .failed ∧ file' = file) := by
  unfold handle at h
  split at h
  · cases h
    exact Or.inl ⟨rfl, rfl, rfl, rfl⟩
  · cases h
    exact Or.inr (Or.inr (Or.inr (Or.inr (Or.inr (by simp)))))
  · split_ifs at h with hloads
    cases h
    exact Or.inr (Or.inl ⟨rfl, rfl, hloads, rfl, rfl⟩)
  · split_ifs at h with hloads
    cases h
    exact Or.inr (Or.inr (Or.inr (Or.inr (Or.inr (by simp)))))
  · split at h
    · split at h
      · rename_i hparse
        cases h
        exact Or.inr (Or.inr (Or.inl ⟨_, _, rfl, rfl, rfl, hparse, rfl, rfl⟩))
      · cases h
        exact Or.inr (Or.inr (Or.inr (Or.inr (Or.inr (by simp)))))
    · cases h
  · rename_i kf
    cases h
    exact Or.inr (Or.inr (Or.inr (Or.inl ⟨kf, rfl, rfl, rfl, rfl⟩)))
  · rename_i kf
    cases h
    exact Or.inr (Or.inr (Or.inr (Or.inr (Or.inl ⟨_, rfl, rfl, rfl, rfl⟩))))
  · cases h
    exact Or.inr (Or.inr (Or.inr (Or.inr (Or.inr (by simp)))))
  · cases h

/-- What the saves of a trace can make of the file at the start: some of the saved requests,
the last one among them, are applied in the order of the saves. Those that are missing were
overwritten. -/
def SavedContent (lib : KeyFileLib) (request : ι → Request) (file : KeyFile)
    (trace : List (Event ι)) (kf : KeyFile) : Prop :=
  ∃ order : List ι, order.Sublist (saves trace) ∧ order.getLast? = (saves trace).getLast? ∧
    (∀ j ∈ saves trace, j ∉ order → Overwritten trace j) ∧
    kf = order.foldl (fun kf i => (request i).apply lib kf) file

/-- A handler has loaded what the saves before its load made of the file. -/
def Loaded (lib : KeyFileLib) (request : ι → Request) (file : KeyFile)
    (trace : List (Event ι)) (i : ι) (kf : KeyFile) : Prop :=
  ∃ before after, trace = before ++ (i, .load) :: after ∧
    SavedContent lib request file before kf

/-- What a handler holds in memory in each phase, and that it was authorised. -/
def Holds (lib : KeyFileLib) (request : ι → Request) (file : KeyFile)
    (trace : List (Event ι)) (i : ι) : Phase → Prop
  | .waiting => True
  | .authorised => (i, .authorise) ∈ trace
  | .loaded kf => (i, .authorise) ∈ trace ∧ (request i).loads = true ∧
      Loaded lib request file trace i kf
  | .changed kf => (i, .authorise) ∈ trace ∧
      (((request i).loads = true ∧ ∃ base, Loaded lib request file trace i base ∧
        kf = (request i).change lib base) ∨
      ∃ data, request i = .writeConfig data ∧ lib.loadFromData data = some kf)
  | .succeeded => (i, .authorise) ∈ trace
  | .failed => True

/-- The invariant of the service: the file is what the saves can make of it, the calls that
replied success are those that saved, once each, and every handler holds what it loaded. -/
structure ServiceInvariant (lib : KeyFileLib) (request : ι → Request)
    (file : KeyFile) (trace : List (Event ι)) (s : ServiceState ι) : Prop where
  file_eq : SavedContent lib request file trace s.file
  saves_nodup : (saves trace).Nodup
  mem_saves : ∀ i, i ∈ saves trace ↔ s.phase i = .succeeded
  holds : ∀ i, Holds lib request file trace i (s.phase i)

variable {lib : KeyFileLib} {request : ι → Request} {file : KeyFile}

private theorem saves_append (trace rest : List (Event ι)) :
    saves (trace ++ rest) = saves trace ++ saves rest := by
  unfold saves
  rw [List.filter_append, List.map_append]

private theorem mem_saves_iff {trace : List (Event ι)} {j : ι} :
    j ∈ saves trace ↔ (j, Action.save) ∈ trace := by
  simp [saves]

private theorem saves_snoc_save (trace : List (Event ι)) (i : ι) :
    saves (trace ++ [(i, .save)]) = saves trace ++ [i] := by
  rw [saves_append]
  rfl

private theorem saves_snoc_of_ne (trace : List (Event ι)) (i : ι) {a : Action}
    (ha : a ≠ .save) : saves (trace ++ [(i, a)]) = saves trace := by
  have hnil : saves [(i, a)] = [] := by simp [saves, ha]
  rw [saves_append, hnil, List.append_nil]

/-- What is overwritten stays so. The invariant is carried along the run by it. -/
theorem Overwritten.append {trace : List (Event ι)} {j : ι} (h : Overwritten trace j)
    (rest : List (Event ι)) : Overwritten (trace ++ rest) j := by
  obtain ⟨i, before, middle, after, rfl, hmem⟩ := h
  exact ⟨i, before, middle, after ++ rest, by simp, hmem⟩

private theorem Holds.snoc {trace : List (Event ι)} {i : ι} {p : Phase}
    (h : Holds lib request file trace i p) (e : Event ι) :
    Holds lib request file (trace ++ [e]) i p := by
  have hmem : ∀ x, x ∈ trace → x ∈ trace ++ [e] := fun x hx => List.mem_append_left _ hx
  have hloaded : ∀ kf, Loaded lib request file trace i kf →
      Loaded lib request file (trace ++ [e]) i kf := by
    rintro kf ⟨before, after, rfl, hkf⟩
    exact ⟨before, after ++ [e], by simp, hkf⟩
  cases p with
  | waiting => trivial
  | authorised => exact hmem _ h
  | loaded kf => exact ⟨hmem _ h.1, h.2.1, hloaded kf h.2.2⟩
  | changed kf =>
      refine ⟨hmem _ h.1, ?_⟩
      rcases h.2 with ⟨hloads, base, hbase, hkf⟩ | hwrite
      · exact Or.inl ⟨hloads, base, hloaded base hbase, hkf⟩
      · exact Or.inr hwrite
  | succeeded => exact hmem _ h
  | failed => trivial

/-- What a handler saves is what the saves with its own can make of the file. The order of the
saves that count is extended by the handler. -/
private theorem SavedContent.save {trace : List (Event ι)} {i : ι} {kf : KeyFile}
    (h : Holds lib request file trace i (.changed kf)) :
    SavedContent lib request file (trace ++ [(i, .save)]) kf := by
  rcases h.2 with ⟨hloads, base, ⟨before, after, rfl, order, hsub, -, hall, rfl⟩, rfl⟩ |
    ⟨data, hwrite, hparse⟩
  · refine ⟨order ++ [i], ?_, ?_, ?_, ?_⟩
    · rw [saves_snoc_save, saves_append]
      exact (hsub.trans (List.sublist_append_left _ _)).append (List.Sublist.refl _)
    · rw [saves_snoc_save, List.getLast?_concat, List.getLast?_concat]
    · intro j hj hmissing
      obtain ⟨hold, hne⟩ : j ∉ order ∧ j ≠ i := by simpa using hmissing
      rw [saves_snoc_save, saves_append, List.mem_append, List.mem_append] at hj
      -- The saves after the load are overwritten by this one.
      rcases hj with (hj | hj) | hj
      · rw [List.append_assoc]
        exact (hall j hj hold).append _
      · have hafter : (j, Action.save) ∈ after := by simpa [mem_saves_iff] using hj
        exact ⟨i, before, after, [], by simp, hafter⟩
      · exact absurd (List.mem_singleton.mp hj) hne
    · rw [List.foldl_append, List.foldl_cons, List.foldl_nil, Request.apply_of_loads hloads]
  · refine ⟨saves trace ++ [i], ?_, ?_, ?_, ?_⟩
    · rw [saves_snoc_save]
    · rw [saves_snoc_save]
    · intro j hj hmissing
      rw [saves_snoc_save] at hj
      exact absurd hj hmissing
    · rw [List.foldl_append, List.foldl_cons, List.foldl_nil, hwrite, Request.apply, hparse]
      rfl

private theorem SavedContent.snoc {trace : List (Event ι)} {i : ι} {a : Action} {kf : KeyFile}
    (h : SavedContent lib request file trace kf) (ha : a ≠ .save) :
    SavedContent lib request file (trace ++ [(i, a)]) kf := by
  obtain ⟨order, hsub, hlast, hall, hkf⟩ := h
  refine ⟨order, ?_, ?_, ?_, hkf⟩
  · rwa [saves_snoc_of_ne trace i ha]
  · rwa [saves_snoc_of_ne trace i ha]
  · intro j hj hmissing
    rw [saves_snoc_of_ne trace i ha] at hj
    exact (hall j hj hmissing).append _

/-- A save writes what the handler has changed and ends it with success. The two lemmas split the
steps of a handler for the invariant. -/
private theorem handle_of_save {request : Request} {file file' : KeyFile} {p p' : Phase}
    (h : handle lib request file p .save = some (p', file')) :
    p = .changed file' ∧ p' = .succeeded := by
  rcases handle_cases h with ⟨-, hsave, -⟩ | ⟨-, hsave, -⟩ | ⟨_, _, -, hsave, -⟩ |
    ⟨_, -, hsave, -⟩ | ⟨kf, hp, -, hp', rfl⟩ | ⟨hsave, -⟩
  · cases hsave
  · cases hsave
  · cases hsave
  · cases hsave
  · exact ⟨hp, hp'⟩
  · exact absurd rfl hsave

/-- A step that is not a save keeps the file and does not end a handler with success. The sequence
of saves is not changed by it. -/
private theorem handle_of_ne_save {request : Request} {file file' : KeyFile} {p p' : Phase}
    {a : Action} (h : handle lib request file p a = some (p', file')) (ha : a ≠ .save) :
    file' = file ∧ p ≠ .succeeded ∧ p' ≠ .succeeded := by
  rcases handle_cases h with ⟨rfl, -, rfl, rfl⟩ | ⟨rfl, -, -, rfl, rfl⟩ |
    ⟨_, _, rfl, -, -, -, rfl, rfl⟩ | ⟨_, rfl, -, rfl, rfl⟩ | ⟨_, -, rfl, -, -⟩ |
    ⟨-, hp, rfl, rfl⟩
  · simp
  · simp
  · simp
  · simp
  · exact absurd rfl ha
  · exact ⟨rfl, hp, by simp⟩

/-- A step of a handler keeps what it holds in memory. Other handlers may have saved in between,
so it only refers to the past. -/
private theorem Holds.step {trace : List (Event ι)} {s : ServiceState ι} {i : ι} {a : Action}
    {p' : Phase} {file' : KeyFile} (hfile : SavedContent lib request file trace s.file)
    (hholds : Holds lib request file trace i (s.phase i))
    (h : handle lib (request i) s.file (s.phase i) a = some (p', file')) :
    Holds lib request file (trace ++ [(i, a)]) i p' := by
  have hnew : (i, a) ∈ trace ++ [(i, a)] := by simp
  have hbefore := hholds.snoc (i, a)
  rcases handle_cases h with ⟨-, rfl, rfl, -⟩ | ⟨hp, rfl, hloads, rfl, -⟩ |
    ⟨data, kf, hp, rfl, hwrite, hparse, rfl, -⟩ | ⟨kf, hp, rfl, rfl, -⟩ | ⟨kf, hp, rfl, rfl, -⟩ |
    ⟨-, -, rfl, -⟩
  · exact hnew
  · rw [hp] at hbefore
    exact ⟨hbefore, hloads, trace, [], rfl, hfile⟩
  · rw [hp] at hbefore
    exact ⟨hbefore, Or.inr ⟨data, hwrite, hparse⟩⟩
  · rw [hp] at hbefore
    exact ⟨hbefore.1, Or.inl ⟨hbefore.2.1, kf, hbefore.2.2, rfl⟩⟩
  · rw [hp] at hbefore
    exact hbefore.1
  · trivial

section

variable [DecidableEq ι]

/-- One step of the service: the handler of one call takes a step. -/
def serviceStep (lib : KeyFileLib) (request : ι → Request) (s : ServiceState ι)
    (e : Event ι) : Option (ServiceState ι) :=
  (handle lib (request e.1) s.file (s.phase e.1) e.2).map fun next =>
    ⟨next.2, Function.update s.phase e.1 next.1⟩

/-- A run of the service from a file. -/
abbrev ServiceRun (lib : KeyFileLib) (request : ι → Request) (file : KeyFile) :
    List (Event ι) → ServiceState ι → Prop :=
  Trace.Run (serviceStep lib request) (ServiceState.start ι file)

/-- What one step of the service does: one handler takes a step on the file, and the others
stay where they are. -/
theorem serviceStep_cases {lib : KeyFileLib} {request : ι → Request}
    {s s' : ServiceState ι} {i : ι} {a : Action}
    (h : serviceStep lib request s (i, a) = some s') :
    handle lib (request i) s.file (s.phase i) a = some (s'.phase i, s'.file) ∧
      ∀ j, j ≠ i → s'.phase j = s.phase j := by
  unfold serviceStep at h
  obtain ⟨next, hnext, rfl⟩ := Option.map_eq_some_iff.mp h
  refine ⟨?_, ?_⟩
  · rw [hnext]
    simp
  · intro j hj
    exact Function.update_of_ne hj _ _

/-- Every step of the service keeps the invariant. The cases are those of the handler that takes
the step. -/
theorem ServiceInvariant.step {trace : List (Event ι)} {s s' : ServiceState ι} {e : Event ι}
    (h : ServiceInvariant lib request file trace s)
    (he : serviceStep lib request s e = some s') :
    ServiceInvariant lib request file (trace ++ [e]) s' := by
  obtain ⟨i, a⟩ := e
  obtain ⟨hhandle, hothers⟩ := serviceStep_cases he
  have hholds : ∀ j, Holds lib request file (trace ++ [(i, a)]) j (s'.phase j) := by
    intro j
    by_cases hj : j = i
    · rw [hj]
      exact Holds.step h.file_eq (h.holds i) hhandle
    · rw [hothers j hj]
      exact (h.holds j).snoc _
  by_cases ha : a = .save
  · subst ha
    obtain ⟨hp, hp'⟩ := handle_of_save hhandle
    have hchanged := h.holds i
    rw [hp] at hchanged
    have hnew : i ∉ saves trace := by
      rw [h.mem_saves i, hp]
      simp
    refine ⟨SavedContent.save hchanged, ?_, ?_, hholds⟩
    · rw [saves_snoc_save]
      exact List.nodup_append'.mpr ⟨h.saves_nodup, List.nodup_singleton i, by simpa using hnew⟩
    · intro j
      rw [saves_snoc_save, List.mem_append, List.mem_singleton]
      by_cases hj : j = i
      · rw [hj, hp']
        simp
      · rw [hothers j hj, h.mem_saves j]
        simp [hj]
  · obtain ⟨hfile, hp, hp'⟩ := handle_of_ne_save hhandle ha
    refine ⟨?_, ?_, ?_, hholds⟩
    · rw [hfile]
      exact h.file_eq.snoc ha
    · rw [saves_snoc_of_ne trace i ha]
      exact h.saves_nodup
    · intro j
      rw [saves_snoc_of_ne trace i ha, h.mem_saves j]
      by_cases hj : j = i
      · rw [hj]
        exact iff_of_false hp hp'
      · rw [hothers j hj]

/-- The invariant holds along every run of the service. All parts of the theorem on saves are read
off it. -/
theorem serviceInvariant {trace : List (Event ι)} {s : ServiceState ι}
    (h : ServiceRun lib request file trace s) :
    ServiceInvariant lib request file trace s := by
  apply Trace.Run.invariant (P := ServiceInvariant lib request file) _ _ h
  · refine ⟨⟨[], List.nil_sublist _, rfl, ?_, rfl⟩, List.nodup_nil, ?_, fun _ => trivial⟩
    · intro j hj
      cases hj
    · intro i
      simp [saves, ServiceState.start]
  · intro trace s e s' _ hinv he
    exact hinv.step he

/-- **What concurrent requests can do to the file.** The calls that saved are those that were
authorised and replied success, once each. In every run the file is what some of them, the
last one to save among them, make of the file at the start in the order of their saves; the
others were overwritten. When no handler saves between the load and the save of another one,
it is all of them. -/
theorem serviceRun_saves {trace : List (Event ι)} {s : ServiceState ι}
    (h : ServiceRun lib request file trace s) :
    ((saves trace).Nodup ∧
      ∀ i, i ∈ saves trace ↔ (i, .authorise) ∈ trace ∧ s.phase i = .succeeded) ∧
    SavedContent lib request file trace s.file ∧
    (Undisturbed trace → Serialisable lib request file trace s) := by
  have hinv := serviceInvariant h
  have hmem : ∀ i, i ∈ saves trace ↔ (i, .authorise) ∈ trace ∧ s.phase i = .succeeded := by
    intro i
    rw [hinv.mem_saves i]
    constructor
    · intro hp
      have hholds := hinv.holds i
      rw [hp] at hholds
      exact ⟨hholds, hp⟩
    · exact And.right
  refine ⟨⟨hinv.saves_nodup, hmem⟩, hinv.file_eq, ?_⟩
  intro hund
  obtain ⟨order, hsub, -, hall, hfile⟩ := hinv.file_eq
  have hsubset : saves trace ⊆ order := by
    intro j hj
    by_contra hmissing
    exact hund j (hall j hj hmissing)
  obtain rfl : order = saves trace :=
    hsub.eq_of_length_le (hinv.saves_nodup.length_le_of_subset hsubset)
  exact ⟨saves trace, hinv.saves_nodup, hmem, hfile⟩

end

/-- Two administrators: one sets the length limits, the other one the strong-password flag. -/
def overlappingRequest : Bool → Request
  | false => .setLengthLimit 8 16
  | true => .setEnabled true

/-- Both handlers load the file before one of them saves it. -/
def overlappingCalls : List (Event Bool) :=
  [(false, .authorise), (true, .authorise), (false, .load), (true, .load), (false, .change),
    (true, .change), (false, .save), (true, .save)]

/-- The calls of both administrators succeed, but the length limits are lost. -/
theorem overlappingCalls_not_serialisable :
    ¬ ∀ s : ServiceState Bool,
      ServiceRun unparsed overlappingRequest emptyKeyFile overlappingCalls s →
        Serialisable unparsed overlappingRequest emptyKeyFile overlappingCalls s := by
  intro h
  obtain ⟨s, hexec, hphase, hfile⟩ : ∃ s : ServiceState Bool,
      Trace.exec (serviceStep unparsed overlappingRequest)
        (ServiceState.start Bool emptyKeyFile) overlappingCalls = some s ∧
      (∀ i, s.phase i = .succeeded) ∧
      s.file = unparsed.setBool emptyKeyFile pwdConfSection (bytes "STRONG_PASSWORD") true := by
    refine ⟨_, rfl, ?_, rfl⟩
    intro i
    cases i <;> rfl
  obtain ⟨order, hnodup, hmem, horder⟩ := h s (Trace.run_of_exec hexec)
  have hall : ∀ i, i ∈ order := by
    intro i
    refine (hmem i).mpr ⟨?_, hphase i⟩
    cases i <;> decide
  have hperm : order.Perm [false, true] := by
    apply (List.perm_ext_iff_of_nodup hnodup (by decide)).mpr
    intro i
    cases i <;> simp [hall]
  obtain ⟨i, j, rfl⟩ := List.length_eq_two.mp hperm.length_eq
  have hlost : s.file pwdConfSection (bytes "PASSWORD_MIN_LENGTH") = none := by
    rw [hfile]
    decide
  rw [horder] at hlost
  cases i <;> cases j
  · simp at hnodup
  · revert hlost
    decide
  · revert hlost
    decide
  · simp at hnodup

/-- A length limit and a new configuration, the second one given as data. -/
def separateRequest : Bool → Request
  | false => .setLengthLimit 8 16
  | true => .writeConfig (bytes "[Password]\n")

/-- A library that finds a section without keys in that configuration. -/
def separateLib : KeyFileLib :=
  plainKeyFileLib fun data => if data = bytes "[Password]\n" then some emptyKeyFile else none

/-- The handlers overlap, but the second call saves after the first one. -/
def separateCalls : List (Event Bool) :=
  [(false, .authorise), (false, .load), (true, .authorise), (true, .change), (false, .change),
    (false, .save), (true, .save)]

private theorem undisturbed_separateCalls : Undisturbed separateCalls := by
  rintro j ⟨i, before, middle, after, heq, hmem⟩
  obtain ⟨-, rfl, hrest⟩ : before = [(false, .authorise)] ∧ i = false ∧
      middle ++ (i, .save) :: after = [(true, .authorise), (true, .change), (false, .change),
        (false, .save), (true, .save)] := by
    simpa [separateCalls, List.cons_eq_append_iff] using heq
  have hmiddle : middle = [(true, .authorise), (true, .change), (false, .change)] := by
    simp [List.append_eq_cons_iff, List.cons_eq_append_iff] at hrest
    tauto
  rw [hmiddle] at hmem
  simp at hmem

/-- Requests that overlap without saving over each other are both applied. -/
theorem serviceRun_saves_separateCalls :
    Undisturbed separateCalls ∧ ∃ s : ServiceState Bool,
      ServiceRun separateLib separateRequest emptyKeyFile separateCalls s ∧
      SavedContent separateLib separateRequest emptyKeyFile separateCalls s.file ∧
      Serialisable separateLib separateRequest emptyKeyFile separateCalls s := by
  obtain ⟨s, hexec⟩ : ∃ s, Trace.exec (serviceStep separateLib separateRequest)
      (ServiceState.start Bool emptyKeyFile) separateCalls = some s := ⟨_, rfl⟩
  have hrun := Trace.run_of_exec hexec
  obtain ⟨-, hsaved, hserial⟩ := serviceRun_saves hrun
  exact ⟨undisturbed_separateCalls, s, hrun, hsaved, hserial undisturbed_separateCalls⟩

end DeepinPwCheck
