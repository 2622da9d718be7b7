import Mathlib.Data.List.Basic

/-!
# Runs of a step function

A step function takes a state and an event and gives the next state, if the event can
happen. A run is a finite trace of events that can happen one after another. What holds
at the start and is kept by every step holds along every run.
-/

namespace Trace

variable {S E : Type*}

/-- The runs from a state: the trace of events and the state that it leads to. -/
inductive Run (step : S → E → Option S) (init : S) : List E → S → Prop
  | nil : Run step init [] init
  | snoc {trace : List E} {s s' : S} {e : E} : Run step init trace s → step s e = some s' →
      Run step init (trace ++ [e]) s'

/-- The state that a trace leads to, if its events can happen. -/
def exec (step : S → E → Option S) (s : S) : List E → Option S
  | [] => some s
  | e :: trace => (step s e).bind fun s' => exec step s' trace

variable {step : S → E → Option S} {init : S}

/-- **Invariants.** What holds of the empty trace and is kept by every step of a run holds of
every run. -/
theorem Run.invariant {P : List E → S → Prop} (hinit : P [] init)
    (hstep : ∀ trace s e s', Run step init trace s → P trace s → step s e = some s' →
      P (trace ++ [e]) s') {trace : List E} {s : S} (h : Run step init trace s) : P trace s := by
  induction h with
  | nil => exact hinit
  | snoc hrun he ih => exact hstep _ _ _ _ hrun ih he

/-- A run that is followed by the execution of a trace is a run. Runs on concrete systems are put
together with it. -/
theorem Run.append_exec {trace : List E} {s t : S} (h : Run step init trace s)
    {rest : List E} (hrest : exec step s rest = some t) : Run step init (trace ++ rest) t := by
  induction rest generalizing trace s with
  | nil =>
      obtain rfl : s = t := Option.some.inj hrest
      rw [List.append_nil]
      exact h
  | cons e rest ih =>
      obtain ⟨s', hs', hrest⟩ := Option.bind_eq_some_iff.mp hrest
      have hrun := ih (h.snoc hs') hrest
      rwa [List.append_assoc] at hrun

/-- What can be executed is a run. A concrete run is given by evaluating its steps. -/
theorem run_of_exec {trace : List E} {s : S} (h : exec step init trace = some s) :
    Run step init trace s := by
  have hrun := (Run.nil : Run step init [] init).append_exec h
  rwa [List.nil_append] at hrun

/-- Two traces are executed one after the other. A run is thus cut at any of its events. -/
theorem exec_append (step : S → E → Option S) (s : S) (trace rest : List E) :
    exec step s (trace ++ rest) = (exec step s trace).bind fun s' => exec step s' rest := by
  induction trace generalizing s with
  | nil => rfl
  | cons e trace ih =>
      rw [List.cons_append, exec, exec]
      cases step s e with
      | none => rfl
      | some s' => exact ih s'

/-- A run can be executed. Two runs of one trace therefore end in one state. -/
theorem Run.exec_eq {trace : List E} {s : S} (h : Run step init trace s) :
    exec step init trace = some s := by
  induction h with
  | nil => rfl
  | snoc hrun he ih =>
      rw [exec_append, ih, Option.bind_some, exec, he]
      rfl

/-- A run that begins with an event goes on from the state after it. The inductions over a trace
from the front use it. -/
theorem Run.of_cons {e : E} {trace : List E} {s : S} (h : Run step init (e :: trace) s) :
    ∃ s', step init e = some s' ∧ Run step s' trace s := by
  obtain ⟨s', hs', hrest⟩ := Option.bind_eq_some_iff.mp h.exec_eq
  exact ⟨s', hs', run_of_exec hrest⟩

/-- A run of two traces is a run of the first one, and one of the second from its end. What
happens in the middle of a run is looked at from the state there. -/
theorem Run.of_append {trace rest : List E} {s : S} (h : Run step init (trace ++ rest) s) :
    ∃ s', Run step init trace s' ∧ Run step s' rest s := by
  have hexec := h.exec_eq
  rw [exec_append] at hexec
  obtain ⟨s', hs', hrest⟩ := Option.bind_eq_some_iff.mp hexec
  exact ⟨s', run_of_exec hs', run_of_exec hrest⟩

/-- **Simulation.** If each step of one system is a step of another one between the images of its
states, then the executions are so as well. -/
theorem exec_map {S' E' : Type*} {step' : S' → E' → Option S'} (f : S → S') (g : E → E')
    (hstep : ∀ s e, step' (f s) (g e) = (step s e).map f) (s : S) (trace : List E) :
    exec step' (f s) (trace.map g) = (exec step s trace).map f := by
  induction trace generalizing s with
  | nil => rfl
  | cons e trace ih =>
      rw [List.map_cons, exec, exec, hstep]
      cases step s e with
      | none => rfl
      | some s' => exact ih s'

/-- A state that no step changes is left by no trace. Runs of settled files are evaluated with
it. -/
theorem exec_of_fixed {s : S} (h : ∀ e, step s e = some s) (trace : List E) :
    exec step s trace = some s := by
  induction trace with
  | nil => rfl
  | cons e trace ih => rw [exec, h e, Option.bind_some, ih]

/-- If the steps do not depend on their events, traces of one length lead to the same state.
Events that have no influence can be exchanged for others. -/
theorem exec_eq_of_length_eq (ok : S → Prop)
    (hstep : ∀ s e s', ok s → step s e = some s' → ok s')
    (hsame : ∀ s e e', ok s → step s e = step s e') {s : S} (hs : ok s) {trace trace' : List E}
    (hlength : trace.length = trace'.length) : exec step s trace = exec step s trace' := by
  induction trace generalizing s trace' with
  | nil =>
      obtain rfl : trace' = [] := List.length_eq_zero_iff.mp hlength.symm
      rfl
  | cons e trace ih =>
      rcases trace' with _ | ⟨e', trace'⟩
      · cases hlength
      · rw [exec, exec, hsame s e e' hs]
        cases hnext : step s e' with
        | none => rfl
        | some s' => exact ih (hstep s e' s' hs hnext) (Nat.succ.inj hlength)

/-- **Settling.** If every step leaves the state as it is or makes it smaller, and the steps from
a state do not depend on their events, then a run that is longer than the first state is large
ends in a state that no step changes. -/
theorem Run.settles (ok : S → Prop) (size : S → ℕ) (hok : ok init)
    (hstep : ∀ s e s', ok s → step s e = some s' → ok s' ∧ (s' = s ∨ size s' < size s))
    (hsame : ∀ s e e', ok s → step s e = step s e') {trace : List E} {s : S}
    (h : Run step init trace s) (hlong : size init < trace.length) (e : E) :
    step s e = some s := by
  have hinv : ok s ∧ ((∀ e, step s e = some s) ∨ size s + trace.length ≤ size init) := by
    apply Run.invariant
      (P := fun trace s => ok s ∧ ((∀ e, step s e = some s) ∨
        size s + trace.length ≤ size init)) _ _ h
    · exact ⟨hok, Or.inr (Nat.le_refl _)⟩
    · rintro trace s e s' - ⟨hs, hbound⟩ he
      obtain ⟨hs', hless⟩ := hstep s e s' hs he
      refine ⟨hs', ?_⟩
      rcases hbound with hfixed | hbound
      · obtain rfl : s = s' := Option.some.inj ((hfixed e).symm.trans he)
        exact Or.inl hfixed
      · rcases hless with rfl | hless
        · exact Or.inl fun e' => (hsame s' e' e hs).trans he
        · rw [List.length_append, List.length_singleton]
          exact Or.inr (by omega)
  rcases hinv.2 with hfixed | hbound
  · exact hfixed e
  · omega

/-- An event of a run, and the state in which it happened. -/
def HappenedIn (step : S → E → Option S) (init : S) (trace : List E) (e : E) (s : S) : Prop :=
  ∃ before after, trace = before ++ e :: after ∧ Run step init before s

/-- What happened stays so. What is proved about an event holds for the rest of the run. -/
theorem HappenedIn.append {trace : List E} {e : E} {s : S}
    (h : HappenedIn step init trace e s) (rest : List E) :
    HappenedIn step init (trace ++ rest) e s := by
  obtain ⟨before, after, rfl, hrun⟩ := h
  exact ⟨before, after ++ rest, by rw [List.append_assoc, List.cons_append], hrun⟩

/-- The last event of a run. With `HappenedIn.append` every event of a run is found. -/
theorem Run.happenedIn {trace : List E} {s : S} (h : Run step init trace s) (e : E) :
    HappenedIn step init (trace ++ [e]) e s :=
  ⟨trace, [], rfl, h⟩

end Trace
