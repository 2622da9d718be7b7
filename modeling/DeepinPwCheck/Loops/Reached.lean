import Mathlib.Order.Basic

/-!
# States of a loop

A loop whose body either leaves the loop or goes on from a next state. The states reached
are those in which some iteration begins; what holds of the first one and is kept by the
body holds of all of them.
-/

namespace LoopStates

variable {σ : Type*}

/-- The states in which an iteration begins. `next` is the state after the body, if the
body does not leave the loop. -/
inductive Reached (next : σ → Option σ) (first : σ) : σ → Prop
  | first : Reached next first first
  | next {s s' : σ} : Reached next first s → next s = some s' → Reached next first s'

variable {next : σ → Option σ} {first : σ}

/-- **Invariants of a loop.** -/
theorem Reached.invariant {P : σ → Prop} (hfirst : P first)
    (hnext : ∀ s s', P s → next s = some s' → P s') {s : σ} (h : Reached next first s) : P s := by
  induction h with
  | first => exact hfirst
  | next _ hstep ih => exact hnext _ _ ih hstep

end LoopStates
