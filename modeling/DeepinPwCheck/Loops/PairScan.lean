import Mathlib.Order.Basic

/-!
# Scans over neighbouring elements

A loop that reads the pairs of neighbours of a list from left to right, updates a
state with each pair, and returns as soon as the state satisfies a test.
-/

namespace PairScan

variable {σ τ α : Type*}

/-- Whether the test holds of the state after some pair of neighbours. -/
def scanPairs (step : σ → α → α → σ) (stop : σ → Bool) : σ → List α → Bool
  | s, c :: d :: rest =>
      let next := step s c d
      if stop next then true else scanPairs step stop next (d :: rest)
  | _, _ => false

/-- A scan makes no step over fewer than two elements. There are no neighbours then. -/
theorem scanPairs_of_length_lt {step : σ → α → α → σ} {stop : σ → Bool} {s : σ} {l : List α}
    (h : l.length < 2) : scanPairs step stop s l = false := by
  rcases l with _ | ⟨c, _ | ⟨d, rest⟩⟩
  · rfl
  · rfl
  · simp only [List.length_cons] at h
    omega

/-- A test that holds more often stops the scan whenever the stricter test does.
The states passed on the way are the same, so only the moment of the stop moves. -/
theorem scanPairs_mono {step : σ → α → α → σ} {stop weaker : σ → Bool}
    (himp : ∀ s, stop s = true → weaker s = true) {s : σ} {l : List α}
    (h : scanPairs step stop s l = true) : scanPairs step weaker s l = true := by
  fun_induction scanPairs step stop s l with
  | case1 s c d rest next hstop =>
    rw [scanPairs, if_pos (himp _ hstop)]
  | case2 s c d rest next hgo ih =>
    rw [scanPairs]
    split_ifs
    · rfl
    · exact ih h
  | case3 => exact absurd h (by decide)

/-- A scan for one of two tests succeeds if the scan for one of them does. The two counters of a
loop can be looked at one after the other. -/
theorem scanPairs_or {step : σ → α → α → σ} {p q : σ → Bool} {s : σ} {l : List α} :
    scanPairs step (fun s => p s || q s) s l = (scanPairs step p s l || scanPairs step q s l) := by
  fun_induction scanPairs step (fun s => p s || q s) s l with
  | case1 s c d rest next hstop =>
    rw [scanPairs, scanPairs]
    rcases (Bool.or_eq_true _ _).mp hstop with hp | hq
    · simp [next, hp]
    · simp [next, hq]
  | case2 s c d rest next hgo ih =>
    obtain ⟨hp, hq⟩ : p next = false ∧ q next = false := by simpa using hgo
    rw [ih, scanPairs, scanPairs]
    simp [next, hp, hq]
  | case3 l s hshort =>
    rcases l with _ | ⟨c, _ | ⟨d, rest⟩⟩
    · rfl
    · rfl
    · exact absurd rfl (hshort c d rest)

/-- A scan whose test sees a part of the state only is the scan over that part. A loop over a
large state is reduced to the loops over its parts. -/
theorem scanPairs_part {step : σ → α → α → σ} {stop : σ → Bool} {step' : τ → α → α → τ}
    {stop' : τ → Bool} (part : σ → τ) (hstep : ∀ s c d, part (step s c d) = step' (part s) c d)
    (hstop : ∀ s, stop s = stop' (part s)) {s : σ} {l : List α} :
    scanPairs step stop s l = scanPairs step' stop' (part s) l := by
  induction l generalizing s with
  | nil => rfl
  | cons c l ih =>
    cases l with
    | nil => rfl
    | cons d rest => rw [scanPairs, scanPairs, hstop, hstep, ih, hstep]

end PairScan
