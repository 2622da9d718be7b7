import DeepinPwCheck.Loops.PairScan
import Mathlib.Data.Int.Order.Basic
import Mathlib.Data.List.Infix

/-!
# Repeated elements

A counter follows the pairs of neighbours of a list: an element equal to the one before it
counts, another one sets the counter back. The counter is the length of the run that ends at
the element read last, so it reaches a threshold exactly if some run is that long.
-/

namespace PairScan

variable {α : Type*}

/-- The counter after one pair of neighbours. -/
def countRepeat [DecidableEq α] (s : ℤ) (c d : α) : ℤ := if c = d then s + 1 else 1

/-- The counter is at the threshold. -/
def repeatReached (k s : ℤ) : Bool := decide (s ≥ k)

@[simp] theorem repeatReached_iff {k s : ℤ} : repeatReached k s = true ↔ k ≤ s :=
  decide_eq_true_iff

/-- As many equal elements stand in a row somewhere in the list. -/
def HasRepeat (k : ℕ) (l : List α) : Prop := ∃ c, List.replicate k c <:+: l

/-- The elements of a run that goes on with the rest of the list. The counter is compared with the
elements that it stands for. -/
theorem replicate_append_cons (m : ℕ) (c : α) (rest : List α) :
    List.replicate m c ++ c :: rest = List.replicate (m + 1) c ++ rest := by
  rw [List.replicate_succ', List.append_assoc, List.singleton_append]

/-- A run that is longer than what stands before another element lies behind that. The induction
drops what stands before it. -/
theorem hasRepeat_append_cons {k m : ℕ} {c d : α} {rest : List α} (hm : m < k) (hne : c ≠ d) :
    HasRepeat k (List.replicate m c ++ d :: rest) ↔ HasRepeat k (d :: rest) := by
  induction m with
  | zero => rw [List.replicate_zero, List.nil_append]
  | succ m ih =>
    rw [← ih (by omega)]
    constructor
    · rintro ⟨e, hrun⟩
      rw [List.replicate_succ, List.cons_append, List.infix_cons_iff] at hrun
      rcases hrun with hfront | hinside
      · -- a run from here on would go on past the other element
        obtain ⟨t, ht⟩ := hfront
        have hfirst : e = c := by
          have h := congrArg List.head? ht
          obtain ⟨j, rfl⟩ : ∃ j, k = j + 1 := ⟨k - 1, by omega⟩
          simpa [List.replicate_succ] using h
        have hother : (List.replicate k e ++ t)[m + 1]? = some d := by
          rw [ht, ← List.cons_append, ← List.replicate_succ,
            List.getElem?_append_right (by simp)]
          simp
        rw [List.getElem?_append_left (by simpa using hm), List.getElem?_replicate,
          if_pos hm] at hother
        exact absurd (hfirst.symm.trans (Option.some.inj hother)) hne
      · exact ⟨e, hinside⟩
    · rintro ⟨e, hinside⟩
      refine ⟨e, ?_⟩
      rw [List.replicate_succ, List.cons_append]
      exact List.infix_cons hinside

variable [DecidableEq α]

/-- The scan that has counted `m + 1` equal elements up to the first element of the list sees
what it would see from the first of them on. -/
theorem scanPairs_countRepeat_iff {k m : ℕ} (hm : m + 1 < k) {c : α} {rest : List α} :
    scanPairs countRepeat (repeatReached k) (m + 1 : ℕ) (c :: rest) = true ↔
      HasRepeat k (List.replicate m c ++ c :: rest) := by
  induction rest generalizing m c with
  | nil =>
    rw [replicate_append_cons, List.append_nil]
    simp only [scanPairs, Bool.false_eq_true, false_iff]
    rintro ⟨e, hrun⟩
    have hlength := hrun.length_le
    simp only [List.length_replicate] at hlength
    omega
  | cons d rest ih =>
    rw [scanPairs]
    by_cases heq : c = d
    · subst heq
      have hcount : countRepeat ((m + 1 : ℕ) : ℤ) c c = (m + 1 + 1 : ℕ) := by
        unfold countRepeat
        rw [if_pos rfl]
        rfl
      rw [hcount, replicate_append_cons]
      split_ifs with hstop
      · -- the run is complete with this element
        simp only [true_iff]
        refine ⟨c, ⟨[], rest, ?_⟩⟩
        have hk : k = m + 1 + 1 := by
          rw [repeatReached_iff] at hstop
          omega
        rw [hk, List.replicate_succ' (n := m + 1)]
        simp
      · refine ih ?_
        rw [repeatReached_iff] at hstop
        omega
    · have hcount : countRepeat ((m + 1 : ℕ) : ℤ) c d = (0 + 1 : ℕ) := by
        unfold countRepeat
        rw [if_neg heq]
        rfl
      have hgo : ¬repeatReached k ((0 + 1 : ℕ) : ℤ) = true := by
        rw [repeatReached_iff]
        omega
      rw [hcount, if_neg hgo, ih (by omega), replicate_append_cons m c,
        hasRepeat_append_cons hm heq]
      simp

/-- **Repeated elements.** From its first pair on, the scan stops exactly if the list has a
run of the length of the threshold. A threshold of one asks for a pair. -/
theorem scanPairs_countRepeat_start_iff {k : ℕ} (hk : 1 ≤ k) {l : List α} (hl : 2 ≤ l.length) :
    scanPairs countRepeat (repeatReached k) 1 l = true ↔ HasRepeat k l := by
  obtain ⟨c, d, rest, rfl⟩ : ∃ c d rest, l = c :: d :: rest := by
    rcases l with _ | ⟨c, _ | ⟨d, rest⟩⟩
    · simp at hl
    · simp at hl
    · exact ⟨c, d, rest, rfl⟩
  rcases Nat.lt_or_ge 1 k with hlong | hone
  · exact scanPairs_countRepeat_iff (m := 0) (by omega)
  · obtain rfl : k = 1 := by omega
    have hstop : repeatReached ((1 : ℕ) : ℤ) (countRepeat 1 c d) = true := by
      rw [repeatReached_iff, countRepeat]
      split_ifs <;> decide
    rw [scanPairs, if_pos hstop]
    simp only [true_iff]
    exact ⟨c, [], d :: rest, rfl⟩

end PairScan
