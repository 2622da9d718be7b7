import Mathlib.Data.Int.Order.Basic
import Mathlib.Data.List.Basic
import Mathlib.Data.List.Chain
import Mathlib.Data.List.Infix
import Mathlib.Order.Basic

/-!
# Streaks of steps

A list is walked from left to right, and each step goes in one of two directions or
breaks the walk. Two counters follow the steps: each counts the steps of its direction,
and a break sets both back. Only a break does that, so a counter that reaches a threshold
has counted over a stretch without breaks, which may turn in between. A walk may also
skip elements and step from the last one that it kept. This file says which stretches
of the list bring a counter to a threshold.
-/

namespace Streaks

/-- The direction of a step, named after the counter that counts it. -/
inductive Direction where
  | increase
  | decrease
  deriving DecidableEq, Repr

/-- The two counters. -/
structure Counters where
  increase : ℤ
  decrease : ℤ

/-- Both counters at the first element and after a break. -/
def Counters.start : Counters := ⟨1, 1⟩

/-- The counters after one step. -/
def Counters.count (s : Counters) : Option Direction → Counters
  | some .increase => { s with increase := s.increase + 1 }
  | some .decrease => { s with decrease := s.decrease + 1 }
  | none => Counters.start

/-- One of the counters is at the threshold. -/
def Counters.reached (n : ℤ) (s : Counters) : Bool := decide (s.increase ≥ n ∨ s.decrease ≥ n)

/-- Whether a counter is at the threshold after one of the steps. -/
def reaches (n : ℤ) : Counters → List (Option Direction) → Bool
  | _, [] => false
  | s, step :: rest => if (s.count step).reached n then true else reaches n (s.count step) rest

/-- The steps without a break bring one of the counters to the threshold. -/
def Enough (n : ℤ) (s : Counters) (steps : List Direction) : Prop :=
  n ≤ s.increase + steps.count .increase ∨ n ≤ s.decrease + steps.count .decrease

/-- Steps in both directions. -/
def Turns (steps : List Direction) : Prop := .increase ∈ steps ∧ .decrease ∈ steps

/-- More on the counters needs no more steps. The induction over the loop lets the counters
grow. -/
theorem Enough.of_le {n : ℤ} {s t : Counters} {steps : List Direction}
    (hincrease : s.increase ≤ t.increase) (hdecrease : s.decrease ≤ t.decrease)
    (h : Enough n s steps) : Enough n t steps := by
  unfold Enough at h ⊢
  omega

/-- The first step is on the counters as well as in the list. It moves a step from the list to the
counters, as the loop does. -/
theorem enough_cons_iff {n : ℤ} {s : Counters} {x : Direction} {steps : List Direction} :
    Enough n s (x :: steps) ↔ Enough n (s.count (some x)) steps := by
  cases x with
  | increase => simp only [Enough, Counters.count, List.count_cons]; simp; omega
  | decrease => simp only [Enough, Counters.count, List.count_cons]; simp; omega

/-- Below the threshold some step is missing. -/
theorem Enough.ne_nil {n : ℤ} {s : Counters} {steps : List Direction} (h : Enough n s steps)
    (hincrease : s.increase < n) (hdecrease : s.decrease < n) : steps ≠ [] := by
  rintro rfl
  simp only [Enough, List.count_nil] at h
  omega

/-- At the start some step is missing. -/
theorem Enough.start_ne_nil {n : ℤ} {steps : List Direction} (hn : 2 ≤ n)
    (h : Enough n Counters.start steps) : steps ≠ [] := by
  have hstart : (1 : ℤ) < n := by omega
  exact h.ne_nil hstart hstart

/-- The counters are in force and have not arrived. -/
structure Counters.Below (n : ℤ) (s : Counters) : Prop where
  increase : 1 ≤ s.increase ∧ s.increase < n
  decrease : 1 ≤ s.decrease ∧ s.decrease < n

/-- The steps go on without a break until there are enough. -/
def EnoughFirst (n : ℤ) (s : Counters) (steps : List (Option Direction)) : Prop :=
  ∃ taken : List Direction, taken.map some <+: steps ∧ Enough n s taken

/-- Enough steps stand together without a break. -/
def EnoughInside (n : ℤ) (steps : List (Option Direction)) : Prop :=
  ∃ taken : List Direction, taken.map some <:+: steps ∧ Enough n Counters.start taken

/-- The start is below every threshold. The induction over the loop begins there. -/
theorem Counters.below_start {n : ℤ} (hn : 2 ≤ n) : Counters.start.Below n := by
  have hstart : (1 : ℤ) ≤ 1 ∧ 1 < n := by omega
  exact ⟨hstart, hstart⟩

/-- A step that does not arrive stays below the threshold. It is the invariant of the loop as long
as it does not stop. -/
theorem Counters.Below.count {n : ℤ} {s : Counters} {step : Option Direction} (h : s.Below n)
    (hstop : ¬(s.count step).reached n = true) : (s.count step).Below n := by
  have hincrease := h.increase
  have hdecrease := h.decrease
  rw [reached, decide_eq_true_eq, not_or, not_le, not_le] at hstop
  have hpos : 1 ≤ (s.count step).increase ∧ 1 ≤ (s.count step).decrease := by
    rcases step with _ | (_ | _) <;> simp only [Counters.count, start] <;> omega
  exact ⟨⟨hpos.1, hstop.1⟩, ⟨hpos.2, hstop.2⟩⟩

/-- What is enough at the start is enough later. A streak that is found later does not depend on
what was counted before it. -/
theorem EnoughFirst.of_start {n : ℤ} {s : Counters} {steps : List (Option Direction)}
    (hs : s.Below n) (h : EnoughFirst n Counters.start steps) : EnoughFirst n s steps := by
  obtain ⟨taken, hfront, henough⟩ := h
  exact ⟨taken, hfront, henough.of_le hs.increase.1 hs.decrease.1⟩

/-- A break comes too early. After a break the counters are those of the start. -/
theorem not_enoughFirst_none {n : ℤ} {s : Counters} {rest : List (Option Direction)}
    (hs : s.Below n) : ¬EnoughFirst n s (none :: rest) := by
  rintro ⟨taken, hfront, henough⟩
  rcases taken with _ | ⟨x, taken⟩
  · exact henough.ne_nil hs.increase.2 hs.decrease.2 rfl
  · simp at hfront

/-- The first step is counted. With `not_enoughFirst_none` it covers both branches of the loop. -/
theorem enoughFirst_some_iff {n : ℤ} {s : Counters} {x : Direction}
    {rest : List (Option Direction)} (hs : s.Below n) :
    EnoughFirst n s (some x :: rest) ↔ EnoughFirst n (s.count (some x)) rest := by
  constructor
  · rintro ⟨taken, hfront, henough⟩
    rcases taken with _ | ⟨y, taken⟩
    · exact absurd rfl (henough.ne_nil hs.increase.2 hs.decrease.2)
    · rw [List.map_cons, List.cons_prefix_cons, Option.some.injEq] at hfront
      obtain ⟨rfl, hrest⟩ := hfront
      exact ⟨taken, hrest, enough_cons_iff.mp henough⟩
  · rintro ⟨taken, hfront, henough⟩
    refine ⟨x :: taken, ?_, enough_cons_iff.mpr henough⟩
    rw [List.map_cons, List.cons_prefix_cons]
    exact ⟨rfl, hfront⟩

/-- Steps that stand together begin with the first step or behind it. The induction over the list
splits here. -/
theorem enoughInside_cons_iff {n : ℤ} {step : Option Direction}
    {rest : List (Option Direction)} :
    EnoughInside n (step :: rest) ↔
      EnoughFirst n Counters.start (step :: rest) ∨ EnoughInside n rest := by
  constructor
  · rintro ⟨taken, hinside, henough⟩
    rcases List.infix_cons_iff.mp hinside with hfront | hrest
    · exact Or.inl ⟨taken, hfront, henough⟩
    · exact Or.inr ⟨taken, hrest, henough⟩
  · rintro (⟨taken, hfront, henough⟩ | ⟨taken, hrest, henough⟩)
    · exact ⟨taken, hfront.isInfix, henough⟩
    · exact ⟨taken, List.infix_cons hrest, henough⟩

/-- Steps in front stand together. -/
theorem EnoughFirst.inside {n : ℤ} {steps : List (Option Direction)}
    (h : EnoughFirst n Counters.start steps) : EnoughInside n steps := by
  obtain ⟨taken, hfront, henough⟩ := h
  exact ⟨taken, hfront.isInfix, henough⟩

/-- A counter that arrives with the next step. It is the case in which the loop stops. -/
theorem enoughFirst_of_reached {n : ℤ} {s : Counters} {step : Option Direction}
    {rest : List (Option Direction)} (hn : 2 ≤ n) (h : (s.count step).reached n = true) :
    EnoughFirst n s (step :: rest) := by
  rw [Counters.reached, decide_eq_true_eq] at h
  cases step with
  | none =>
    simp only [Counters.count, Counters.start] at h
    omega
  | some x =>
    refine ⟨[x], by simp, enough_cons_iff.mpr ?_⟩
    simp only [Enough, List.count_nil]
    omega

/-- **The counters.** From counters below the threshold, one of them reaches it exactly if the
steps go on without a break until there are enough, or hold enough between two breaks. -/
theorem reaches_iff {n : ℤ} (hn : 2 ≤ n) {s : Counters} {steps : List (Option Direction)}
    (hs : s.Below n) : reaches n s steps = true ↔ EnoughFirst n s steps ∨ EnoughInside n steps := by
  induction steps generalizing s with
  | nil =>
    simp only [reaches, Bool.false_eq_true, false_iff, not_or]
    constructor
    · rintro ⟨taken, hnil, henough⟩
      exact henough.ne_nil hs.increase.2 hs.decrease.2 (by simpa using hnil)
    · rintro ⟨taken, hnil, henough⟩
      exact henough.start_ne_nil hn (by simpa using hnil)
  | cons step rest ih =>
    rw [reaches]
    by_cases hstop : (s.count step).reached n = true
    · -- the counter that moved has arrived
      rw [if_pos hstop]
      exact iff_of_true rfl (Or.inl (enoughFirst_of_reached hn hstop))
    · rw [if_neg hstop, ih (hs.count hstop), enoughInside_cons_iff]
      cases step with
      | none =>
        have hbreak : ¬EnoughFirst n s (none :: rest) := not_enoughFirst_none hs
        constructor
        · rintro (hfirst | hinside)
          · exact Or.inr (Or.inr hfirst.inside)
          · exact Or.inr (Or.inr hinside)
        · rintro (hfirst | hfirst | hinside)
          · exact absurd hfirst hbreak
          · exact absurd (hfirst.of_start hs) hbreak
          · exact Or.inr hinside
      | some x =>
        rw [← enoughFirst_some_iff hs]
        constructor
        · rintro (hfirst | hinside)
          · exact Or.inl hfirst
          · exact Or.inr (Or.inr hinside)
        · rintro (hfirst | hfirst | hinside)
          · exact Or.inl hfirst
          · exact Or.inl (hfirst.of_start hs)
          · exact Or.inr hinside

/-- From both counters at one, a counter reaches the threshold exactly if enough steps
stand together without a break. -/
theorem reaches_start_iff {n : ℤ} (hn : 2 ≤ n) {steps : List (Option Direction)} :
    reaches n Counters.start steps = true ↔ EnoughInside n steps := by
  rw [reaches_iff hn (Counters.below_start hn)]
  constructor
  · rintro (hfirst | hinside)
    · exact hfirst.inside
    · exact hinside
  · exact Or.inr

section Walks

variable {α : Type*}

/-- From `k` the elements of the list are reached one after the other by steps in these
directions. -/
def Walk (R : α → α → Direction → Prop) : α → List α → List Direction → Prop
  | _, [], [] => True
  | k, d :: rest, x :: steps => R k d x ∧ Walk R d rest steps
  | _, _, _ => False

/-- The steps to the elements of a list, each from the last kept element before it. -/
def stepsFrom (step : α → α → Option Direction) (keeps : α → Bool) :
    α → List α → List (Option Direction)
  | _, [] => []
  | k, d :: rest => step k d :: stepsFrom step keeps (if keeps d then d else k) rest

/-- A stretch of the list with enough steps for the threshold. It begins with `key`, and
the first step may pass over elements that are not kept. -/
structure Streak (R : α → α → Direction → Prop) (keeps : α → Bool) (n : ℤ) (l : List α)
    (key : α) (skipped rest : List α) (steps : List Direction) : Prop where
  inside : key :: (skipped ++ rest) <:+: l
  skipped : ∀ c ∈ skipped, keeps c = false
  walk : Walk R key rest steps
  enough : Enough n Counters.start steps

/-- The list holds a walk in these directions, whose first step may pass over elements that
are not kept. -/
def WalksInside (R : α → α → Direction → Prop) (keeps : α → Bool) (taken : List Direction)
    (l : List α) : Prop :=
  ∃ key skipped rest, key :: (skipped ++ rest) <:+: l ∧ (∀ c ∈ skipped, keeps c = false) ∧
    Walk R key rest taken

/-- The list has a streak. -/
def HasStreak (R : α → α → Direction → Prop) (keeps : α → Bool) (n : ℤ) (l : List α) : Prop :=
  ∃ key skipped rest steps, Streak R keeps n l key skipped rest steps

variable {R : α → α → Direction → Prop} {keeps : α → Bool} {n : ℤ} {l : List α}

/-- A walk in one direction is a chain. A run is such a walk. -/
theorem walk_replicate_iff {k : α} {rest : List α} {m : ℕ} {x : Direction} :
    Walk R k rest (List.replicate m x) ↔
      rest.length = m ∧ (k :: rest).IsChain fun c d => R c d x := by
  induction rest generalizing k m with
  | nil => cases m <;> simp [Walk, List.replicate_succ]
  | cons d rest ih =>
    cases m with
    | zero => simp [Walk]
    | succ m =>
      rw [List.replicate_succ, List.isChain_cons_cons]
      simp only [Walk, ih, List.length_cons, Nat.add_right_cancel_iff]
      tauto

/-- Steps that do not turn all go one way. A streak that does not turn is therefore a run. -/
theorem eq_replicate_of_not_turns {steps : List Direction} (h : ¬Turns steps) :
    ∃ x, steps = List.replicate steps.length x := by
  by_cases hincrease : Direction.increase ∈ steps
  · refine ⟨.increase, List.eq_replicate_iff.mpr ⟨rfl, fun x hx => ?_⟩⟩
    cases x with
    | increase => rfl
    | decrease => exact absurd ⟨hincrease, hx⟩ h
  · refine ⟨.decrease, List.eq_replicate_iff.mpr ⟨rfl, fun x hx => ?_⟩⟩
    cases x with
    | increase => exact absurd hx hincrease
    | decrease => rfl

/-- Steps one way are enough if there is one for each element but the first. The threshold counts
elements, and the loop counts steps from one. -/
theorem enough_replicate_iff {m : ℕ} {x : Direction} (hn : 2 ≤ n) :
    Enough n Counters.start (List.replicate m x) ↔ n ≤ m + 1 := by
  cases x with
  | increase => simp [Enough, Counters.start, List.count_replicate]; omega
  | decrease => simp [Enough, Counters.start, List.count_replicate]; omega

/-- A streak that neither skips nor turns contains a chain of `n` elements. It is the soundness of
the loop where nothing turns. -/
theorem Streak.exists_isChain {key : α} {rest : List α} {steps : List Direction} (hn : 2 ≤ n)
    (h : Streak R keeps n l key [] rest steps) (hturns : ¬Turns steps) :
    ∃ x t, t <:+: l ∧ (t.length : ℤ) = n ∧ t.IsChain fun c d => R c d x := by
  obtain ⟨x, hx⟩ := eq_replicate_of_not_turns hturns
  have hwalk := h.walk
  have henough := h.enough
  rw [hx, walk_replicate_iff] at hwalk
  rw [hx, enough_replicate_iff hn] at henough
  have hfront : (key :: rest).take n.toNat <+: key :: rest := List.take_prefix _ _
  refine ⟨x, (key :: rest).take n.toNat, hfront.isInfix.trans h.inside, ?_, hwalk.2.take _⟩
  rw [List.length_take, List.length_cons, hwalk.1]
  omega

/-- A chain of `n` elements is a streak. It is the completeness of the loop for runs of which
every step is counted. -/
theorem hasStreak_of_isChain {x : Direction} {t : List α} (hn : 2 ≤ n) (hinside : t <:+: l)
    (hlength : (t.length : ℤ) = n) (hchain : t.IsChain fun c d => R c d x) :
    HasStreak R keeps n l := by
  cases t with
  | nil =>
    simp only [List.length_nil] at hlength
    omega
  | cons key rest =>
    rw [List.length_cons] at hlength
    refine ⟨key, [], rest, List.replicate rest.length x, hinside, by simp, ?_, ?_⟩
    · exact walk_replicate_iff.mpr ⟨rfl, hchain⟩
    · rw [enough_replicate_iff hn]
      omega

section Steps

variable {step : α → α → Option Direction}

/-- The first steps of the loop without a break are a walk: no element is skipped, since
none that is not kept can be reached. -/
theorem map_some_prefix_stepsFrom_iff (hkeeps : ∀ c d x, R c d x → keeps c = true ∧ keeps d = true)
    (hR : ∀ c, ∀ d ∈ l, ∀ x, step c d = some x ↔ R c d x) {k : α} {taken : List Direction} :
    taken.map some <+: stepsFrom step keeps k l ↔ ∃ rest, rest <+: l ∧ Walk R k rest taken := by
  induction taken generalizing k l with
  | nil =>
    simp only [List.map_nil, List.nil_prefix, true_iff]
    exact ⟨[], List.nil_prefix, trivial⟩
  | cons x taken ih =>
    cases l with
    | nil =>
      simp only [stepsFrom, List.map_cons, List.prefix_nil, reduceCtorEq, false_iff]
      rintro ⟨rest, rfl, hwalk⟩
      exact hwalk
    | cons d l =>
      have hR' (c : α) (e : α) (he : e ∈ l) (y : Direction) : step c e = some y ↔ R c e y :=
        hR c e (List.mem_cons_of_mem d he) y
      have hfirst : step k d = some x ↔ R k d x := hR k d List.mem_cons_self x
      rw [stepsFrom, List.map_cons, List.cons_prefix_cons]
      constructor
      · rintro ⟨hstep, hfront⟩
        have hx : R k d x := hfirst.mp hstep.symm
        rw [if_pos (hkeeps k d x hx).2] at hfront
        obtain ⟨rest, hrest, hwalk⟩ := (ih hR').mp hfront
        exact ⟨d :: rest, List.cons_prefix_cons.mpr ⟨rfl, hrest⟩, hx, hwalk⟩
      · rintro ⟨rest, hrest, hwalk⟩
        cases rest with
        | nil => exact hwalk.elim
        | cons e rest =>
          obtain ⟨rfl, htail⟩ := List.cons_prefix_cons.mp hrest
          refine ⟨(hfirst.mpr hwalk.1).symm, ?_⟩
          rw [if_pos (hkeeps k e x hwalk.1).2]
          exact (ih hR').mpr ⟨rest, htail, hwalk.2⟩

/-- A walk that is not empty begins with a kept element. -/
theorem Walk.keeps_key (hkeeps : ∀ c d x, R c d x → keeps c = true ∧ keeps d = true)
    {key : α} {rest : List α} {taken : List Direction} (hwalk : Walk R key rest taken)
    (hne : taken ≠ []) : keeps key = true := by
  cases taken with
  | nil => exact absurd rfl hne
  | cons x taken =>
    cases rest with
    | nil => exact hwalk.elim
    | cons d rest => exact (hkeeps key d x hwalk.1).1

/-- A walk inside a list starts at its first element, or in what is left for the loop. The loop
looks at a list in the same way. -/
theorem walksInside_cons_cons_iff (hkeeps : ∀ c d x, R c d x → keeps c = true ∧ keeps d = true)
    {k d : α} {taken : List Direction} (hne : taken ≠ []) :
    WalksInside R keeps taken (k :: d :: l) ↔ (∃ rest, rest <+: d :: l ∧ Walk R k rest taken) ∨
      WalksInside R keeps taken ((if keeps d then d else k) :: l) := by
  constructor
  · rintro ⟨key, skipped, rest, hinside, hskipped, hwalk⟩
    rcases List.infix_cons_iff.mp hinside with hfirst | hlater
    · obtain ⟨rfl, htail⟩ := List.cons_prefix_cons.mp hfirst
      cases skipped with
      | nil => exact Or.inl ⟨rest, htail, hwalk⟩
      | cons c skipped =>
        obtain ⟨rfl, hlater⟩ := List.cons_prefix_cons.mp htail
        have hc : ¬keeps c = true := by simp [hskipped c List.mem_cons_self]
        have hinside' : key :: (skipped ++ rest) <+: key :: l :=
          List.cons_prefix_cons.mpr ⟨rfl, hlater⟩
        refine Or.inr ⟨key, skipped, rest, ?_, ?_, hwalk⟩
        · rw [if_neg hc]
          exact hinside'.isInfix
        · intro e he
          exact hskipped e (List.mem_cons_of_mem c he)
    · refine Or.inr ⟨key, skipped, rest, ?_, hskipped, hwalk⟩
      by_cases hd : keeps d = true
      · rwa [if_pos hd]
      · rw [if_neg hd]
        rcases List.infix_cons_iff.mp hlater with hfirst | hrest
        · obtain ⟨rfl, -⟩ := List.cons_prefix_cons.mp hfirst
          exact absurd (hwalk.keeps_key hkeeps hne) hd
        · exact List.infix_cons hrest
  · rintro (⟨rest, hrest, hwalk⟩ | ⟨key, skipped, rest, hinside, hskipped, hwalk⟩)
    · have hinside : k :: rest <+: k :: d :: l := List.cons_prefix_cons.mpr ⟨rfl, hrest⟩
      exact ⟨k, [], rest, hinside.isInfix, by simp, hwalk⟩
    · by_cases hd : keeps d = true
      · rw [if_pos hd] at hinside
        exact ⟨key, skipped, rest, List.infix_cons hinside, hskipped, hwalk⟩
      · rw [if_neg hd] at hinside
        rcases List.infix_cons_iff.mp hinside with hfirst | hlater
        · -- the element in front is skipped as well
          obtain ⟨rfl, htail⟩ := List.cons_prefix_cons.mp hfirst
          have hinside' : key :: d :: (skipped ++ rest) <+: key :: d :: l :=
            List.cons_prefix_cons.mpr ⟨rfl, List.cons_prefix_cons.mpr ⟨rfl, htail⟩⟩
          refine ⟨key, d :: skipped, rest, hinside'.isInfix, ?_, hwalk⟩
          rw [List.forall_mem_cons]
          exact ⟨by simpa using hd, hskipped⟩
        · have hinside' : key :: (skipped ++ rest) <:+: k :: d :: l :=
            List.infix_cons (List.infix_cons hlater)
          exact ⟨key, skipped, rest, hinside', hskipped, hwalk⟩

/-- Steps of the loop without a break are a walk from a kept element, whose first step may
pass over elements that are not kept. -/
theorem map_some_infix_stepsFrom_iff (hkeeps : ∀ c d x, R c d x → keeps c = true ∧ keeps d = true)
    (hR : ∀ c, ∀ d ∈ l, ∀ x, step c d = some x ↔ R c d x) {k : α} {taken : List Direction}
    (hne : taken ≠ []) :
    taken.map some <:+: stepsFrom step keeps k l ↔ WalksInside R keeps taken (k :: l) := by
  induction l generalizing k with
  | nil =>
    simp only [stepsFrom, List.infix_nil, List.map_eq_nil_iff, hne, false_iff]
    rintro ⟨key, skipped, rest, hinside, -, hwalk⟩
    have hlength := hinside.length_le
    simp only [List.length_cons, List.length_append, List.length_nil] at hlength
    rw [List.eq_nil_of_length_eq_zero (by omega : rest.length = 0)] at hwalk
    cases taken with
    | nil => exact hne rfl
    | cons x taken => exact hwalk
  | cons d l ih =>
    have hR' (c : α) (e : α) (he : e ∈ l) (y : Direction) : step c e = some y ↔ R c e y :=
      hR c e (List.mem_cons_of_mem d he) y
    have hsplit : taken.map some <:+: stepsFrom step keeps k (d :: l) ↔
        taken.map some <+: stepsFrom step keeps k (d :: l) ∨
          taken.map some <:+: stepsFrom step keeps (if keeps d then d else k) l :=
      List.infix_cons_iff
    rw [hsplit, walksInside_cons_cons_iff hkeeps hne]
    exact or_congr (map_some_prefix_stepsFrom_iff hkeeps hR) (ih hR')

/-- **Streaks.** The loop over the list stops exactly if the list has a streak. -/
theorem reaches_stepsFrom_iff (hkeeps : ∀ c d x, R c d x → keeps c = true ∧ keeps d = true)
    (hR : ∀ c, ∀ d ∈ l, ∀ x, step c d = some x ↔ R c d x) {k : α} (hn : 2 ≤ n) :
    reaches n Counters.start (stepsFrom step keeps k l) = true ↔ HasStreak R keeps n (k :: l) := by
  rw [reaches_start_iff hn]
  constructor
  · rintro ⟨taken, hinside, henough⟩
    obtain ⟨key, skipped, rest, hstretch, hskipped, hwalk⟩ :=
      (map_some_infix_stepsFrom_iff hkeeps hR (henough.start_ne_nil hn)).mp hinside
    exact ⟨key, skipped, rest, taken, hstretch, hskipped, hwalk, henough⟩
  · rintro ⟨key, skipped, rest, taken, hstretch, hskipped, hwalk, henough⟩
    refine ⟨taken, ?_, henough⟩
    rw [map_some_infix_stepsFrom_iff hkeeps hR (henough.start_ne_nil hn)]
    exact ⟨key, skipped, rest, hstretch, hskipped, hwalk⟩

end Steps

/-- One more element in front adds the streaks that begin with it. What an element in front can
change is read off it. -/
theorem hasStreak_cons_iff {k : α} :
    HasStreak R keeps n (k :: l) ↔ HasStreak R keeps n l ∨
      ∃ skipped rest steps, skipped ++ rest <+: l ∧ (∀ c ∈ skipped, keeps c = false) ∧
        Walk R k rest steps ∧ Enough n Counters.start steps := by
  constructor
  · rintro ⟨key, skipped, rest, steps, hinside, hskipped, hwalk, henough⟩
    rcases List.infix_cons_iff.mp hinside with hfirst | hlater
    · obtain ⟨rfl, htail⟩ := List.cons_prefix_cons.mp hfirst
      exact Or.inr ⟨skipped, rest, steps, htail, hskipped, hwalk, henough⟩
    · exact Or.inl ⟨key, skipped, rest, steps, hlater, hskipped, hwalk, henough⟩
  · rintro (⟨key, skipped, rest, steps, hinside, hskipped, hwalk, henough⟩ |
      ⟨skipped, rest, steps, htail, hskipped, hwalk, henough⟩)
    · exact ⟨key, skipped, rest, steps, List.infix_cons hinside, hskipped, hwalk, henough⟩
    · have hinside : k :: (skipped ++ rest) <+: k :: l := List.cons_prefix_cons.mpr ⟨rfl, htail⟩
      exact ⟨k, skipped, rest, steps, hinside.isInfix, hskipped, hwalk, henough⟩

/-- The steps of a streak lead from its first element to another one. -/
theorem Walk.exists_first_step {k : α} {rest : List α} {steps : List Direction} (hn : 2 ≤ n)
    (hwalk : Walk R k rest steps) (henough : Enough n Counters.start steps) :
    ∃ d rest' x, rest = d :: rest' ∧ R k d x := by
  cases steps with
  | nil => exact absurd rfl (henough.start_ne_nil hn)
  | cons x steps =>
    cases rest with
    | nil => exact hwalk.elim
    | cons d rest => exact ⟨d, rest, x, rfl, hwalk.1⟩

/-- A streak does not begin with an element from which no step leads away. A break in front of a
list adds no streak then. -/
theorem hasStreak_cons_of_forall_not {k : α} (hn : 2 ≤ n) (hk : ∀ d x, ¬R k d x) :
    HasStreak R keeps n (k :: l) ↔ HasStreak R keeps n l := by
  rw [hasStreak_cons_iff]
  refine ⟨?_, Or.inl⟩
  rintro (h | ⟨skipped, rest, steps, -, -, hwalk, henough⟩)
  · exact h
  · obtain ⟨d, rest', x, -, hstep⟩ := hwalk.exists_first_step hn henough
    exact absurd hstep (hk d x)

/-- If no step leads from the first element to the second one, a streak that begins with the
first one skips the second one. -/
theorem hasStreak_cons_cons_iff {k d : α} (hn : 2 ≤ n) (hkd : ∀ x, ¬R k d x) :
    HasStreak R keeps n (k :: d :: l) ↔ HasStreak R keeps n (d :: l) ∨
      ∃ skipped rest steps, skipped ≠ [] ∧ skipped ++ rest <+: d :: l ∧
        (∀ c ∈ skipped, keeps c = false) ∧ Walk R k rest steps ∧
          Enough n Counters.start steps := by
  rw [hasStreak_cons_iff]
  refine or_congr Iff.rfl ?_
  constructor
  · rintro ⟨skipped, rest, steps, hfront, hskipped, hwalk, henough⟩
    refine ⟨skipped, rest, steps, ?_, hfront, hskipped, hwalk, henough⟩
    rintro rfl
    obtain ⟨e, rest', x, rfl, hstep⟩ := hwalk.exists_first_step hn henough
    obtain ⟨rfl, -⟩ := List.cons_prefix_cons.mp hfront
    exact hkd x hstep
  · rintro ⟨skipped, rest, steps, -, hrest⟩
    exact ⟨skipped, rest, steps, hrest⟩

end Walks

end Streaks
