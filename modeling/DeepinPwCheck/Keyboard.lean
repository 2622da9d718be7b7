import DeepinPwCheck.Repetition
import DeepinPwCheck.Loops.Streaks
import Mathlib.Data.List.Nodup

/-!
# The rows of the keyboard

Every key stands once on one row. From this file on the table of
`get_adjacent_character` is used through its neighbours only: which key is to the
right of which, and which key ends a row.
-/

namespace DeepinPwCheck

open CText Streaks

/-- `d` is the key to the right of `c` on some row. -/
def RightOf (c d : Byte) : Prop := ∃ row ∈ keyboardCharacter, [c, d] <:+: row

/-- The last key of some row. -/
def RightEnd (c : Byte) : Prop := ∃ row ∈ keyboardCharacter, row.getLast? = some c

/-- The character is a key of some row. -/
def onKeyboard (c : Byte) : Bool := keyboardCharacter.any (c ∈ ·)

/-- The steps between keys that are counted: to the right, and to the left from every
key but the last one of a row. -/
def KeyStep (c d : Byte) : Direction → Prop
  | .increase => RightOf c d
  | .decrease => RightOf d c ∧ ¬RightEnd c

/-- What the two keyboard tests of `is_monotone_character` make of the next character. -/
def Adjacent.stepTo (adjacent : Adjacent) (d : Byte) : Option Direction :=
  if adjacent.next ≠ 0 ∧ d = adjacent.next then some .increase
  else if adjacent.next ≠ 0 ∧ d = adjacent.last then some .decrease
  else none

/-- Before the loop no key has been seen. -/
def Adjacent.none : Adjacent := ⟨0, 0⟩

instance (c d : Byte) : Decidable (RightOf c d) :=
  inferInstanceAs (Decidable (∃ row ∈ keyboardCharacter, _))

/-- No key occurs twice. Everything about neighbours rests on it: a key names its row and its
place. -/
theorem nodup_flatten_keyboardCharacter : keyboardCharacter.flatten.Nodup := by
  decide

/-- No row contains a NUL byte. The 0 that stands for no neighbour is no key. -/
theorem zero_not_mem_row {row : Bytes} (hrow : row ∈ keyboardCharacter) : (0 : Byte) ∉ row := by
  intro hzero
  have hmem : (0 : Byte) ∈ keyboardCharacter.flatten := List.mem_flatten.mpr ⟨row, hrow, hzero⟩
  exact absurd hmem (by decide)

/-- Two rows with a common key are the same. The loop over the rows may therefore stop at the
first one with the key. -/
theorem row_unique {row row' : Bytes} {c : Byte} (hrow : row ∈ keyboardCharacter)
    (hrow' : row' ∈ keyboardCharacter) (hc : c ∈ row) (hc' : c ∈ row') : row = row' := by
  by_contra hne
  have hpairwise := (List.nodup_flatten.mp nodup_flatten_keyboardCharacter).2
  have hsymm : Std.Symm (@List.Disjoint Byte) := ⟨fun _ _ => List.disjoint_symm⟩
  exact hpairwise.forall hrow hrow' hne hc hc'

/-- A key does not occur in its row before it. So the first place that the search finds is the
only one. -/
theorem not_mem_before {a b : Bytes} {c : Byte} (hrow : a ++ c :: b ∈ keyboardCharacter) :
    c ∉ a := by
  have hnodup := (List.nodup_flatten.mp nodup_flatten_keyboardCharacter).1 _ hrow
  rw [List.nodup_append] at hnodup
  intro hc
  exact hnodup.2.2 c hc c List.mem_cons_self rfl

/-- A key does not occur in its row after it. So the first place that the search finds is the only
one. -/
theorem not_mem_after {a b : Bytes} {c : Byte} (hrow : a ++ c :: b ∈ keyboardCharacter) :
    c ∉ b := by
  have hnodup := (List.nodup_flatten.mp nodup_flatten_keyboardCharacter).1 _ hrow
  rw [List.nodup_append, List.nodup_cons] at hnodup
  exact hnodup.2.1.1

/-- A key stands on one place of its row. -/
theorem split_unique {a b a' b' : Bytes} {c : Byte} (hrow : a ++ c :: b ∈ keyboardCharacter)
    (hrow' : a' ++ c :: b' ∈ keyboardCharacter) : a = a' ∧ b = b' := by
  have hc (u v : Bytes) : c ∈ u ++ c :: v := List.mem_append_right u List.mem_cons_self
  have heq : a ++ c :: b = a' ++ c :: b' := row_unique hrow hrow' (hc a b) (hc a' b')
  have hinj := (List.append_cons_inj_of_notMem (not_mem_before hrow) (not_mem_after hrow)).mp heq
  exact ⟨hinj.1, hinj.2.2⟩

/-- The right neighbour is the key after it. The relation between keys is computed from their
row. -/
theorem rightOf_iff_head? {a b : Bytes} {c d : Byte} (hrow : a ++ c :: b ∈ keyboardCharacter) :
    RightOf c d ↔ b.head? = some d := by
  constructor
  · rintro ⟨row, hmem, u, v, rfl⟩
    have hmem' : u ++ c :: (d :: v) ∈ keyboardCharacter := by simpa using hmem
    rw [(split_unique hrow hmem').2]
    rfl
  · intro hhead
    obtain ⟨v, rfl⟩ := List.head?_eq_some_iff.mp hhead
    exact ⟨_, hrow, a, v, by simp⟩

/-- The left neighbour is the key before it. The relation between keys is computed from their
row. -/
theorem rightOf_iff_getLast? {a b : Bytes} {c d : Byte} (hrow : a ++ c :: b ∈ keyboardCharacter) :
    RightOf d c ↔ a.getLast? = some d := by
  constructor
  · rintro ⟨row, hmem, u, v, rfl⟩
    have hmem' : (u ++ [d]) ++ c :: v ∈ keyboardCharacter := by simpa using hmem
    rw [(split_unique hrow hmem').1, List.getLast?_concat]
  · intro hlast
    obtain ⟨u, rfl⟩ := List.getLast?_eq_some_iff.mp hlast
    exact ⟨_, hrow, u, b, by simp⟩

/-- A row ends with the key after which nothing comes. -/
theorem rightEnd_iff {a b : Bytes} {c : Byte} (hrow : a ++ c :: b ∈ keyboardCharacter) :
    RightEnd c ↔ b = [] := by
  constructor
  · rintro ⟨row, hmem, hlast⟩
    obtain ⟨u, rfl⟩ := List.getLast?_eq_some_iff.mp hlast
    exact (split_unique hrow hmem).2
  · rintro rfl
    exact ⟨_, hrow, List.getLast?_concat⟩

/-- Both ends of a step are keys. A walk never leaves the rows. -/
theorem RightOf.onKeyboard {c d : Byte} (h : RightOf c d) :
    onKeyboard c = true ∧ onKeyboard d = true := by
  obtain ⟨row, hrow, hinside⟩ := h
  have hmem {e : Byte} (he : e ∈ [c, d]) : DeepinPwCheck.onKeyboard e = true :=
    List.any_eq_true.mpr ⟨row, hrow, by simpa using hinside.mem he⟩
  exact ⟨hmem (by simp), hmem (by simp)⟩

/-- A key splits its row. The proofs about a key split its row in this way. -/
theorem exists_row_of_onKeyboard {c : Byte} (h : onKeyboard c = true) :
    ∃ a b, a ++ c :: b ∈ keyboardCharacter := by
  obtain ⟨row, hrow, hc⟩ := List.any_eq_true.mp h
  obtain ⟨a, b, rfl⟩ := List.append_of_mem (by simpa using hc : c ∈ row)
  exact ⟨a, b, hrow⟩

/-- `get_adjacent_character` finds the keys on both sides, with 0 beyond the ends of the row.
Proofs about neighbours use this in place of the two loops. -/
theorem getAdjacentCharacter_of_row {a b : Bytes} {c : Byte}
    (hrow : a ++ c :: b ∈ keyboardCharacter) (adjacent : Adjacent) :
    getAdjacentCharacter c adjacent =
      { next := b.head?.getD 0, last := a.getLast?.getD 0 } := by
  have hfind : keyboardCharacter.find? (c ∈ ·) = some (a ++ c :: b) := by
    cases hsearch : keyboardCharacter.find? (c ∈ ·) with
    | none =>
      have hnone := List.find?_eq_none.mp hsearch _ hrow
      exact absurd (by simp) hnone
    | some row =>
      have hc : c ∈ row := by simpa using List.find?_some hsearch
      rw [row_unique (List.mem_of_find?_eq_some hsearch) hrow hc (by simp)]
  have hindex : (a ++ c :: b).idxOf c = a.length := by
    rw [List.idxOf_append_of_notMem (not_mem_before hrow), List.idxOf_cons_self, Nat.add_zero]
  unfold getAdjacentCharacter
  rw [hfind]
  simp only [hindex, Adjacent.mk.injEq]
  constructor
  · cases b with
    | nil => simp
    | cons d b => simp
  · rcases List.eq_nil_or_concat a with rfl | ⟨u, d, rfl⟩
    · simp
    · simp

/-- A character on no row leaves the neighbours of the key before it. The buffer of the neighbours
is not cleared between two calls. -/
theorem getAdjacentCharacter_of_not_onKeyboard {c : Byte} (h : onKeyboard c = false)
    (adjacent : Adjacent) : getAdjacentCharacter c adjacent = adjacent := by
  have hnone : keyboardCharacter.find? (c ∈ ·) = none := by
    rw [List.find?_eq_none]
    intro row hrow hc
    have hany : onKeyboard c = true := List.any_eq_true.mpr ⟨row, hrow, hc⟩
    rw [h] at hany
    exact absurd hany (by decide)
  unfold getAdjacentCharacter
  rw [hnone]

/-- The step that is counted from `c` to `d` while `c` is the last key that was seen. -/
def keyStep (c d : Byte) : Option Direction := (getAdjacentCharacter c Adjacent.none).stepTo d

/-- The neighbours written for a character are its own, or those of the key before it. A character
on no row leaves what was written for the key before it. -/
theorem getAdjacentCharacter_getAdjacentCharacter (k c : Byte) :
    getAdjacentCharacter c (getAdjacentCharacter k Adjacent.none) =
      getAdjacentCharacter (if onKeyboard c then c else k) Adjacent.none := by
  by_cases hc : onKeyboard c = true
  · obtain ⟨a, b, hrow⟩ := exists_row_of_onKeyboard hc
    rw [if_pos hc, getAdjacentCharacter_of_row hrow, getAdjacentCharacter_of_row hrow]
  · rw [if_neg hc, getAdjacentCharacter_of_not_onKeyboard (by simpa using hc)]

/-- No step is counted from a character on no row. -/
theorem keyStep_of_not_onKeyboard {c : Byte} (hc : onKeyboard c = false) (d : Byte) :
    keyStep c d = none := by
  unfold keyStep
  rw [getAdjacentCharacter_of_not_onKeyboard hc]
  rfl

/-- No step is counted from the last key of a row. The neighbour of such a key is 0, which ends
the string that is searched. -/
theorem keyStep_of_last {a : Bytes} {c : Byte} (hrow : a ++ [c] ∈ keyboardCharacter) (d : Byte) :
    keyStep c d = none := by
  unfold keyStep
  rw [getAdjacentCharacter_of_row hrow]
  simp [Adjacent.stepTo]

/-- The right neighbour of a key is not the left one as well. So the order of the two tests of the
source makes no difference. -/
theorem getLast?_ne_next {a b : Bytes} {c e : Byte} (hrow : a ++ c :: e :: b ∈ keyboardCharacter) :
    a.getLast? ≠ some e := by
  intro hlast
  have hrow' : (a ++ [c]) ++ e :: b ∈ keyboardCharacter := by simpa using hrow
  refine not_mem_before hrow' (List.mem_append_left _ ?_)
  exact List.mem_of_getLast? hlast

/-- From a key inside a row the steps to both sides are counted. Only the last key of a row loses
a direction. -/
theorem keyStep_of_inner {a b : Bytes} {c d e : Byte}
    (hrow : a ++ c :: e :: b ∈ keyboardCharacter) (hd : d ≠ 0) :
    keyStep c d =
      if e = d then some .increase else if a.getLast? = some d then some .decrease else none := by
  have he : e ≠ 0 := by
    rintro rfl
    exact zero_not_mem_row hrow (by simp)
  have hlast : d = a.getLast?.getD 0 ↔ a.getLast? = some d := by
    cases a.getLast? with
    | none => simpa using hd
    | some u => simp [eq_comm]
  unfold keyStep
  rw [getAdjacentCharacter_of_row hrow]
  simp [Adjacent.stepTo, he, hlast, eq_comm]

/-- **Keyboard steps.** What the two tests count are the steps to the right, and the steps to
the left that do not begin at the last key of a row. -/
theorem keyStep_eq_some_iff {c d : Byte} (hd : d ≠ 0) {x : Direction} :
    keyStep c d = some x ↔ KeyStep c d x := by
  by_cases hc : onKeyboard c = true
  · obtain ⟨a, b, hrow⟩ := exists_row_of_onKeyboard hc
    cases b with
    | nil =>
      have hend : RightEnd c := (rightEnd_iff hrow).mpr rfl
      rw [keyStep_of_last hrow]
      refine iff_of_false (by simp) ?_
      cases x with
      | increase =>
        intro hright
        exact absurd ((rightOf_iff_head? hrow).mp hright) (by simp)
      | decrease => exact fun hleft => hleft.2 hend
    | cons e b =>
      have hinner : ¬RightEnd c := by simp [rightEnd_iff hrow]
      rw [keyStep_of_inner hrow hd]
      cases x with
      | increase =>
        simp only [KeyStep, rightOf_iff_head? hrow, List.head?_cons, Option.some.injEq]
        split_ifs with hnext hprev
        · simp [hnext]
        · simp [hnext]
        · simp [hnext]
      | decrease =>
        simp only [KeyStep, rightOf_iff_getLast? hrow, hinner, not_false_eq_true, and_true]
        split_ifs with hnext hprev
        · rw [← hnext]
          simp [getLast?_ne_next hrow]
        · simp [hprev]
        · simp [hprev]
  · rw [keyStep_of_not_onKeyboard (by simpa using hc)]
    refine iff_of_false (by simp) ?_
    cases x with
    | increase => exact fun hright => hc hright.onKeyboard.1
    | decrease => exact fun hleft => hc hleft.1.onKeyboard.2

/-- Both ends of a counted step are keys. -/
theorem onKeyboard_of_keyStep {c d : Byte} {x : Direction} (h : KeyStep c d x) :
    onKeyboard c = true ∧ onKeyboard d = true := by
  cases x with
  | increase => exact h.onKeyboard
  | decrease => exact ⟨h.1.onKeyboard.2, h.1.onKeyboard.1⟩

/-- Keys that follow each other to the right are a piece of one row. A walk over the keyboard is
thus a piece of one row. -/
theorem exists_row_of_isChain {t : Bytes} (hlength : 2 ≤ t.length) (h : t.IsChain RightOf) :
    ∃ row ∈ keyboardCharacter, t <:+: row := by
  induction t with
  | nil => simp at hlength
  | cons c t ih =>
    cases t with
    | nil => simp at hlength
    | cons d t =>
      obtain ⟨hstep, htail⟩ := List.isChain_cons_cons.mp h
      cases t with
      | nil => exact hstep
      | cons e t =>
        obtain ⟨row, hrow, u, v, huv⟩ := ih (by simp) htail
        have hrow' : u ++ d :: (e :: t ++ v) ∈ keyboardCharacter := by
          rw [← huv] at hrow
          simpa using hrow
        obtain ⟨w, rfl⟩ := List.getLast?_eq_some_iff.mp ((rightOf_iff_getLast? hrow').mp hstep)
        exact ⟨row, hrow, w, v, by simpa using huv⟩

/-- The keys of a piece of a row follow each other to the right. Runs of keys are pieces of a row
or of a reversed one. -/
theorem isChain_rightOf {t row : Bytes} (hrow : row ∈ keyboardCharacter) (h : t <:+: row) :
    t.IsChain RightOf := by
  obtain ⟨before, after, rfl⟩ := h
  have hpiece := (List.isChain_isInfix (before ++ t ++ after)).left_of_append.right_of_append
  exact hpiece.imp fun _ _ hstep => ⟨_, hrow, hstep⟩

end DeepinPwCheck
