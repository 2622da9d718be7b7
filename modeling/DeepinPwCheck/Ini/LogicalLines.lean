import DeepinPwCheck.Text.Lines

/-!
# Lines that go on

A line that ends in a backslash goes on in the next one: the INI library keeps what stands before
the backslash in its buffer, and reads the next line behind it. Blanks behind the backslash make no
difference, and at the end of the file a line that would go on is lost. This file turns the lines
of a text into those that the library takes apart.
-/

namespace Ini

open CText

/-- The line goes on: its last byte that is no blank is a backslash. -/
def continues (s : Bytes) : Bool := (trimRight s).getLast? == some backslash

/-- What stays in the buffer of a line that goes on. -/
def carryOver (s : Bytes) : Bytes := (trimRight s).dropLast

/-- What the buffer holds in front of the next line. -/
def carryAfter (s : Bytes) : Bytes := if continues s then carryOver s else []

/-- The lines that are taken apart, from the text in the buffer on. If the last line is not
`ended` by a newline and has at most one byte, it is skipped. -/
def joinLines (ended : Bool) : Bytes → List Bytes → List Bytes
  | _, [] => []
  | carry, ℓ :: ls =>
      if ls = [] ∧ ended = false ∧ (carry ++ ℓ).length ≤ 1 then []
      else if continues (carry ++ ℓ) then joinLines ended (carryOver (carry ++ ℓ)) ls
      else (carry ++ ℓ) :: joinLines ended [] ls

/-- The lines of a text that are taken apart. -/
def logicalLines (text : Bytes) : List Bytes :=
  joinLines (text.getLast? == some newline) [] (lines text)

/-- Every line fits into the buffer, behind the text that is there already. -/
def linesFit (limit : ℕ) : Bytes → List Bytes → Bool
  | _, [] => true
  | carry, ℓ :: ls =>
      decide ((carry ++ ℓ).length < limit) && linesFit limit (carryAfter (carry ++ ℓ)) ls

/-- A line that does not go on leaves nothing in the buffer. Together with the next lemma this
takes a written file apart line by line. -/
theorem linesFit_cons_of_ended {limit : ℕ} {ℓ : Bytes} (hgoes : continues ℓ = false)
    (ls : List Bytes) :
    linesFit limit [] (ℓ :: ls) = (decide (ℓ.length < limit) && linesFit limit [] ls) := by
  rw [linesFit, List.nil_append, carryAfter, hgoes, if_neg Bool.false_ne_true]

/-- A line that goes on has to fit, and so has the next one behind it. The two lengths are the two
calls of `fgets` that fill one buffer. -/
theorem linesFit_cons_of_continues {limit : ℕ} {ℓ m : Bytes} (hgoes : continues ℓ = true)
    (hends : continues (carryOver ℓ ++ m) = false) (ls : List Bytes) :
    linesFit limit [] (ℓ :: m :: ls) =
      (decide (ℓ.length < limit) && (decide ((carryOver ℓ ++ m).length < limit) &&
        linesFit limit [] ls)) := by
  rw [linesFit, List.nil_append, carryAfter, if_pos hgoes, linesFit, carryAfter, hends,
    if_neg Bool.false_ne_true]

/-- The blanks at the end of a concatenation: those of its second part and, if that has nothing
else, those of its first part. -/
theorem trimRight_append (s t : Bytes) :
    trimRight (s ++ t) = if trimRight t = [] then trimRight s else s ++ trimRight t := by
  unfold trimRight List.rdropWhile
  rw [List.reverse_append, List.dropWhile_append]
  by_cases ht : t.reverse.dropWhile isSpace = []
  · rw [if_pos (by simp [ht]), if_pos (by simp [ht])]
  · rw [if_neg (by simpa using ht), if_neg (by simpa using ht)]
    simp

/-- A text with a byte that is no blank is not all blanks. A line of a setting is such a text
because of its equals sign. -/
theorem trimRight_ne_nil {s : Bytes} {c : Byte} (hmem : c ∈ s) (hc : isSpace c = false) :
    trimRight s ≠ [] := by
  intro hnil
  obtain ⟨b, hsplit, hblank⟩ := exists_trimRight_append s
  rw [hnil, List.nil_append] at hsplit
  rw [hblank c (hsplit ▸ hmem)] at hc
  cases hc

/-- Whether a line goes on depends on its last part, if that is not all blanks. -/
theorem continues_append_of_ne_nil (s : Bytes) {t : Bytes} (ht : trimRight t ≠ []) :
    continues (s ++ t) = continues t := by
  unfold continues
  rw [trimRight_append, if_neg ht, List.getLast?_append_of_ne_nil _ ht]

/-- A text that goes on is what stays in the buffer, the backslash, and blanks. This is the form
in which the theorems about written texts use the definition. -/
theorem exists_of_continues {s : Bytes} (h : continues s = true) :
    ∃ b, s = carryOver s ++ backslash :: b ∧ ∀ c ∈ b, isSpace c = true := by
  obtain ⟨b, hsplit, hblank⟩ := exists_trimRight_append s
  refine ⟨b, ?_, hblank⟩
  have hlast : (trimRight s).getLast? = some backslash := by simpa [continues] using h
  have hconcat : trimRight s = carryOver s ++ [backslash] :=
    (List.dropLast_append_getLast? backslash hlast).symm
  conv_lhs => rw [hsplit, hconcat]
  simp

/-- Whether a line goes on depends on the part behind a text that does not. A key and its equals
sign can therefore be left out of account. -/
theorem continues_append {s : Bytes} (hs : continues s = false) (t : Bytes) :
    continues (s ++ t) = continues t := by
  by_cases ht : trimRight t = []
  · unfold continues at hs ⊢
    rw [trimRight_append, if_pos ht, hs, ht]
    rfl
  · exact continues_append_of_ne_nil s ht

/-- What stays of a concatenation whose second part goes on. The buffer of a line that goes on
keeps its key. -/
theorem carryOver_append (s : Bytes) {t : Bytes} (ht : continues t = true) :
    carryOver (s ++ t) = s ++ carryOver t := by
  have hne : trimRight t ≠ [] := by
    intro hnil
    simp [continues, hnil] at ht
  unfold carryOver
  rw [trimRight_append, if_neg hne, List.dropLast_append_of_ne_nil hne]

/-- A text without a backslash does not go on. Numbers and truth values are such texts. -/
theorem continues_of_notMem {s : Bytes} (hs : backslash ∉ s) : continues s = false := by
  by_contra h
  obtain ⟨b, hsplit, -⟩ := exists_of_continues (Bool.not_eq_false _ ▸ h)
  apply hs
  rw [hsplit]
  simp

/-- The lines that are taken apart have no bytes but those of the text. Values therefore have no
newline and no NUL byte. -/
theorem mem_of_mem_joinLines {ended : Bool} {carry : Bytes} {ls : List Bytes} {ℓ : Bytes}
    (hℓ : ℓ ∈ joinLines ended carry ls) {c : Byte} (hc : c ∈ ℓ) :
    c ∈ carry ∨ ∃ m ∈ ls, c ∈ m := by
  induction ls generalizing carry with
  | nil => simp [joinLines] at hℓ
  | cons m ls ih =>
      have hcarry : c ∈ carry ++ m → c ∈ carry ∨ ∃ m' ∈ m :: ls, c ∈ m' := by
        intro h
        rcases List.mem_append.mp h with h | h
        · exact Or.inl h
        · exact Or.inr ⟨m, List.mem_cons_self, h⟩
      rw [joinLines] at hℓ
      split_ifs at hℓ with hskip hgoes
      · simp at hℓ
      · rcases ih hℓ with h | ⟨m', hm', h⟩
        · apply hcarry
          have hsub : (carryOver (carry ++ m)).Sublist (carry ++ m) :=
            (List.dropLast_sublist _).trans (List.rdropWhile_prefix _ _).sublist
          exact hsub.subset h
        · exact Or.inr ⟨m', List.mem_cons_of_mem m hm', h⟩
      · rcases List.mem_cons.mp hℓ with rfl | hrest
        · exact hcarry hc
        · rcases ih hrest with h | ⟨m', hm', h⟩
          · simp at h
          · exact Or.inr ⟨m', List.mem_cons_of_mem m hm', h⟩

/-- The first line of a text, if it does not go on. The induction over the lines of a file that
was cut off starts from here. -/
theorem logicalLines_append_newline {ℓ : Bytes} (hℓ : newline ∉ ℓ) (hgoes : continues ℓ = false)
    (s : Bytes) : logicalLines (ℓ ++ newline :: s) = ℓ :: logicalLines s := by
  unfold logicalLines
  rw [lines_append_newline hℓ, joinLines, List.nil_append, hgoes]
  rcases List.eq_nil_or_concat' s with rfl | ⟨front, c, rfl⟩
  · rw [if_neg (by simp), if_neg Bool.false_ne_true]
    rfl
  · have hlines : lines (front ++ [c]) ≠ [] := by
      intro hnil
      obtain ⟨m, t, -, -, ⟨-, -, hsome⟩ | ⟨u, -, hsome⟩⟩ :=
        exists_first_line (s := front ++ [c]) (by simp)
      · rw [hnil] at hsome
        cases hsome
      · rw [hnil] at hsome
        cases hsome
    have hlast : (ℓ ++ newline :: (front ++ [c])).getLast? = (front ++ [c]).getLast? := by
      rw [← List.cons_append, ← List.append_assoc, List.getLast?_concat, List.getLast?_concat]
    rw [if_neg (fun h => hlines h.1), if_neg Bool.false_ne_true, hlast]

/-- A text of one line without a newline. It is what a cut inside a line leaves at the end of a
file. -/
theorem logicalLines_of_notMem {ℓ : Bytes} (hℓ : newline ∉ ℓ) :
    logicalLines ℓ = if ℓ.length ≤ 1 then [] else if continues ℓ then [] else [ℓ] := by
  rcases ℓ.eq_nil_or_concat' with rfl | ⟨front, c, rfl⟩
  · rfl
  · have hended : ((front ++ [c]).getLast? == some newline) = false := by
      have hc : c ≠ newline := fun h => hℓ (by simp [h])
      simpa using hc
    unfold logicalLines
    rw [hended, lines_of_notMem hℓ (by simp), joinLines, List.nil_append]
    split_ifs with hskip hshort hgoes hgoes <;> simp_all [joinLines]

end Ini
