import DeepinPwCheck.Text.Bytes

/-!
# Lines and `fgets`

A text is read line by line, or piece by piece through a buffer that a long line
fills more than once. Both readings are defined here, with the lemmas that take a
text apart at one of its lines.
-/

namespace CText

/-- The lines of a text without their newlines. A newline at the end ends the last line. -/
def lines : Bytes → List Bytes
  | [] => []
  | c :: s =>
      if c = newline then [] :: lines s
      else match lines s with
        | [] => [[c]]
        | ℓ :: rest => (c :: ℓ) :: rest

/-- The text that has the given lines, each ended by a newline. -/
def unlines (ls : List Bytes) : Bytes := ls.flatMap (· ++ [newline])

/-- `fgets` with room for `room` bytes and the terminator: the piece that is stored and
what remains to be read. -/
def fgets : ℕ → Bytes → Bytes × Bytes
  | 0, s => ([], s)
  | _ + 1, [] => ([], [])
  | room + 1, c :: s =>
      if c = newline then ([c], s)
      else (c :: (fgets room s).1, (fgets room s).2)

/-- What follows a line: nothing, or a newline and the lines after it. -/
def EndsLine (t : Bytes) : Prop := t = [] ∨ ∃ s, t = newline :: s

@[simp] theorem lines_nil : lines [] = [] := rfl

@[simp] theorem unlines_nil : unlines [] = [] := rfl

@[simp] theorem unlines_cons (ℓ : Bytes) (ls : List Bytes) :
    unlines (ℓ :: ls) = ℓ ++ newline :: unlines ls := by
  simp [unlines]

/-- The first line of a text ends at the first newline. -/
theorem lines_append_newline {ℓ : Bytes} (hℓ : newline ∉ ℓ) (s : Bytes) :
    lines (ℓ ++ newline :: s) = ℓ :: lines s := by
  induction ℓ with
  | nil => simp [lines]
  | cons c ℓ ih =>
      have hc : c ≠ newline := fun h => hℓ (by simp [h])
      have hrest : newline ∉ ℓ := fun h => hℓ (List.mem_cons_of_mem c h)
      simp only [List.cons_append, lines, if_neg hc, ih hrest]

/-- A text without a newline is one line, unless it is empty. It is the last line of a file that
ends without a newline. -/
theorem lines_of_notMem {ℓ : Bytes} (hℓ : newline ∉ ℓ) (hne : ℓ ≠ []) : lines ℓ = [ℓ] := by
  induction ℓ with
  | nil => exact absurd rfl hne
  | cons c ℓ ih =>
      have hc : c ≠ newline := fun h => hℓ (by simp [h])
      have hrest : newline ∉ ℓ := fun h => hℓ (List.mem_cons_of_mem c h)
      cases ℓ with
      | nil => simp [lines, hc]
      | cons d ℓ => rw [lines, if_neg hc, ih hrest (by simp)]

/-- **Round trip of lines.** A text made of lines has these lines. A file that was written line by
line is taken apart by it. -/
theorem lines_unlines {ls : List Bytes} (hls : ∀ ℓ ∈ ls, newline ∉ ℓ) :
    lines (unlines ls) = ls := by
  induction ls with
  | nil => rfl
  | cons ℓ ls ih =>
      rw [unlines_cons, lines_append_newline (hls ℓ List.mem_cons_self),
        ih fun m hm => hls m (List.mem_cons_of_mem ℓ hm)]

/-- A nonempty text is its first line and what follows that line. It is the case split of the
inductions over a text. -/
theorem exists_first_line {s : Bytes} (hs : s ≠ []) :
    ∃ ℓ t, newline ∉ ℓ ∧ s = ℓ ++ t ∧ ((t = [] ∧ ℓ ≠ [] ∧ lines s = [ℓ]) ∨
      ∃ u, t = newline :: u ∧ lines s = ℓ :: lines u) := by
  have hsplit := List.takeWhile_append_dropWhile (p := (· != newline)) (l := s)
  have hmem : newline ∉ s.takeWhile (· != newline) := by
    intro h
    simpa using List.mem_takeWhile_imp h
  refine ⟨s.takeWhile (· != newline), s.dropWhile (· != newline), hmem, hsplit.symm, ?_⟩
  cases hdrop : s.dropWhile (· != newline) with
  | nil =>
      left
      rw [hdrop, List.append_nil] at hsplit
      rw [hsplit] at hmem ⊢
      exact ⟨rfl, hs, lines_of_notMem hmem hs⟩
  | cons c u =>
      right
      have hc : c = newline := by simpa using head_dropWhile hdrop
      subst hc
      refine ⟨u, rfl, ?_⟩
      rw [hdrop] at hsplit
      conv_lhs => rw [← hsplit]
      exact lines_append_newline hmem u

/-- A text at one of its lines: the lines before, the line, and what follows it. It turns a
position among the lines into a position in the text. -/
theorem eq_of_lines_eq_append {s ℓ : Bytes} {before after : List Bytes}
    (h : lines s = before ++ ℓ :: after) :
    ∃ t, EndsLine t ∧ s = unlines before ++ (ℓ ++ t) := by
  induction before generalizing s with
  | nil =>
      have hs : s ≠ [] := by
        rintro rfl
        simp at h
      obtain ⟨m, t, -, hst, ⟨ht, -, hlines⟩ | ⟨u, ht, hlines⟩⟩ := exists_first_line hs
      · rw [hlines] at h
        obtain ⟨rfl, -⟩ : m = ℓ ∧ [] = after := by simpa using h
        exact ⟨t, Or.inl ht, by simpa using hst⟩
      · rw [hlines] at h
        obtain ⟨rfl, -⟩ : m = ℓ ∧ lines u = after := by simpa using h
        exact ⟨t, Or.inr ⟨u, ht⟩, by simpa using hst⟩
  | cons b before ih =>
      have hs : s ≠ [] := by
        rintro rfl
        simp at h
      obtain ⟨m, t, -, hst, ⟨-, -, hlines⟩ | ⟨u, ht, hlines⟩⟩ := exists_first_line hs
      · rw [hlines] at h
        simp at h
      · rw [hlines] at h
        obtain ⟨rfl, hu⟩ : m = b ∧ lines u = before ++ ℓ :: after := by simpa using h
        obtain ⟨t', ht', hut⟩ := ih hu
        refine ⟨t', ht', ?_⟩
        rw [hst, ht, hut]
        simp

/-- No line contains a newline. So a line that is written again is one line. -/
theorem newline_notMem_of_mem_lines {s ℓ : Bytes} (hℓ : ℓ ∈ lines s) : newline ∉ ℓ := by
  induction hlen : s.length using Nat.strong_induction_on generalizing s with
  | _ n ih =>
      have hs : s ≠ [] := by
        rintro rfl
        simp at hℓ
      obtain ⟨m, t, hm, hst, ⟨-, -, hlines⟩ | ⟨u, ht, hlines⟩⟩ := exists_first_line hs
      · rw [hlines, List.mem_singleton] at hℓ
        rwa [hℓ]
      · rw [hlines] at hℓ
        rcases List.mem_cons.mp hℓ with rfl | hu
        · exact hm
        · refine ih u.length ?_ hu rfl
          rw [← hlen, hst, ht]
          simp
          omega

/-- The bytes of the lines are bytes of the text. A property of all bytes of a file passes to its
lines. -/
theorem mem_of_mem_lines {s ℓ : Bytes} (hℓ : ℓ ∈ lines s) {c : Byte} (hc : c ∈ ℓ) : c ∈ s := by
  obtain ⟨before, after, hsplit⟩ := List.append_of_mem hℓ
  obtain ⟨t, -, hs⟩ := eq_of_lines_eq_append hsplit
  rw [hs]
  simp [hc]

/-- `fgets` stores a line that fits with its newline. The next call begins behind it. -/
theorem fgets_line {ℓ : Bytes} (hℓ : newline ∉ ℓ) (s : Bytes) {room : ℕ}
    (hroom : ℓ.length < room) : fgets room (ℓ ++ newline :: s) = (ℓ ++ [newline], s) := by
  induction ℓ generalizing room with
  | nil =>
      obtain ⟨room, rfl⟩ : ∃ k, room = k + 1 := ⟨room - 1, by simp at hroom; omega⟩
      simp [fgets]
  | cons c ℓ ih =>
      obtain ⟨room, rfl⟩ : ∃ k, room = k + 1 := ⟨room - 1, by simp at hroom; omega⟩
      have hc : c ≠ newline := fun h => hℓ (by simp [h])
      have hrest : newline ∉ ℓ := fun h => hℓ (List.mem_cons_of_mem c h)
      simp only [List.cons_append, fgets, if_neg hc,
        ih hrest (by simpa using hroom)]

/-- `fgets` stores a last line that fits. There is no newline to store. -/
theorem fgets_last {ℓ : Bytes} (hℓ : newline ∉ ℓ) {room : ℕ} (hroom : ℓ.length < room) :
    fgets room ℓ = (ℓ, []) := by
  induction ℓ generalizing room with
  | nil =>
      obtain ⟨room, rfl⟩ : ∃ k, room = k + 1 := ⟨room - 1, by simp at hroom; omega⟩
      simp [fgets]
  | cons c ℓ ih =>
      obtain ⟨room, rfl⟩ : ∃ k, room = k + 1 := ⟨room - 1, by simp at hroom; omega⟩
      have hc : c ≠ newline := fun h => hℓ (by simp [h])
      have hrest : newline ∉ ℓ := fun h => hℓ (List.mem_cons_of_mem c h)
      simp only [fgets, if_neg hc, ih hrest (by simpa using hroom)]

/-- `fgets` stores what fits of a longer line. The next call goes on inside the line. -/
theorem fgets_long {ℓ : Bytes} (hℓ : newline ∉ ℓ) (t : Bytes) {room : ℕ}
    (hroom : room ≤ ℓ.length) : fgets room (ℓ ++ t) = (ℓ.take room, ℓ.drop room ++ t) := by
  induction ℓ generalizing room with
  | nil =>
      obtain rfl : room = 0 := by simpa using hroom
      simp [fgets]
  | cons c ℓ ih =>
      cases room with
      | zero => simp [fgets]
      | succ room =>
          have hc : c ≠ newline := fun h => hℓ (by simp [h])
          have hrest : newline ∉ ℓ := fun h => hℓ (List.mem_cons_of_mem c h)
          simp only [List.cons_append, fgets, if_neg hc,
            ih hrest (by simpa using hroom), List.take_succ_cons, List.drop_succ_cons]

/-- `fgets` loses nothing. What it stores and what it leaves make up the text. -/
theorem fgets_append (room : ℕ) (s : Bytes) : (fgets room s).1 ++ (fgets room s).2 = s := by
  fun_induction fgets room s with
  | case1 s => rfl
  | case2 room => rfl
  | case3 room s => rfl
  | case4 room c s hc ih => simpa using ih

/-- What `fgets` stores is a part of one line, and perhaps its newline. A value that is read never
spans two lines of the file. -/
theorem exists_fgets_eq (room : ℕ) (s : Bytes) :
    ∃ body e, (fgets room s).1 = body ++ e ∧ newline ∉ body ∧ (e = [] ∨ e = [newline]) ∧
      body.length + e.length ≤ room := by
  fun_induction fgets room s with
  | case1 s => exact ⟨[], [], by simp⟩
  | case2 room => exact ⟨[], [], by simp⟩
  | case3 room s => exact ⟨[], [newline], by simp⟩
  | case4 room c s hc ih =>
      obtain ⟨body, e, hpiece, hbody, he, hlength⟩ := ih
      refine ⟨c :: body, e, by simp [hpiece], ?_, he, ?_⟩
      · simpa [Ne.symm hc] using hbody
      · rw [List.length_cons]
        omega

/-- `fgets` makes progress while something is left. The loops over a file terminate because of
it. -/
theorem fgets_rest_length {room : ℕ} {s : Bytes} (hroom : 0 < room) (hs : s ≠ []) :
    (fgets room s).2.length < s.length := by
  have happend := congrArg List.length (fgets_append room s)
  have hpiece : (fgets room s).1 ≠ [] := by
    obtain ⟨room, rfl⟩ : ∃ k, room = k + 1 := ⟨room - 1, by omega⟩
    obtain ⟨c, s, rfl⟩ := List.exists_cons_of_ne_nil hs
    unfold fgets
    split_ifs <;> simp
  have hpos := List.length_pos_iff.mpr hpiece
  rw [List.length_append] at happend
  omega

end CText
