import DeepinPwCheck.PolicyReader

/-!
# What the private reader copies

The pointers of `get_validate_policy` on the line that it has matched, the indexes of the
line that it reads, and the number of bytes that it copies. The line is the string that `fgets`
has left in the buffer, which a NUL byte of the file ends early. A value that consists of quotes
only is skipped to its end before its last quote is looked for, and then the number is negative;
for every other value the number, the indexes and the copy are right.
-/

namespace DeepinPwCheck

open CText Ini

/-- The pointers of the source, as offsets into `buff`, and its counters. -/
structure PolicyCopy where
  /-- The equals sign. -/
  p : ℕ
  /-- The blanks that the first loop skips. -/
  blanks : ℕ
  /-- The quotes that the second loop skips. -/
  quotes : ℕ
  /-- The newline, or the terminator if there is none. -/
  stop : ℕ
  /-- Whether the last byte before `stop` is left out, as 0 or 1. -/
  sub : ℤ
  deriving DecidableEq

/-- The pointers in the string `buff`, if it has an equals sign. -/
def policyCopy (buff : Bytes) : Option PolicyCopy :=
  (strchr buff equals).map fun p =>
    let blanks := ((buff.drop (p + 1)).takeWhile (· == space)).length
    let quotes := ((buff.drop (p + 1 + blanks)).takeWhile (· == quote)).length
    let stop := (strchr buff newline).getD buff.length
    let sub := if 0 < quotes ∧ buff[stop - 1]? = some quote then 1 else 0
    ⟨p, blanks, quotes, stop, sub⟩

/-- `p` behind the two loops. -/
def PolicyCopy.start (c : PolicyCopy) : ℕ := c.p + 1 + c.blanks + c.quotes

/-- The number of bytes to copy, `end - p - sub` or `strlen(p) - sub`. -/
def PolicyCopy.length (c : PolicyCopy) : ℤ := (c.stop : ℤ) - c.start - c.sub

/-- The indexes of the line that are read: by the two loops, each up to the byte that ends it,
by the test for a quote at the end, and by the copy. -/
def PolicyCopy.reads (c : PolicyCopy) : List ℕ :=
  (List.range (c.blanks + 1)).map (c.p + 1 + ·) ++
    (List.range (c.quotes + 1)).map (c.p + 1 + c.blanks + ·) ++
    (if 0 < c.quotes then [c.stop - 1] else []) ++
    (List.range c.length.toNat).map (c.start + ·)

/-- The text between the equals sign and the end of the line. -/
def lineValue (buff : Bytes) : Bytes := afterEquals (buff.takeWhile (· != newline))

/-- The copy is made by these pointers. -/
theorem copyPolicy_eq_policyCopy (buff : Bytes) :
    copyPolicy buff = ((policyCopy buff).map fun c =>
      if c.length < 0 then .overrun
      else .written ((buff.drop c.start).take c.length.toNat)).getD .unwritten := by
  unfold copyPolicy policyCopy
  cases strchr buff equals with
  | none => rfl
  | some p => rfl

/-- An occurrence that `strchr` finds lies in the string. It bounds both pointers that the source
takes from `strchr`. -/
theorem strchr_lt {s : Bytes} {c : Byte} {i : ℕ} (h : strchr s c = some i) : i < s.length := by
  unfold strchr at h
  split_ifs at h with hmem
  obtain rfl := Option.some.inj h
  have hle := (List.takeWhile_prefix (l := s) (· != c)).length_le
  refine lt_of_le_of_ne hle ?_
  intro heq
  have hall := List.takeWhile_eq_self_iff.mp
    ((List.takeWhile_prefix (l := s) (· != c)).eq_of_length heq)
  exact absurd (hall c hmem) (by simp)

/-- The pointers stay in the line, with its terminator. The bounds on indexes and on the number of
bytes follow from it. -/
theorem policyCopy_le {buff : Bytes} {c : PolicyCopy} (h : policyCopy buff = some c) :
    c.start ≤ buff.length ∧ c.stop ≤ buff.length ∧ 0 ≤ c.sub := by
  obtain ⟨p, hp, rfl⟩ := Option.map_eq_some_iff.mp h
  have hlt := strchr_lt hp
  have hblanks := (List.takeWhile_prefix (l := buff.drop (p + 1)) (· == space)).length_le
  have hquotes (k : ℕ) := (List.takeWhile_prefix (l := buff.drop k) (· == quote)).length_le
  refine ⟨?_, ?_, ?_⟩
  · unfold PolicyCopy.start
    dsimp only
    have hquotes := hquotes
      (p + 1 + ((buff.drop (p + 1)).takeWhile (· == space)).length)
    rw [List.length_drop] at hblanks hquotes
    omega
  · dsimp only
    cases hnewline : strchr buff newline with
    | none => exact le_rfl
    | some i => exact (strchr_lt hnewline).le
  · dsimp only
    split_ifs <;> decide

/-- Every index that is read lies in the line, with its terminator. -/
theorem policyCopy_reads_le {buff : Bytes} {c : PolicyCopy} (h : policyCopy buff = some c) :
    ∀ i ∈ c.reads, i ≤ buff.length := by
  obtain ⟨hstart, hstop, hsub⟩ := policyCopy_le h
  have hcopy : c.start + c.length.toNat ≤ max c.start c.stop := by
    unfold PolicyCopy.length
    omega
  unfold PolicyCopy.start at hstart hcopy
  intro i hi
  unfold PolicyCopy.reads PolicyCopy.start at hi
  simp only [List.mem_append, List.mem_map, List.mem_range] at hi
  rcases hi with ((⟨j, hj, rfl⟩ | ⟨j, hj, rfl⟩) | hlast) | ⟨j, hj, rfl⟩
  · omega
  · omega
  · split_ifs at hlast
    · obtain rfl := List.mem_singleton.mp hlast
      omega
    · simp at hlast
  · omega

/-- **The copy of the policy.** On the line that `get_validate_policy` has matched, if it
contains an equals sign, the number of bytes that are copied is neither negative nor 512 or
more, every index that is read lies in the line or is its terminator, and the output is the
value text, exactly if the value is not one or more quotes and nothing else. -/
theorem policyCopy_correct_iff {s buff : Bytes} {o : ℕ} (hpiece : policyPiece s 0 = some (o, buff))
    {c : PolicyCopy} (hc : policyCopy (cString buff) = some c) :
    (0 ≤ c.length ∧ c.length < 512 ∧ (∀ i ∈ c.reads, i ≤ (cString buff).length) ∧
        getValidatePolicy (some s) = .written (valueText (lineValue (cString buff)))) ↔
      ¬OnlyQuotes (lineValue (cString buff)) := by
  obtain ⟨-, whole, e, rfl, hwhole, he, hlength⟩ := policyPiece_eq_some hpiece
  obtain ⟨body, e', hstring, hfront, he', hshorter⟩ := exists_cString_append whole he
  have hbody : newline ∉ body := fun hn => hwhole (hfront.subset hn)
  have hvalue : lineValue (body ++ e') = afterEquals body := by
    have hall : ∀ d ∈ body, (d != newline) = true := by
      intro d hd
      simpa using fun h : d = newline => hbody (h ▸ hd)
    unfold lineValue
    rcases he' with rfl | rfl
    · rw [List.append_nil, List.takeWhile_eq_self_iff.mpr hall]
    · rw [takeWhile_append_of_neg hall (by decide)]
  have hread : getValidatePolicy (some s) = copyPolicy (cString (whole ++ e)) := by
    unfold getValidatePolicy
    dsimp only
    rw [hpiece]
  rw [hstring] at hc hread ⊢
  have hequals : equals ∈ body := by
    by_contra hnone
    have hunwritten := copyPolicy_eq hbody he'
    rw [if_neg hnone, copyPolicy_eq_policyCopy, hc, Option.map_some, Option.getD_some] at hunwritten
    split_ifs at hunwritten
  have hcopy := copyPolicy_eq hbody he'
  rw [if_pos hequals] at hcopy
  have hpointers := copyPolicy_eq_policyCopy (body ++ e')
  rw [hc, Option.map_some, Option.getD_some] at hpointers
  rw [hvalue, hread]
  constructor
  · rintro ⟨-, -, -, hwritten⟩ honly
    rw [if_pos honly, hwritten] at hcopy
    cases hcopy
  · intro honly
    rw [if_neg honly] at hcopy
    have hnonneg : 0 ≤ c.length := by
      by_contra hneg
      rw [if_pos (by omega), hcopy] at hpointers
      cases hpointers
    obtain ⟨-, hstop, hsub⟩ := policyCopy_le hc
    rw [List.length_append] at hstop
    refine ⟨hnonneg, ?_, policyCopy_reads_le hc, hcopy⟩
    unfold PolicyCopy.length
    omega

/-- A file whose policy is a pair of quotes. -/
def quotedNothing : Bytes := bytes "VALIDATE_POLICY = \"\"\n"

/-- The quotes around a value are taken off. -/
theorem policyCopy_correct_iff_quoted :
    (0 ≤ (PolicyCopy.mk 16 1 1 22 1).length ∧ (PolicyCopy.mk 16 1 1 22 1).length < 512 ∧
        (∀ i ∈ (PolicyCopy.mk 16 1 1 22 1).reads,
          i ≤ (cString (bytes "VALIDATE_POLICY = \"ab\"\n")).length) ∧
        getValidatePolicy (some (bytes "VALIDATE_POLICY = \"ab\"\n")) =
          .written (valueText (lineValue (cString (bytes "VALIDATE_POLICY = \"ab\"\n"))))) ↔
      ¬OnlyQuotes (lineValue (cString (bytes "VALIDATE_POLICY = \"ab\"\n"))) :=
  policyCopy_correct_iff (o := 0) (by decide +kernel) (by decide +kernel)

/-- Two quotes and nothing between them make the number of bytes negative. -/
theorem policyCopy_negative :
    ¬∀ (s buff : Bytes) (o : ℕ) (c : PolicyCopy), policyPiece s 0 = some (o, buff) →
      policyCopy (cString buff) = some c →
        0 ≤ c.length ∧ c.length < 512 ∧ (∀ i ∈ c.reads, i ≤ (cString buff).length) ∧
          getValidatePolicy (some s) = .written (valueText (lineValue (cString buff))) := by
  intro h
  have hpiece : policyPiece quotedNothing 0 = some (0, quotedNothing) := by decide +kernel
  have hc : policyCopy (cString quotedNothing) = some ⟨16, 1, 2, 20, 1⟩ := by decide
  exact absurd (h _ _ _ _ hpiece hc).1 (by decide)

end DeepinPwCheck
