import DeepinPwCheck.LoadConf

/-!
# The strength of a new password

`get_new_passwd_strength_level_by_conf`: the level of a password depends on its length, on
how many of four kinds of characters it has, and on four thresholds of the configuration.
-/

namespace DeepinPwCheck

open CText Ini

/-- The lower-case letters. -/
def isLowerCase (c : Byte) : Bool := 97 ≤ c && c ≤ 122

/-- The upper-case letters. -/
def isUpperCase (c : Byte) : Bool := 65 ≤ c && c ≤ 90

/-- The characters that are neither letters nor digits. -/
def isOtherCharacter (c : Byte) : Bool := !isLowerCase c && !isUpperCase c && !isDigit c

/-- The number of kinds of characters that occur. -/
def typeCount (pw : Bytes) : ℤ :=
  (if 0 < pw.countP isUpperCase then 1 else 0) + (if 0 < pw.countP isLowerCase then 1 else 0) +
    (if 0 < pw.countP isDigit then 1 else 0) + (if 0 < pw.countP isOtherCharacter then 1 else 0)

/-- The level under loaded options. The length is an `int`, and the kinds are counted among the
bytes up to it. -/
def strengthLevel (options : Options) (pw : Bytes) : PasswordLevelType :=
  if intLength pw ≥ options.passwordLengthStandardHigh ∧
      typeCount (seen pw) ≥ options.passwordCharacterTypeNumHigh then .high
  else if intLength pw ≥ options.passwordLengthStandardMiddle ∧
      typeCount (seen pw) ≥ options.passwordCharacterTypeNumMiddle then .middle
  else .low

/-- `get_new_passwd_strength_level_by_conf`. -/
def getNewPasswdStrengthLevelByConf (ini : Parser) (newPasswd file updated : Option Bytes) :
    Except LoadError PasswordLevelType :=
  match newPasswd with
  | none => .ok .error
  | some pw =>
      match loadPwdConf ini file updated with
      | .error .notLoadable => .ok .error
      | .error e => .error e
      | .ok options => .ok (strengthLevel options pw)

/-- The four thresholds of the level. -/
def Options.thresholds (options : Options) : ℤ × ℤ × ℤ × ℤ :=
  (options.passwordLengthStandardHigh, options.passwordLengthStandardMiddle,
    options.passwordCharacterTypeNumHigh, options.passwordCharacterTypeNumMiddle)

/-- The level depends on the thresholds only. An update that keeps the thresholds keeps all
levels. -/
theorem strengthLevel_congr {options options' : Options}
    (h : options.thresholds = options'.thresholds) (pw : Bytes) :
    strengthLevel options pw = strengthLevel options' pw := by
  simp only [Options.thresholds, Prod.mk.injEq] at h
  obtain ⟨hhigh, hmiddle, htypeHigh, htypeMiddle⟩ := h
  unfold strengthLevel
  rw [hhigh, hmiddle, htypeHigh, htypeMiddle]

/-- The numbers of the enumeration `PASSWORD_LEVEL_TYPE`. -/
def PasswordLevelType.code : PasswordLevelType → ℕ
  | error => 0
  | low => 1
  | middle => 2
  | high => 3

private theorem indicator_mono {m n : ℕ} (hle : m ≤ n) :
    (if 0 < m then (1 : ℤ) else 0) ≤ if 0 < n then 1 else 0 := by
  split_ifs <;> omega

/-- Inserting characters keeps every kind of characters. Only the length as an `int` can spoil the
growth of a level. -/
theorem typeCount_mono {p q : Bytes} (h : p.Sublist q) : typeCount p ≤ typeCount q := by
  have hkind (kind : Byte → Bool) := indicator_mono (h.countP_le (p := kind))
  unfold typeCount
  exact add_le_add (add_le_add (add_le_add (hkind _) (hkind _)) (hkind _)) (hkind _)

/-- The order of the characters does not matter for their kinds. Only the part that is read can
make a difference. -/
theorem typeCount_perm {p q : Bytes} (h : p.Perm q) : typeCount p = typeCount q := by
  unfold typeCount
  simp only [h.countP_eq]

/-- Of two passwords the one that is longer and has more kinds of characters is at least as
strong: each branch asks for a length and a number of kinds that it reaches too. -/
theorem strengthLevel_le {options : Options} {p q : Bytes} (hlength : intLength p ≤ intLength q)
    (htype : typeCount (seen p) ≤ typeCount (seen q)) :
    (strengthLevel options p).code ≤ (strengthLevel options q).code := by
  have hbranch (length type : ℤ) (h : intLength p ≥ length ∧ typeCount (seen p) ≥ type) :
      intLength q ≥ length ∧ typeCount (seen q) ≥ type := by
    obtain ⟨hlong, hkinds⟩ := h
    constructor <;> omega
  unfold strengthLevel
  by_cases hhigh : intLength p ≥ options.passwordLengthStandardHigh ∧
      typeCount (seen p) ≥ options.passwordCharacterTypeNumHigh
  · rw [if_pos hhigh, if_pos (hbranch _ _ hhigh)]
  · rw [if_neg hhigh]
    by_cases hmiddle : intLength p ≥ options.passwordLengthStandardMiddle ∧
        typeCount (seen p) ≥ options.passwordCharacterTypeNumMiddle
    · rw [if_pos hmiddle, if_pos (hbranch _ _ hmiddle)]
      split_ifs <;> decide
    · rw [if_neg hmiddle]
      split_ifs <;> decide

/-- Options whose thresholds of the highest level are those that a password just reaches. -/
def justHigh (p : Bytes) : Options :=
  { optionsOf [] defaultPolicy with
    passwordLengthStandardHigh := intLength p
    passwordCharacterTypeNumHigh := typeCount (seen p) }

/-- A password that is never weaker than another one reaches its length and its number of kinds:
otherwise the thresholds that the other one just reaches tell them apart. -/
theorem le_of_forall_strengthLevel_le {p q : Bytes}
    (h : ∀ options, (strengthLevel options p).code ≤ (strengthLevel options q).code) :
    intLength p ≤ intLength q ∧ typeCount (seen p) ≤ typeCount (seen q) := by
  have hlevel := h (justHigh p)
  have hreached : intLength p ≥ (justHigh p).passwordLengthStandardHigh ∧
      typeCount (seen p) ≥ (justHigh p).passwordCharacterTypeNumHigh := by
    dsimp only [justHigh]
    exact ⟨le_rfl, le_rfl⟩
  have hhigh : strengthLevel (justHigh p) p = .high := by
    rw [strengthLevel, if_pos hreached]
  rw [hhigh] at hlevel
  by_contra hless
  have hbelow : ¬(intLength q ≥ (justHigh p).passwordLengthStandardHigh ∧
      typeCount (seen q) ≥ (justHigh p).passwordCharacterTypeNumHigh) := by
    dsimp only [justHigh]
    exact hless
  have hnotHigh : strengthLevel (justHigh p) q ≠ .high := by
    unfold strengthLevel
    rw [if_neg hbelow]
    split_ifs <;> decide
  rcases hq : strengthLevel (justHigh p) q with _ | _ | _ | _
  · rw [hq] at hlevel
    exact absurd hlevel (by decide)
  · rw [hq] at hlevel
    exact absurd hlevel (by decide)
  · rw [hq] at hlevel
    exact absurd hlevel (by decide)
  · exact hnotHigh hq

/-- **Strength of a growing password.** Inserting characters never lowers the level, whatever the
thresholds are, exactly if the length does not drop as an `int` and no kind is lost among the
bytes that are read. Reordering the characters never changes the level exactly if the bytes that
are read keep their number of kinds. Both hold for a password that is not too long for an `int`.
The level that the library returns is the level under the options that it loads. -/
theorem strengthLevel_mono_iff (p q : Bytes) :
    (p.Sublist q →
        ((∀ options, (strengthLevel options p).code ≤ (strengthLevel options q).code) ↔
          intLength p ≤ intLength q ∧ typeCount (seen p) ≤ typeCount (seen q))) ∧
      (p.Perm q →
        ((∀ options, strengthLevel options p = strengthLevel options q) ↔
          typeCount (seen p) = typeCount (seen q))) ∧
      (q.length < 2 ^ 31 →
        (p.Sublist q → intLength p ≤ intLength q ∧ typeCount (seen p) ≤ typeCount (seen q)) ∧
          (p.Perm q → typeCount (seen p) = typeCount (seen q))) ∧
      ∀ (ini : Parser) (file updated : Option Bytes) (options : Options),
        loadPwdConf ini file updated = .ok options → ∀ pw : Bytes,
          getNewPasswdStrengthLevelByConf ini (some pw) file updated =
            .ok (strengthLevel options pw) := by
  refine ⟨?_, ?_, ?_, ?_⟩
  · intro _
    exact ⟨le_of_forall_strengthLevel_le, fun hle options => strengthLevel_le hle.1 hle.2⟩
  · intro hperm
    have hlength : intLength p = intLength q := intLength_congr hperm.length_eq
    constructor
    · intro hsame
      have hle := (le_of_forall_strengthLevel_le fun options => (congrArg _ (hsame options)).le).2
      have hge :=
        (le_of_forall_strengthLevel_le fun options => (congrArg _ (hsame options).symm).le).2
      omega
    · intro hkinds options
      unfold strengthLevel
      rw [hlength, hkinds]
  · intro hint
    refine ⟨?_, ?_⟩
    · intro hsub
      have hle := hsub.length_le
      rw [intLength_of_lt hint, intLength_of_lt (by omega), seen_of_lt hint, seen_of_lt (by omega)]
      exact ⟨by exact_mod_cast hle, typeCount_mono hsub⟩
    · intro hperm
      have hlength := hperm.length_eq
      rw [seen_of_lt hint, seen_of_lt (by omega)]
      exact typeCount_perm hperm
  · intro ini file updated options hload pw
    unfold getNewPasswdStrengthLevelByConf
    rw [hload]

/-- The conditions on `ab`, which grows into `a1Bb` and turns into `ba`. -/
theorem strengthLevel_mono_iff_ab :
    ((∀ options, (strengthLevel options (bytes "ab")).code ≤
          (strengthLevel options (bytes "a1Bb")).code) ↔
        intLength (bytes "ab") ≤ intLength (bytes "a1Bb") ∧
          typeCount (seen (bytes "ab")) ≤ typeCount (seen (bytes "a1Bb"))) ∧
      ((∀ options, strengthLevel options (bytes "ab") = strengthLevel options (bytes "ba")) ↔
        typeCount (seen (bytes "ab")) = typeCount (seen (bytes "ba"))) :=
  ⟨(strengthLevel_mono_iff _ _).1 (by decide), (strengthLevel_mono_iff _ _).2.1 (by decide)⟩

/-- With `2 ^ 31` letters behind it the strong password `Abcdef1!` becomes a weak one: its length
is negative as an `int`, and none of its characters is read. -/
theorem strengthLevel_drops :
    ¬∀ (options : Options) (p q : Bytes), 0 ∉ p → 0 ∉ q → p.Sublist q →
      (strengthLevel options p).code ≤ (strengthLevel options q).code := by
  intro h
  obtain ⟨tail, htail⟩ : ∃ tail, tail = List.replicate (2 ^ 31) (97 : Byte) := ⟨_, rfl⟩
  have hlength : (bytes "Abcdef1!" ++ tail).length = 8 + 2 ^ 31 := by
    rw [List.length_append, htail, List.length_replicate]
    rfl
  have hnul : (0 : Byte) ∉ bytes "Abcdef1!" ++ tail := by
    rw [List.mem_append, htail]
    rintro (hmem | hmem)
    · exact absurd hmem (by decide)
    · exact absurd (List.eq_of_mem_replicate hmem) (by decide)
  have hread : seen (bytes "Abcdef1!" ++ tail) = [] := seen_of_le (by omega) (by omega)
  have hint := @intLength_of_le (bytes "Abcdef1!" ++ tail) (by omega) (by omega)
  rw [hlength] at hint
  have hle := le_of_forall_strengthLevel_le fun options =>
    h options _ _ (by decide) hnul (List.sublist_append_left (bytes "Abcdef1!") tail)
  have hshort : intLength (bytes "Abcdef1!") = 8 := by decide
  rw [hint, hshort] at hle
  exact absurd hle.1 (by norm_num)

end DeepinPwCheck
