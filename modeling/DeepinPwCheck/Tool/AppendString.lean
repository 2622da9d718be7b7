import DeepinPwCheck.Tool.Reload

/-!
# The size of `append_string`

`update_conf` appends eleven lines to a buffer of 2048 bytes without looking at its size. The
widest lines together fit, because a number of type `int` has at most 11 bytes and the two
strings are bounded by the buffers that they come from. In the end the buffer holds one section
with one line for each managed key.
-/

namespace DeepinPwCheck

open CText Ini

/-- The line opens a section. -/
def isHeader (ℓ : Bytes) : Bool :=
  match readLine ℓ with
  | .header _ => true
  | _ => false

/-- The line is a setting of the key. -/
def isSettingOf (key : Key) (ℓ : Bytes) : Bool :=
  match readLine ℓ with
  | .entry name _ => name == lower key.text
  | _ => false

/-- What `append_string` holds after the header and as many settings. -/
def appendedAfter (os : OsType) (dic : Dictionary) (policy : Bytes) (k : ℕ) : Bytes :=
  sectionText (bytes "[Password]") ((settings os dic policy).take k)

theorem isHeader_settingLine {s : Bytes × Bytes} (hs : IsKey s.1) :
    isHeader (settingLine s) = false := by
  unfold isHeader
  rw [readLine_settingLine hs]

theorem isSettingOf_settingLine (key : Key) {s : Bytes × Bytes} (hs : IsKey s.1) :
    isSettingOf key (settingLine s) = (lower s.1 == lower key.text) := by
  unfold isSettingOf
  rw [readLine_settingLine hs]

/-- The text of a truth value has at most five bytes. The bound on the whole text adds up such
bounds. -/
theorem length_boolSetting_le (dic : Dictionary) (key : Key) (absent : Bool) :
    (boolSetting dic key absent).2.length ≤ 5 := by
  have hbool (b : Bool) : (boolText b).length ≤ 5 := by cases b <;> decide
  unfold boolSetting
  dsimp only
  split_ifs
  · exact hbool _
  · exact hbool _

/-- The text of a number has at most eleven bytes. The widest number is `-2147483648`. -/
theorem length_intSetting_le (dic : Dictionary) (key : Key) {fallback : ℤ} (h : IsInt32 fallback) :
    (intSetting dic key fallback).2.length ≤ 11 :=
  length_decimal_le (isInt32_intValue dic key h)

/-- **The size of the rendered text.** Everything but the policy and the dictionary path has at
most 334 bytes. -/
theorem length_appendString_le (os : OsType) (dic : Dictionary) (policy : Bytes) :
    (appendString os dic policy).length ≤ 334 + policy.length + (dictPathSetting dic).length := by
  have hheader : (bytes "[Password]").length = 10 := by decide
  have hkeys : ((settings os dic policy).map fun s => s.1.length + 4).sum = 236 := by
    have hmanaged : (settings os dic policy).map (fun s => s.1.length + 4) =
        Key.managed.map fun key => key.text.length + 4 := rfl
    rw [hmanaged]
    decide
  obtain ⟨h₁, h₂, h₃, h₄, h₅, h₆, h₇⟩ := isInt32_defaults os
  have hbool := length_boolSetting_le dic
  have hstrong := hbool .strongPassword true
  have hupper := hbool .firstLetterUppercase false
  have hmin := length_intSetting_le dic .passwordMinLength h₁
  have hmax := length_intSetting_le dic .passwordMaxLength h₂
  have hrequired := length_intSetting_le dic .validateRequired h₃
  have hpalindrome := length_intSetting_le dic .palindromeNum h₄
  have hword := length_intSetting_le dic .wordCheck h₅
  have hmonotone := length_intSetting_le dic .monotoneCharacterNum h₆
  have hsame := length_intSetting_le dic .consecutiveSameCharacterNum h₇
  rw [appendString, length_sectionText, hheader, hkeys]
  simp only [settings, List.map_cons, List.map_nil, List.sum_cons, List.sum_nil]
  omega

section

variable {os : OsType} {dic : Dictionary} {policy : Bytes}

/-- One `sprintf` appends the line of the next setting. So `appendedAfter` follows the calls of
the source. -/
theorem appendedAfter_succ {k : ℕ} {s : Bytes × Bytes}
    (hs : (settings os dic policy)[k]? = some s) :
    appendedAfter os dic policy (k + 1) =
      appendedAfter os dic policy k ++ (settingLine s ++ [newline]) := by
  unfold appendedAfter sectionText unlines
  rw [List.take_add_one, hs, Option.toList_some, List.map_append, ← List.cons_append,
    List.flatMap_append]
  simp

/-- The lines of the rendered text. Counting sections and keys becomes counting in a list of
twelve lines. -/
theorem lines_appendString (hpolicy : newline ∉ policy) (hpath : newline ∉ dictPathSetting dic) :
    lines (appendString os dic policy) =
      bytes "[Password]" :: (settings os dic policy).map settingLine := by
  refine lines_sectionText (by decide) (fun s hs => isKey_of_mem_settings hs) ?_
  intro s hs
  rcases setting_cases hs with ⟨b, hb⟩ | ⟨z, -, hz⟩ | rfl | rfl
  · rw [hb]
    exact newline_notMem_of_plain (boolText_plain b)
  · rw [hz]
    exact newline_notMem_of_plain (decimal_plain z)
  · exact hpolicy
  · exact hpath

/-- No line of a setting opens a section. A policy or a path cannot open one, because it stands
behind its key. -/
theorem countP_isHeader_settings :
    ((settings os dic policy).map settingLine).countP isHeader = 0 := by
  rw [List.countP_eq_zero]
  intro ℓ hℓ
  obtain ⟨s, hs, rfl⟩ := List.mem_map.mp hℓ
  rw [isHeader_settingLine (isKey_of_mem_settings hs)]
  decide

/-- Every managed key has one line. No key is written twice, and none is missing. -/
theorem countP_isSettingOf_settings {key : Key} (hkey : key ∈ Key.managed) :
    ((settings os dic policy).map settingLine).countP (isSettingOf key) = 1 := by
  have hlines : ((settings os dic policy).map settingLine).countP (isSettingOf key) =
      (settings os dic policy).countP fun s => lower s.1 == lower key.text := by
    rw [List.countP_map]
    refine List.countP_congr ?_
    intro s hs
    rw [Function.comp_apply, isSettingOf_settingLine key (isKey_of_mem_settings hs)]
  have hkeys : ((settings os dic policy).countP fun s => lower s.1 == lower key.text) =
      Key.managed.countP fun other => lower other.text == lower key.text := rfl
  have hsame : (Key.managed.countP fun other => lower other.text == lower key.text) =
      Key.managed.count key := by
    refine List.countP_congr ?_
    intro other _
    simp only [beq_iff_eq]
    exact Key.lower_text_injective.eq_iff
  have hnodup : Key.managed.Nodup := by decide
  rw [hlines, hkeys, hsame]
  exact List.count_eq_one_of_mem hnodup hkey

/-- **The accumulated text.** For every edition, every dictionary and every policy of at most
511 bytes, `append_string` never holds more than 2047 bytes, if the dictionary path has less
than 1024. In the end it has twelve lines: the header of the one section `[Password]`, and
exactly one line for each managed key. -/
theorem appendString_section (hpolicy : newline ∉ policy) (hsize : policy.length ≤ 511)
    (hpath : ∀ path, dic.get (Key.name .dictPath) = some path →
      newline ∉ path ∧ path.length < 1024) :
    (∀ k, (appendedAfter os dic policy k).length ≤ 2047) ∧
      appendedAfter os dic policy 11 = appendString os dic policy ∧
      (lines (appendString os dic policy)).head? = some (bytes "[Password]") ∧
      (lines (appendString os dic policy)).countP isHeader = 1 ∧
      (lines (appendString os dic policy)).length = 12 ∧
      ∀ key ∈ Key.managed, (lines (appendString os dic policy)).countP (isSettingOf key) = 1 := by
  have hwritten : newline ∉ dictPathSetting dic ∧ (dictPathSetting dic).length < 1024 := by
    rcases dictPathSetting_cases dic with hempty | hget
    · rw [hempty]
      exact ⟨List.not_mem_nil, by decide⟩
    · exact hpath _ hget
  have hlines : lines (appendString os dic policy) = _ := lines_appendString hpolicy hwritten.1
  have hheader : isHeader (bytes "[Password]") = true := by decide
  refine ⟨?_, rfl, ?_, ?_, ?_, ?_⟩
  · intro k
    have hwhole := length_appendString_le os dic policy
    have hpart := length_sectionText_take_le (bytes "[Password]") (settings os dic policy) k
    unfold appendString at hwhole
    unfold appendedAfter
    omega
  · rw [hlines]
    rfl
  · rw [hlines, List.countP_cons_of_pos hheader, countP_isHeader_settings]
  · rw [hlines]
    rfl
  · intro key hkey
    have hother : ¬isSettingOf key (bytes "[Password]") = true := by
      have hline : readLine (bytes "[Password]") = .header (bytes "password") := by decide
      unfold isSettingOf
      rw [hline]
      exact Bool.false_ne_true
    rw [hlines, List.countP_cons_of_neg hother, countP_isSettingOf_settings hkey]

end

/-- A dictionary with a path for word lists. -/
def pathDictionary : Dictionary := [(bytes "password:dict_path", bytes "/usr/share/dict")]

/-- The defaults of the server edition, with a path. -/
theorem appendString_section_path :
    (∀ k, (appendedAfter .server pathDictionary defaultPolicy k).length ≤ 2047) ∧
      appendedAfter .server pathDictionary defaultPolicy 11 =
        appendString .server pathDictionary defaultPolicy ∧
      (lines (appendString .server pathDictionary defaultPolicy)).head? =
        some (bytes "[Password]") ∧
      (lines (appendString .server pathDictionary defaultPolicy)).countP isHeader = 1 ∧
      (lines (appendString .server pathDictionary defaultPolicy)).length = 12 ∧
      ∀ key ∈ Key.managed,
        (lines (appendString .server pathDictionary defaultPolicy)).countP (isSettingOf key)
          = 1 := by
  refine appendString_section (by decide) (by decide) ?_
  intro path hget
  have hvalue : pathDictionary.get (Key.name .dictPath) = some (bytes "/usr/share/dict") := by
    decide
  obtain rfl := Option.some.inj (hvalue.symm.trans hget)
  decide

end DeepinPwCheck
