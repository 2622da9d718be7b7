import DeepinPwCheck.ReportedLimits
import DeepinPwCheck.Tool.Reload

/-!
# The policy and the dictionary path of an updated file

The tool writes both without quotes. What the readers make of the lines is compared with
what was written, and the two readers of the policy with each other. The private reader takes the
line as it is; the INI library joins a line that ends in a backslash with the next one.
-/

namespace DeepinPwCheck

open CText Ini

/-- The policy line is unquoted: what follows the blanks is no quote. -/
def Unquoted (policy : Bytes) : Prop := ∀ c, (strip policy).head? = some c → isQuote c = false

/-- The public getter returns the string that the check uses. -/
def SamePolicy (ini : Parser) (new : Bytes) : Prop :=
  ∃ options, loadPwdConf ini (some new) (some new) = .ok options ∧
    getPwValidatePolicyByConf ini (some new) = options.characterType

/-- A policy that both readers read alike: the 493 bytes that fit behind `VALIDATE_POLICY = `
have no comment and, after the spaces in front, no blank at an end, and what does not fit is
blank up to a comment. -/
structure ReadsAlike (policy : Bytes) : Prop where
  noComment : ∀ c ∈ policy.take 493, isComment c = false
  stripped : strip ((policy.take 493).dropWhile (· == space)) =
    (policy.take 493).dropWhile (· == space)
  rest : ∀ c ∈ (policy.drop 493).takeWhile (fun c => !isComment c), isSpace c = true

/-- A path that the INI library reads as it is written: it has no blank at an end and, unless it
begins with a quote that decoding leaves there, no comment. -/
structure PlainPath (quoted : Byte → Bytes → Bytes) (path : Bytes) : Prop where
  stripped : strip path = path
  unquoted : ∀ c s, path = c :: s → isQuote c = true → s ≠ [] → quoted c s = path
  noComment : (∀ c s, path = c :: s → isQuote c = true → s = []) →
    ∀ c ∈ path, isComment c = false

/-- An update that its readers undo: they find the policy and the path that were written, and
another update writes the same file again. -/
structure ReadsBack (ini : LineParser) (os : OsType) (new policy path : Bytes) : Prop where
  policy : getValidatePolicy (some new) = .written policy
  path : ∃ dic, ini.load new = some dic ∧ getstring dic (Key.name .dictPath) [] = path
  again : updateConf ini allSucceed os (some new) = .ok (0, some new)

/-- Nothing is stripped of a text, and nothing but blanks behind it. It is applied to the 493
bytes that the private reader sees and to the rest of the policy. -/
theorem strip_append_eq_self_iff {v y : Bytes} :
    strip (v ++ y) = v ↔ strip v = v ∧ ∀ c ∈ y, isSpace c = true := by
  constructor
  · intro h
    have hv : strip v = v := by
      have hstrip := strip_strip (v ++ y)
      rwa [h] at hstrip
    refine ⟨hv, ?_⟩
    obtain ⟨a, b, hsplit, ha, hb⟩ := exists_strip_append (v ++ y)
    rw [h] at hsplit
    rcases v with _ | ⟨c, v⟩
    · simp only [List.nil_append] at hsplit
      intro d hd
      rw [hsplit, List.mem_append] at hd
      exact hd.elim (ha d) (hb d)
    · have hc := head_strip hv
      rcases a with _ | ⟨d, a⟩
      · have hy : y = b := by simpa using hsplit
        exact hy ▸ hb
      · obtain ⟨rfl, -⟩ := List.cons.inj hsplit
        rw [ha c List.mem_cons_self] at hc
        cases hc
  · rintro ⟨hv, hy⟩
    rw [strip_append_blank v hy, hv]

private theorem isComment_of_isSpace {c : Byte} (hc : isSpace c = true) : isComment c = false := by
  unfold isSpace at hc
  unfold isComment
  grind

private theorem takeWhile_blank_append {a : Bytes} (ha : ∀ c ∈ a, isSpace c = true) (s : Bytes) :
    (a ++ s).takeWhile (fun c => !isComment c) = a ++ s.takeWhile (fun c => !isComment c) := by
  refine List.takeWhile_append_of_pos ?_
  intro c hc
  simp [isComment_of_isSpace (ha c hc)]

/-- It makes no difference whether blanks are removed before a comment is, or after. The library
removes them before, and the statement about the policy is about what was written. -/
theorem strip_takeWhile_strip (s : Bytes) :
    strip ((strip s).takeWhile fun c => !isComment c) =
      strip (s.takeWhile fun c => !isComment c) := by
  obtain ⟨a, b, hsplit, ha, hb⟩ := exists_strip_append s
  have hb' : b.takeWhile (fun c => !isComment c) = b := by
    simpa using takeWhile_blank_append hb []
  conv_rhs => rw [hsplit, takeWhile_blank_append ha, strip_blank_append ha, List.takeWhile_append]
  split_ifs with hall
  · have hkeep : (strip s).takeWhile (fun c => !isComment c) = strip s :=
      (List.takeWhile_sublist _).eq_of_length hall
    rw [hb', strip_append_blank _ hb, hkeep]
  · rfl

/-- A value that begins with no quote ends before the first comment. How quoted values are decoded
is not needed for it. -/
theorem value_of_unquoted (quoted : Byte → Bytes → Bytes) {s : Bytes} (hs : Unquoted s) :
    value quoted (strip s) = strip (s.takeWhile fun c => !isComment c) := by
  rw [← strip_takeWhile_strip]
  rcases hstrip : strip s with _ | ⟨c, t⟩
  · rfl
  · have hquote : isQuote c = false := hs c (by simp [hstrip])
    unfold value
    dsimp only
    rw [if_neg (by simp [hquote])]

/-- The spaces before an unquoted value are no blanks before a quote. So the private reader
removes spaces only. -/
theorem Unquoted.head_dropWhile {s : Bytes} (hs : Unquoted s) (n : ℕ) :
    ((s.take n).dropWhile (· == space)).head? ≠ some quote := by
  intro h
  obtain ⟨t, ht⟩ : ∃ t, (s.take n).dropWhile (· == space) = quote :: t := by
    rcases hdrop : (s.take n).dropWhile (· == space) with _ | ⟨c, t⟩
    · simp [hdrop] at h
    · obtain rfl : c = quote := by simpa [hdrop] using h
      exact ⟨t, rfl⟩
  have hsplit : s = (s.take n).takeWhile (· == space) ++ quote :: (t ++ s.drop n) := by
    conv_lhs => rw [← List.take_append_drop n s,
      ← List.takeWhile_append_dropWhile (p := (· == space)) (l := s.take n), ht]
    simp
  have hblank : ∀ c ∈ (s.take n).takeWhile (· == space), isSpace c = true := by
    intro c hc
    have hc' : c = space := by simpa using List.mem_takeWhile_imp hc
    rw [hc']
    decide
  have hstrip : strip s = quote :: trimRight (t ++ s.drop n) := by
    conv_lhs => rw [hsplit, strip_blank_append hblank]
    exact strip_cons_of_neg (by decide : isSpace quote = false) _
  have hquote := hs quote (by rw [hstrip]; rfl)
  exact absurd hquote (by decide)

/-- An unquoted policy is spelled by what follows its spaces. The private reader and the library
differ only in comments and blanks then. -/
theorem valueText_of_head {r : Bytes} (hr : (r.dropWhile (· == space)).head? ≠ some quote) :
    valueText r = r.dropWhile (· == space) ∧ ¬ OnlyQuotes r := by
  have hdrop : (r.dropWhile (· == space)).dropWhile (· == quote) = r.dropWhile (· == space) := by
    rcases hv : r.dropWhile (· == space) with _ | ⟨c, v⟩
    · rfl
    · have hc : c ≠ quote := by simpa [hv] using hr
      exact List.dropWhile_cons_of_neg (by simpa using hc)
  constructor
  · unfold valueText
    dsimp only
    rw [hdrop, if_neg (fun h => hr h.1)]
  · rintro ⟨hne, hnil⟩
    rw [hdrop] at hnil
    exact hne hnil

/-- The value up to a comment is what the private reader sees of an unquoted policy exactly if
the two readers read the policy alike. -/
theorem strip_takeWhile_eq_iff (policy : Bytes) :
    strip (policy.takeWhile fun c => !isComment c) = (policy.take 493).dropWhile (· == space) ↔
      ReadsAlike policy := by
  set v := (policy.take 493).dropWhile (· == space) with hv
  have hsplit : policy.take 493 = (policy.take 493).takeWhile (· == space) ++ v :=
    List.takeWhile_append_dropWhile.symm
  have hblank : ∀ c ∈ (policy.take 493).takeWhile (· == space), isSpace c = true := by
    intro c hc
    have hc' : c = space := by simpa using List.mem_takeWhile_imp hc
    rw [hc']
    decide
  by_cases hcomment : ∀ c ∈ policy.take 493, isComment c = false
  · have htake : policy.takeWhile (fun c => !isComment c) =
        policy.take 493 ++ (policy.drop 493).takeWhile (fun c => !isComment c) := by
      conv_lhs => rw [← List.take_append_drop 493 policy]
      refine List.takeWhile_append_of_pos ?_
      intro c hc
      simp [hcomment c hc]
    rw [htake, hsplit, List.append_assoc, strip_blank_append hblank, strip_append_eq_self_iff]
    constructor
    · rintro ⟨hstripped, hrest⟩
      exact ⟨hcomment, hstripped, hrest⟩
    · intro h
      exact ⟨h.stripped, h.rest⟩
  · refine iff_of_false ?_ (fun h => hcomment h.noComment)
    intro h
    apply hcomment
    intro c hc
    rw [hsplit, List.mem_append] at hc
    rcases hc with hc | hc
    · exact isComment_of_isSpace (hblank c hc)
    · rw [← h] at hc
      simpa using List.mem_takeWhile_imp ((strip_sublist _).subset hc)

/-- The INI library reads a path as it is written exactly if it is plain. -/
theorem value_strip_eq_self_iff {quoted : Byte → Bytes → Bytes}
    (hquoted : ∀ q s, (quoted q s).Sublist (q :: s)) {path : Bytes} :
    value quoted (strip path) = path ↔ PlainPath quoted path := by
  constructor
  · intro h
    have hstripped : strip path = path := by
      refine (strip_sublist path).eq_of_length_le ?_
      have hle := (value_sublist hquoted (strip path)).length_le
      rwa [h] at hle
    rw [hstripped] at h
    rcases path with _ | ⟨c, s⟩
    · exact ⟨hstripped, by simp, by simp⟩
    · unfold value at h
      dsimp only at h
      split_ifs at h with hquote
      · refine ⟨hstripped, ?_, fun hend => absurd (hend c s rfl hquote.1) hquote.2⟩
        rintro _ _ hpath - -
        obtain ⟨rfl, rfl⟩ := List.cons.inj hpath
        exact h
      · have htake : (c :: s).takeWhile (fun d => !isComment d) = c :: s := by
          refine (List.takeWhile_sublist _).eq_of_length_le ?_
          have hle := (strip_sublist ((c :: s).takeWhile fun d => !isComment d)).length_le
          rwa [h] at hle
        refine ⟨hstripped, ?_, ?_⟩
        · rintro _ _ hpath hq hne
          obtain ⟨rfl, rfl⟩ := List.cons.inj hpath
          exact absurd ⟨hq, hne⟩ hquote
        · intro _ d hd
          rw [← htake] at hd
          simpa using List.mem_takeWhile_imp hd
  · rintro ⟨hstripped, hunquoted, hcomment⟩
    rw [hstripped]
    rcases path with _ | ⟨c, s⟩
    · rfl
    · unfold value
      dsimp only
      split_ifs with hquote
      · exact hunquoted c s rfl hquote.1 hquote.2
      · have hend : ∀ d t, c :: s = d :: t → isQuote d = true → t = [] := by
          intro d t hpath hd
          obtain ⟨rfl, rfl⟩ := List.cons.inj hpath
          by_contra hne
          exact hquote ⟨hd, hne⟩
        have htake : (c :: s).takeWhile (fun d => !isComment d) = c :: s := by
          refine List.takeWhile_eq_self_iff.mpr ?_
          intro d hd
          simp [hcomment hend d hd]
        rw [htake, hstripped]

/-- The first byte of a stripped text is the first one that is no blank. Whether a text is quoted
can be told before it is stripped. -/
theorem head?_strip (s : Bytes) : (strip s).head? = (s.dropWhile isSpace).head? := by
  rcases hdrop : s.dropWhile isSpace with _ | ⟨c, t⟩
  · rw [strip, hdrop]
    rfl
  · have hc : isSpace c = false := head_dropWhile hdrop
    rw [← List.takeWhile_append_dropWhile (p := isSpace) (l := s), hdrop,
      strip_blank_append fun d hd => List.mem_takeWhile_imp hd, strip_cons_of_neg hc]
    rfl

/-- Blanks are dropped in front of a byte that is none. The comparison of the two readers begins
behind the blanks. -/
theorem dropWhile_append_cons (s : Bytes) {c : Byte} (hc : isSpace c = false) (t : Bytes) :
    (s ++ c :: t).dropWhile isSpace = s.dropWhile isSpace ++ c :: t := by
  rw [List.dropWhile_append]
  split_ifs with hs
  · rw [List.isEmpty_iff.mp hs, List.dropWhile_cons_of_neg (by simp [hc])]
    rfl
  · rfl

/-- A policy that goes on takes in a line that begins with `V`. The letter is the one of
`VALIDATE_REQUIRED`, and no more of the line matters here. -/
theorem exists_joinedPolicy (os : OsType) (dic : Dictionary) {policy : Bytes}
    (hgoes : continues policy = true) :
    ∃ t, joinedPolicy os dic policy = carryOver policy ++ 86 :: t :=
  ⟨_, if_pos hgoes⟩

/-- The line that a policy takes in puts no quote in front of it. The library decodes nothing in
it. -/
theorem unquoted_joinedPolicy {policy : Bytes} (hs : Unquoted policy) (os : OsType)
    (dic : Dictionary) : Unquoted (joinedPolicy os dic policy) := by
  by_cases hgoes : continues policy = true
  · obtain ⟨b, hsplit, -⟩ := exists_of_continues hgoes
    obtain ⟨t, ht⟩ := exists_joinedPolicy os dic hgoes
    intro c hc
    rw [ht, head?_strip, dropWhile_append_cons _ (by decide)] at hc
    rcases hfront : (carryOver policy).dropWhile isSpace with _ | ⟨d, front⟩
    · rw [hfront] at hc
      obtain rfl := Option.some.inj hc
      decide
    · rw [hfront] at hc
      apply hs c
      rw [head?_strip, hsplit, dropWhile_append_cons _ (by decide), hfront]
      exact hc
  · rwa [joinedPolicy, if_neg hgoes]

/-- A policy that goes on and has no comment is not read alike: where the private reader finds the
backslash, the INI library finds the name of the next key. -/
theorem joinedPolicy_ne (os : OsType) (dic : Dictionary) {policy : Bytes}
    (hgoes : continues policy = true) (hcomment : ∀ c ∈ policy, isComment c = false)
    (hlength : policy.length ≤ 495) :
    (strip ((joinedPolicy os dic policy).takeWhile fun c => !isComment c)).take 511 ≠
      (policy.take 493).dropWhile (· == space) := by
  obtain ⟨b, hsplit, -⟩ := exists_of_continues hgoes
  obtain ⟨t, ht⟩ := exists_joinedPolicy os dic hgoes
  set front := (carryOver policy).dropWhile isSpace with hfront
  -- the INI library reads `V` behind the bytes that are no blanks at the front
  have hlibrary : ∃ u, (strip ((joinedPolicy os dic policy).takeWhile fun c =>
      !isComment c)).take 511 = front ++ 86 :: u := by
    have hkeep : ∀ c ∈ carryOver policy, (!isComment c) = true := by
      intro c hc
      have hmem : c ∈ policy := by
        rw [hsplit]
        exact List.mem_append_left _ hc
      simp [hcomment c hmem]
    have hshort : front.length < 511 := by
      have hle := (List.dropWhile_sublist (l := carryOver policy) isSpace).length_le
      have hcarry := length_carryOver_le policy
      rw [← hfront] at hle
      omega
    obtain ⟨k, hk⟩ : ∃ k, 511 - front.length = k + 1 := ⟨510 - front.length, by omega⟩
    rw [ht, List.takeWhile_append_of_pos hkeep, List.takeWhile_cons_of_pos (by decide), strip,
      dropWhile_append_cons _ (by decide), ← hfront, trimRight_append_of_neg _ (by decide),
      List.take_append, List.take_of_length_le hshort.le, hk, List.take_succ_cons]
    exact ⟨_, rfl⟩
  -- the private reader reads a part of the policy
  intro heq
  obtain ⟨u, hu⟩ := hlibrary
  have hspaces : ∀ c ∈ (policy.take 493).takeWhile (· == space), isSpace c = true := by
    intro c hc
    have hc' : c = space := by simpa using List.mem_takeWhile_imp hc
    rw [hc']
    decide
  have hpolicy : policy = (policy.take 493).takeWhile (· == space) ++
      ((front ++ 86 :: u) ++ policy.drop 493) := by
    conv_lhs => rw [← List.take_append_drop 493 policy,
      ← List.takeWhile_append_dropWhile (p := (· == space)) (l := policy.take 493), ← heq, hu]
    rw [List.append_assoc]
  have hread : policy.dropWhile isSpace = front ++ 86 :: (u ++ policy.drop 493) := by
    conv_lhs => rw [hpolicy, List.dropWhile_append_of_pos hspaces, List.append_assoc,
      List.cons_append, dropWhile_append_cons _ (by decide)]
    rw [hfront, List.dropWhile_idempotent]
  have hwritten : policy.dropWhile isSpace = front ++ backslash :: b := by
    conv_lhs => rw [hsplit, dropWhile_append_cons _ (by decide)]
  have hbytes := List.append_cancel_left (hread.symm.trans hwritten)
  exact absurd (List.cons.inj hbytes).1 (by decide)

/-- A policy with a comment is cut off there, whether it goes on or not. The line that is taken in
stands behind the comment. -/
theorem takeWhile_joinedPolicy (os : OsType) (dic : Dictionary) {policy : Bytes}
    (hcomment : continues policy = true → ∃ c ∈ policy, isComment c = true) :
    (joinedPolicy os dic policy).takeWhile (fun c => !isComment c) =
      policy.takeWhile fun c => !isComment c := by
  by_cases hgoes : continues policy = true
  · obtain ⟨b, hsplit, hblank⟩ := exists_of_continues hgoes
    obtain ⟨t, ht⟩ := exists_joinedPolicy os dic hgoes
    have hcut : ((carryOver policy).takeWhile fun c => !isComment c).length ≠
        (carryOver policy).length := by
      intro hall
      have hkeep := (List.takeWhile_sublist (l := carryOver policy) fun c =>
        !isComment c).eq_of_length hall
      obtain ⟨c, hc, hcommentC⟩ := hcomment hgoes
      rw [hsplit] at hc
      rcases List.mem_append.mp hc with hc | hc
      · rw [← hkeep] at hc
        have hno := List.mem_takeWhile_imp hc
        rw [hcommentC] at hno
        cases hno
      · rcases List.mem_cons.mp hc with rfl | hc
        · exact absurd hcommentC (by decide)
        · rw [isComment_of_isSpace (hblank c hc)] at hcommentC
          cases hcommentC
    rw [ht, List.takeWhile_append, if_neg hcut]
    conv_rhs => rw [hsplit, List.takeWhile_append, if_neg hcut]
  · rw [joinedPolicy, if_neg hgoes]

section

variable {ini : LineParser} {os : OsType} {old new policy : Bytes} {dic : Dictionary}

private theorem not_prefixAt_of_notMem {m : Bytes} (hm : (86 : Byte) ∉ m) : ¬ PrefixAt m := by
  rintro ⟨k, hk⟩
  have hmem : (86 : Byte) ∈ validatePolicy := by decide
  exact hm (List.mem_of_mem_drop (hk.subset hmem))

private theorem notMem_boolSetting {key : Key} {absent : Bool} (hkey : (86 : Byte) ∉ key.text) :
    (86 : Byte) ∉ settingLine (boolSetting dic key absent) := by
  have htext : (86 : Byte) ∉ (boolSetting dic key absent).2 := by
    have hbool : ∀ b, (86 : Byte) ∉ boolText b := by decide
    unfold boolSetting
    dsimp only
    split_ifs
    · exact hbool _
    · exact hbool _
  have hmiddle : (86 : Byte) ∉ bytes " = " := by decide
  simp only [settingLine, List.mem_append, not_or]
  exact ⟨⟨hkey, hmiddle⟩, htext⟩

private theorem notMem_intSetting {key : Key} {fallback : ℤ} (hkey : (86 : Byte) ∉ key.text) :
    (86 : Byte) ∉ settingLine (intSetting dic key fallback) := by
  have htext : (86 : Byte) ∉ (intSetting dic key fallback).2 :=
    fun h => absurd (decimal_numeral h) (by decide)
  have hmiddle : (86 : Byte) ∉ bytes " = " := by decide
  simp only [settingLine, List.mem_append, not_or]
  exact ⟨⟨hkey, hmiddle⟩, htext⟩

/-- An updated file at its policy line: no earlier line has the prefix of the private reader, so
the reader stops at this one. -/
theorem Updated.exists_policy_line (u : Updated ini os old new dic policy) :
    ∃ before after, new = unlines before ++
        (settingLine (Key.text .validatePolicy, policy) ++ newline :: after) ∧
      (∀ m ∈ before, newline ∉ m) ∧ ∀ m ∈ before, ¬ PrefixAt m := by
  refine ⟨bytes "[Password]" :: ((settings os dic policy).take 3).map settingLine,
    unlines (((settings os dic policy).drop 4).map settingLine), ?_, ?_, ?_⟩
  · rw [u.new_eq]
    simp [appendString, sectionText, settings]
  · intro m hm
    rcases List.mem_cons.mp hm with rfl | hm
    · decide
    · obtain ⟨s, hs, rfl⟩ := List.mem_map.mp hm
      have hs' := List.mem_of_mem_take hs
      exact newline_notMem_settingLine (isKey_of_mem_settings hs') (u.setting_line hs').1
  · intro m hm
    apply not_prefixAt_of_notMem
    simp only [settings, List.take_succ_cons, List.take_zero, List.map_cons, List.map_nil,
      List.mem_cons, List.not_mem_nil, or_false] at hm
    rcases hm with rfl | rfl | rfl | rfl
    · decide
    · exact notMem_boolSetting (by decide)
    · exact notMem_intSetting (by decide)
    · exact notMem_intSetting (by decide)

/-- **The private reader on an updated file** sees the first 493 bytes of the policy. -/
theorem Updated.getValidatePolicy_new (u : Updated ini os old new dic policy) :
    getValidatePolicy (some new) =
      if OnlyQuotes (policy.take 493) then .overrun
      else .written (valueText (policy.take 493)) := by
  obtain ⟨before, after, hnew, hlines, hmiss⟩ := u.exists_policy_line
  set line := settingLine (Key.text .validatePolicy, policy) with hline
  have hsplit : line = bytes "VALIDATE_POLICY " ++ equals :: space :: policy := rfl
  have hnewline : newline ∉ line :=
    newline_notMem_settingLine (Key.isKey_text .validatePolicy) u.policy_range.1
  have hbegins : validatePolicy <+: line := by
    rw [hline]
    exact (List.prefix_append _ _).trans (List.prefix_append _ _)
  have hends : EndsLine (newline :: after) := Or.inr ⟨after, rfl⟩
  obtain ⟨e, he, hpiece⟩ := exists_firstPiece hnewline hends
  have hcut : newline ∉ line.take 511 := fun h => hnewline (List.mem_of_mem_take h)
  have htake : line.take 511 = bytes "VALIDATE_POLICY " ++ equals :: space :: policy.take 493 := by
    rw [hsplit]
    rfl
  have hequals : equals ∈ line.take 511 := by
    rw [htake]
    simp
  have hafter : afterEquals (line.take 511) = space :: policy.take 493 := by
    rw [htake]
    exact afterEquals_append (by decide) _
  have honly : OnlyQuotes (space :: policy.take 493) ↔ OnlyQuotes (policy.take 493) := Iff.rfl
  have hstring : (0 : Byte) ∉ line.take 511 ++ e := by
    have hfront : (0 : Byte) ∉ bytes "VALIDATE_POLICY " ++ [equals, space] := by decide
    rw [htake]
    intro hzero
    simp only [List.mem_append, List.mem_cons, not_or, List.not_mem_nil, or_false] at hzero hfront
    rcases hzero with (hzero | hzero | hzero | hzero) | hzero
    · exact hfront.1 hzero
    · exact hfront.2.1 hzero
    · exact hfront.2.2 hzero
    · exact u.policy_range.2.1 (List.mem_of_mem_take hzero)
    · rcases he with rfl | rfl
      · exact absurd hzero List.not_mem_nil
      · exact absurd hzero (by decide)
  unfold getValidatePolicy
  dsimp only
  rw [hnew, policyPiece_unlines hlines hmiss, policyPiece_of_begins hnewline hends hbegins]
  dsimp only
  rw [hpiece, cString_eq_self hstring, copyPolicy_eq hcut he, if_pos hequals, hafter,
    valueText_space]
  exact if_congr honly rfl rfl

/-- The policy of an updated file as the private reader and the loader obtain it. A policy of
quotes only overruns the buffer of the reader. -/
theorem Updated.characterTypeOf_new (u : Updated ini os old new dic policy) :
    characterTypeOf new (newDictionary ini os dic policy) =
      if OnlyQuotes (policy.take 493) then .error .overrun
      else .ok (valueText (policy.take 493)) := by
  unfold characterTypeOf
  rw [if_pos (findEntry_newDictionary (mem_readSettings_policy os dic policy)),
    u.getValidatePolicy_new]
  split_ifs <;> rfl

/-- **Loading an updated file.** It gives options exactly if the dictionary path fits and the
policy is not, after its spaces, quotes only. -/
theorem Updated.loadPwdConf_new (u : Updated ini os old new dic policy)
    (options : Options) :
    loadPwdConf ini (some new) (some new) = .ok options ↔
      PathFits ini dic ∧ ¬ OnlyQuotes (policy.take 493) ∧
        options = optionsOf (newDictionary ini os dic policy) (valueText (policy.take 493)) := by
  by_cases hfits : PathFits ini dic
  · have hload : ini.load new = some (newDictionary ini os dic policy) := by
      rw [u.load_new, if_pos hfits]
    rw [loadPwdConf_of_load hload, u.characterTypeOf_new]
    split_ifs with honly
    · simp [Except.map, honly]
    · simp [Except.map, honly, hfits, eq_comm]
  · have hload : ini.load new = none := by rw [u.load_new, if_neg hfits]
    simp [loadPwdConf, loadFile, hload, hfits]

/-- The public getter on an updated file: the policy as it is read, up to a comment. -/
theorem Updated.getPwValidatePolicyByConf_new (u : Updated ini os old new dic policy)
    (hfits : PathFits ini dic) (hunquoted : Unquoted policy) :
    getPwValidatePolicyByConf ini (some new) =
      (strip ((joinedPolicy os dic policy).takeWhile fun c => !isComment c)).take 511 := by
  have hload : ini.load new = some (newDictionary ini os dic policy) := by
    rw [u.load_new, if_pos hfits]
  have hget : getstring (newDictionary ini os dic policy) (Key.name .validatePolicy) [] =
      strip ((joinedPolicy os dic policy).takeWhile fun c => !isComment c) := by
    unfold getstring
    rw [get_newDictionary (mem_readSettings_policy os dic policy), Option.getD_some,
      value_of_unquoted ini.quoted (unquoted_joinedPolicy hunquoted os dic)]
  simp only [getPwValidatePolicyByConf, loadFile, Option.bind_some, hload, Option.map_some, hget]

/-- The getter finds what the private reader sees exactly if both read the policy alike, and it
does not go on, or a comment ends it before. -/
theorem Updated.strip_joinedPolicy_eq_iff (u : Updated ini os old new dic policy) :
    (strip ((joinedPolicy os dic policy).takeWhile fun c => !isComment c)).take 511 =
        (policy.take 493).dropWhile (· == space) ↔
      ReadsAlike policy ∧ (continues policy = true → ∃ c ∈ policy, isComment c = true) := by
  have hlength := u.policy_range.2.2.2
  by_cases hcomment : continues policy = true → ∃ c ∈ policy, isComment c = true
  · have hshort : (strip (policy.takeWhile fun c => !isComment c)).length ≤ 511 := by
      have hstrip := (strip_sublist (policy.takeWhile fun c => !isComment c)).length_le
      have htake := (List.takeWhile_sublist (l := policy) fun c => !isComment c).length_le
      omega
    rw [takeWhile_joinedPolicy os dic hcomment, List.take_of_length_le hshort,
      strip_takeWhile_eq_iff, and_iff_left hcomment]
  · refine iff_of_false ?_ (fun h => hcomment h.2)
    rw [Classical.not_imp] at hcomment
    obtain ⟨hgoes, hnone⟩ := hcomment
    exact joinedPolicy_ne os dic hgoes (by simpa using hnone) hlength

/-- **The two readers of the policy.** In a file that the tool has written with an unquoted
policy, the public getter returns the string that the check uses exactly if the file can be
read again and the policy reads alike, and it does not end in a backslash that makes it go on. -/
theorem samePolicy_iff (u : Updated ini os old new dic policy) (hunquoted : Unquoted policy) :
    SamePolicy ini new ↔ PathFits ini dic ∧ ReadsAlike policy ∧
      (continues policy = true → ∃ c ∈ policy, isComment c = true) := by
  obtain ⟨hvalue, honly⟩ := valueText_of_head (hunquoted.head_dropWhile 493)
  have hcharacterType : ∀ d : Dictionary, ∀ t, (optionsOf d t).characterType = t := fun _ _ => rfl
  constructor
  · rintro ⟨options, hoptions, hsame⟩
    obtain ⟨hfits, -, rfl⟩ := (u.loadPwdConf_new options).mp hoptions
    refine ⟨hfits, u.strip_joinedPolicy_eq_iff.mp ?_⟩
    rw [← hvalue, ← u.getPwValidatePolicyByConf_new hfits hunquoted, hsame, hcharacterType]
  · rintro ⟨hfits, halike⟩
    refine ⟨_, (u.loadPwdConf_new _).mpr ⟨hfits, honly, rfl⟩, ?_⟩
    rw [u.getPwValidatePolicyByConf_new hfits hunquoted, hcharacterType, hvalue]
    exact u.strip_joinedPolicy_eq_iff.mpr halike

end

/-- A file whose policy is one group of digits. -/
def digitsFile : Bytes := bytes "[Password]\nVALIDATE_POLICY = 1234567890\n"

/-- The dictionary of that file. -/
def digitsDictionary : Dictionary := [(bytes "password:validate_policy", bytes "1234567890")]

/-- The update of that file. -/
theorem digitsFile_updated :
    Updated iniparser .server digitsFile
      (appendString .server digitsDictionary (bytes "1234567890")) digitsDictionary
      (bytes "1234567890") :=
  updated_of_load rfl (by decide +kernel) (by decide +kernel)

/-- A policy of one group is reported as it is used. -/
theorem samePolicy_iff_digitsFile :
    SamePolicy iniparser (appendString .server digitsDictionary (bytes "1234567890")) := by
  have hunquoted : Unquoted (bytes "1234567890") := by
    intro c hc
    obtain rfl : 49 = c := Option.some.inj hc
    decide
  exact (samePolicy_iff digitsFile_updated hunquoted).mpr
    ⟨by decide, ⟨by decide +kernel, by decide, by decide +kernel⟩, by decide⟩

/-- Of the default policy only the digits are reported: the getter stops at the semicolon that
separates the groups. -/
theorem defaultPolicy_not_samePolicy :
    updateConf iniparser allSucceed .professional (some emptySection) =
        .ok (0, some (appendString .professional [] defaultPolicy)) ∧
      getPwValidatePolicyByConf iniparser (some (appendString .professional [] defaultPolicy)) =
        bytes "1234567890" ∧
      getValidatePolicy (some (appendString .professional [] defaultPolicy)) =
        .written defaultPolicy ∧
      ¬ SamePolicy iniparser (appendString .professional [] defaultPolicy) := by
  have u := emptySection_updated
  have hfits : PathFits iniparser [] := by decide
  have hunquoted : Unquoted defaultPolicy := by
    intro c hc
    obtain rfl : 49 = c := Option.some.inj hc
    decide
  have hgetter : getPwValidatePolicyByConf iniparser
      (some (appendString .professional [] defaultPolicy)) = bytes "1234567890" := by
    rw [u.getPwValidatePolicyByConf_new hfits hunquoted]
    decide +kernel
  have hreader : getValidatePolicy (some (appendString .professional [] defaultPolicy)) =
      .written defaultPolicy := by
    rw [u.getValidatePolicy_new]
    decide
  refine ⟨u.run, hgetter, hreader, ?_⟩
  rintro ⟨options, hoptions, hsame⟩
  obtain ⟨-, -, rfl⟩ := (u.loadPwdConf_new options).mp hoptions
  rw [hgetter] at hsame
  exact absurd hsame (by decide)

end DeepinPwCheck
