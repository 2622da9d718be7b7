import DeepinPwCheck.Options
import DeepinPwCheck.Text.IntLength
import DeepinPwCheck.Text.Utf8

/-!
# The character rule

`is_type_valid` cuts the policy into groups with `strtok`, counts the groups that
share a character with the password, and then asks that every character of the
password occurs in some group. A group of symbols is fused with its successor when
the policy goes on with another symbol. Both loops over the password run to its length as an
`int`; only `include_chinese` follows the pointer to the terminator.
-/

namespace DeepinPwCheck

open CText

/-- `include_chinese`: two neighbouring bytes with the high bit set. -/
def includeChinese : Bytes → Bool
  | [] => false
  | [_] => false
  | c :: d :: rest =>
      if c &&& 0x80 ≠ 0 ∧ d &&& 0x80 ≠ 0 then true else includeChinese (d :: rest)

/-- The four ranges of ASCII punctuation that `is_type_valid` tests for. -/
def isSymbol (c : Byte) : Bool :=
  (33 ≤ c && c ≤ 47) || (58 ≤ c && c ≤ 64) || (91 ≤ c && c ≤ 96) || (123 ≤ c && c ≤ 126)

/-- `strtok` with the separator `;` on what is left of the string: the next token
and what follows its delimiter. -/
def strtok (rest : Bytes) : Option (Bytes × Bytes) :=
  match rest.dropWhile (· == semicolon) with
  | [] => none
  | c :: s => some ((c :: s).takeWhile (· != semicolon),
      ((c :: s).dropWhile (· != semicolon)).tail)

/-- The `if` at the top of the token loop. A token that begins with a symbol is
joined with the next one if the byte after its delimiter exists and is a symbol. -/
def fuseSymbols (p rest : Bytes) : Bytes × Bytes :=
  if isSymbol (p.headD 0) then
    match rest with
    | [] => (p, rest)
    | nextData :: _ =>
        if isSymbol nextData then
          match strtok rest with
          | some (pp, rest) => (p ++ semicolon :: pp, rest)
          | none => (p, rest)
        else (p, rest)
  else (p, rest)

/-- The variables that the token loop accumulates. -/
structure TypeState where
  allCharacter : Bytes
  pass : ℤ

/-- The loop body: append the group to `all_character`, and count it if it shares a
character with what the loop reads of the password. -/
def TypeState.addGroup (pw p : Bytes) (s : TypeState) : TypeState where
  allCharacter := s.allCharacter ++ p
  pass := if (seen pw).any (· ∈ p) then s.pass + 1 else s.pass

/-- A token is not empty, so every call of `strtok` shortens what is left. The recursion over the
policy terminates because of it. -/
theorem strtok_length_lt {rest p rest' : Bytes} (h : strtok rest = some (p, rest')) :
    rest'.length < rest.length := by
  unfold strtok at h
  cases hdrop : rest.dropWhile (· == semicolon) with
  | nil => simp [hdrop] at h
  | cons c s =>
    have hc := head_dropWhile hdrop
    have hle : (c :: s).length ≤ rest.length := by
      rw [← hdrop]
      exact (List.dropWhile_suffix _).length_le
    simp only [hdrop, Option.some.injEq, Prod.mk.injEq] at h
    rw [← h.2, List.length_tail]
    have hdropLe := (List.dropWhile_suffix (l := c :: s) (· != semicolon)).length_le
    simp only [List.length_cons] at hle hdropLe ⊢
    omega

/-- Fusing consumes more of the policy or nothing. The loop over the policy terminates because of
it. -/
theorem fuseSymbols_length_le (p rest : Bytes) : (fuseSymbols p rest).2.length ≤ rest.length := by
  unfold fuseSymbols
  split_ifs
  · cases rest with
    | nil => exact le_rfl
    | cons nextData tail =>
      dsimp only
      split_ifs
      · cases htok : strtok (nextData :: tail) with
        | none => exact le_rfl
        | some result => exact (strtok_length_lt htok).le
      · exact le_rfl
  · exact le_rfl

/-- The token loop of `is_type_valid` on what is left of the policy. -/
def typeLoop (pw rest : Bytes) (s : TypeState) : TypeState :=
  match _htok : strtok rest with
  | none => s
  | some (p, rest') =>
      let fused := fuseSymbols p rest'
      typeLoop pw fused.2 (s.addGroup pw fused.1)
termination_by rest.length
decreasing_by
  have hfuse := fuseSymbols_length_le p rest'
  have htok := strtok_length_lt _htok
  omega

/-- `is_type_valid`. -/
def isTypeValid (pw characterType : Bytes) (characterNumRequired : ℤ) : PwErrorType :=
  if includeChinese pw then .characterInvalid
  else
    let result := typeLoop pw characterType ⟨[], 0⟩
    if !(seen pw).all (· ∈ result.allCharacter) then .characterInvalid
    else if result.pass < characterNumRequired then .characterTypeTooFew
    else .noErr

/-- The character rule accepts a password without neighbouring high bytes whose every
character that is read occurs in a group, if enough groups were counted. -/
theorem isTypeValid_eq_noErr_iff {pw characterType : Bytes} {characterNumRequired : ℤ} :
    isTypeValid pw characterType characterNumRequired = .noErr ↔
      includeChinese pw = false ∧
      (∀ c ∈ seen pw, c ∈ (typeLoop pw characterType ⟨[], 0⟩).allCharacter) ∧
      characterNumRequired ≤ (typeLoop pw characterType ⟨[], 0⟩).pass := by
  unfold isTypeValid
  dsimp only
  split_ifs with hhigh hall hfew
  · simp [hhigh]
  · simp only [false_iff]
    rintro ⟨_, hall', _⟩
    have hevery : (seen pw).all (· ∈ (typeLoop pw characterType ⟨[], 0⟩).allCharacter) = true := by
      simpa using hall'
    simp [hevery] at hall
  · simp only [false_iff]
    rintro ⟨_, _, hle⟩
    omega
  · simp only [true_iff]
    exact ⟨by simpa using hhigh, by simpa using hall, by omega⟩

/-- The number of groups that are asked for decides nothing but the last test. No more of
the character rule is needed for strictness. -/
theorem isTypeValid_mono {pw characterType : Bytes} {low high : ℤ} (hle : low ≤ high)
    (h : isTypeValid pw characterType high = .noErr) :
    isTypeValid pw characterType low = .noErr := by
  obtain ⟨hhigh, hall, hpass⟩ := isTypeValid_eq_noErr_iff.mp h
  exact isTypeValid_eq_noErr_iff.mpr ⟨hhigh, hall, hle.trans hpass⟩

/-- A byte without the high bit is in no pair. Text of ASCII is passed over byte by byte. -/
theorem includeChinese_cons_of_low {b : Byte} (hb : b &&& 0x80 = 0) (rest : Bytes) :
    includeChinese (b :: rest) = includeChinese rest := by
  cases rest with
  | nil => rfl
  | cons d rest =>
    rw [includeChinese, if_neg]
    rintro ⟨hhigh, -⟩
    exact hhigh hb

/-- In UTF-8 the pairs are the characters outside ASCII. -/
theorem includeChinese_utf8_iff (text : List Char) :
    includeChinese (utf8 text) = true ↔ ∃ c ∈ text, 128 ≤ c.toNat := by
  induction text with
  | nil => simp [includeChinese]
  | cons c text ih =>
    rw [utf8_cons, List.exists_mem_cons_iff]
    rcases Nat.lt_or_ge c.toNat 128 with hascii | hother
    · obtain ⟨b, hb, hlow⟩ := utf8EncodeChar_of_lt hascii
      rw [hb, List.singleton_append, includeChinese_cons_of_low hlow, ih, or_iff_right]
      omega
    · obtain ⟨b, d, rest, hbytes, hb, hd⟩ := utf8EncodeChar_of_le hother
      rw [hbytes, List.cons_append, List.cons_append, includeChinese, if_pos ⟨hb, hd⟩]
      simp [hother]

/-- **Characters outside ASCII.** `include_chinese` finds exactly them in a password in UTF-8,
and the character rule rejects such a password under every policy, whatever it lists. -/
theorem isTypeValid_utf8 (text : List Char) :
    (includeChinese (utf8 text) = true ↔ ∃ c ∈ text, 128 ≤ c.toNat) ∧
      ((∃ c ∈ text, 128 ≤ c.toNat) → ∀ (policy : Bytes) (required : ℤ),
        isTypeValid (utf8 text) policy required = .characterInvalid) := by
  refine ⟨includeChinese_utf8_iff text, ?_⟩
  intro hother policy required
  unfold isTypeValid
  rw [if_pos ((includeChinese_utf8_iff text).mpr hother)]

/-- A password of one Chinese character, under a policy that lists it. -/
theorem isTypeValid_utf8_chinese :
    isTypeValid (utf8 [Char.ofNat 0x4e2d]) (utf8 [Char.ofNat 0x4e2d]) 1 = .characterInvalid :=
  (isTypeValid_utf8 _).2 ⟨_, List.mem_singleton_self _, by decide⟩ _ _

end DeepinPwCheck
