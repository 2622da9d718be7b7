import DeepinPwCheck.AcceptedStrength
import DeepinPwCheck.Tool.Lifecycle

/-!
# The rules of a fresh installation

The tool installs the defaults of an edition. With them the desktop edition accepts every
password of visible characters up to 510 bytes. The server editions ask for eight bytes and
three kinds of characters, and try the other rules.
-/

namespace DeepinPwCheck

open CText Ini PairScan

/-- A visible character of ASCII: printable, and not the space. -/
def isVisible (c : Byte) : Bool := 33 ≤ c && c ≤ 126

/-- Digits, small letters, capital letters and symbols. -/
def characterKinds : List (Byte → Bool) := [isDigit, isLowerCase, isUpperCase, isSymbol]

/-- The number of kinds of characters in a password. -/
def kindCount (pw : Bytes) : ℕ := characterKinds.countP fun kind => pw.any kind

/-- The visible characters are those of the four kinds. The rules of the editions are stated
with the range of codes and proved with the groups. -/
theorem isVisible_iff {c : Byte} :
    isVisible c = true ↔ ∃ kind ∈ characterKinds, kind c = true := by
  simp [characterKinds, isVisible, isDigit, isLowerCase, isUpperCase, isSymbol,
    UInt8.le_iff_toNat_le]
  omega

/-- A group has the characters of a kind if its codes are those of the kind. Comparing codes
spares the proofs a case for each character. -/
theorem decide_mem_eq {group : Bytes} {kind : Byte → Bool} {codes : List ℕ}
    (hcodes : group.map UInt8.toNat = codes) (hkind : ∀ c, c.toNat ∈ codes ↔ kind c = true) :
    (fun c => decide (c ∈ group)) = kind := by
  funext c
  rw [Bool.eq_iff_iff, decide_eq_true_iff, ← hkind, ← hcodes]
  exact (List.mem_map_of_injective fun _ _ => UInt8.toNat_inj.mp).symm

/-- The groups of the default policy are the four kinds of characters. The policy is data of the
program, so this is where it is checked. -/
theorem memGroups_defaultPolicy :
    (typeGroups defaultPolicy).map (fun group c => decide (c ∈ group)) = characterKinds := by
  have hdigit : (bytes "1234567890").map UInt8.toNat = List.range' 49 9 ++ [48] := by
    rw [bytes_ofList]
    rfl
  have hlower : (bytes "abcdefghijklmnopqrstuvwxyz").map UInt8.toNat = List.range' 97 26 := by
    rw [bytes_ofList]
    rfl
  have hupper : (bytes "ABCDEFGHIJKLMNOPQRSTUVWXYZ").map UInt8.toNat = List.range' 65 26 := by
    rw [bytes_ofList]
    rfl
  have hsymbol : (bytes "!\"#$%&'()*+,-./:;<=>?@[\\]^_`\x7b|\x7d~/").map UInt8.toNat =
      List.range' 33 15 ++ List.range' 58 7 ++ List.range' 91 6 ++ List.range' 123 4 ++ [47] := by
    rw [bytes_ofList]
    rfl
  rw [typeGroups_defaultPolicy, characterKinds, List.map_cons, List.map_cons, List.map_cons,
    List.map_cons, List.map_nil, decide_mem_eq hdigit, decide_mem_eq hlower, decide_mem_eq hupper,
    decide_mem_eq hsymbol]
  all_goals
    intro c
    simp [isDigit, isLowerCase, isUpperCase, isSymbol, UInt8.le_iff_toNat_le, List.mem_range'_1]
    omega

/-- The default policy lists the visible characters, and its groups are their kinds. -/
theorem followsPolicy_default_iff {pw : Bytes} {required : ℤ} :
    FollowsPolicy pw defaultPolicy required ↔
      (∀ c ∈ pw, isVisible c = true) ∧ required ≤ kindCount pw := by
  have hlisted : ∀ c, (∃ group ∈ typeGroups defaultPolicy, c ∈ group) ↔ isVisible c = true := by
    intro c
    rw [isVisible_iff, ← memGroups_defaultPolicy]
    simp
  have hcount : groupCount pw defaultPolicy = kindCount pw := by
    unfold kindCount
    rw [← memGroups_defaultPolicy, List.countP_map]
    rfl
  have hlow : ∀ c, isVisible c = true → c &&& 0x80 = 0 := by
    intro c hc
    by_contra hhigh
    have hle := (and_high_ne_zero_iff c).mp hhigh
    simp [isVisible, UInt8.le_iff_toNat_le] at hc
    omega
  constructor
  · intro h
    exact ⟨fun c hc => (hlisted c).mp (h.listed c hc), hcount ▸ h.enough⟩
  · rintro ⟨hvisible, henough⟩
    refine ⟨?_, fun c hc => (hlisted c).mpr (hvisible c hc), hcount ▸ henough⟩
    rintro ⟨c, d, hpair, hhigh, -⟩
    have hc : c ∈ pw := hpair.subset (by simp)
    exact hhigh (hlow c (hvisible c hc))

/-- What a server edition asks of a password after its installation. -/
structure ServerAcceptable (lib : CrackLib) (user pw : Bytes) : Prop where
  length : 8 ≤ pw.length ∧ pw.length ≤ 510
  username : user ≠ pw
  visible : ∀ c ∈ pw, isVisible c = true
  kinds : 3 ≤ kindCount pw
  palindrome : ∀ start length, 8 ≤ length → start ≤ 8 →
    start < length ∨ start + length = pw.length → ¬ PalindromeAt pw start length
  word : ∃ pwp, lib.pwOpen lib.getDefaultCracklibDict = some pwp ∧
    ∀ rule ∈ rDestructors, ¬ RuleHits lib pw pwp rule
  monotone : ¬ HasCountedRun pw 3 ∧ ¬ HasMixedStreak pw 3
  consecutive : ∀ c, ¬ List.replicate 3 c <:+: pw

/-- A password without NUL, if every byte of it is visible. The theorem on accepted passwords
asks for it. -/
theorem zero_not_mem_of_visible {pw : Bytes} (h : ∀ c ∈ pw, isVisible c = true) : 0 ∉ pw := by
  intro hzero
  exact absurd (h 0 hzero) (by decide)

/-- The rules of a server edition are those of its options. -/
theorem acceptable_default_server_iff {lib : CrackLib} {user pw : Bytes} {os : OsType}
    (hos : os = .server ∨ os = .euler) :
    Acceptable lib user pw (defaultOptions os) ↔ ServerAcceptable lib user pw := by
  have hoptions : defaultOptions os = defaultOptions .server := by
    rcases hos with rfl | rfl <;> rfl
  rw [hoptions]
  constructor
  · intro h
    obtain ⟨hvisible, hkinds⟩ := followsPolicy_default_iff.mp h.policy
    have hmin : (8 : ℤ) ≤ pw.length := h.longEnough
    have hmax : (pw.length : ℤ) ≤ 510 := h.shortEnough
    have hthree : (3 : ℤ) ≤ kindCount pw := hkinds
    refine ⟨⟨by omega, by omega⟩, h.username (by decide) (by decide), hvisible, by omega, ?_, ?_,
      ?_, ?_⟩
    · intro start length hlong hstart hinside hpal
      have hseen : (length : ℤ) ≤ intLength pw := by
        have hfits := hpal.1
        rw [intLength_of_lt (by omega)]
        omega
      exact h.palindrome (by decide) ⟨start, length, ⟨hlong, hseen, hstart, hinside⟩, hpal⟩
    · obtain ⟨hopens, hmisses⟩ := h.word (by decide)
      obtain ⟨pwp, hpwp⟩ := Option.ne_none_iff_exists'.mp hopens
      refine ⟨pwp, hpwp, ?_⟩
      intro rule hrule hhit
      exact hmisses ⟨pwp, hpwp, rule, hrule, hhit⟩
    · have hmonotone : ¬ HasMonotone pw 3 := h.monotone (by decide)
      have hnot : ¬ (HasCountedRun pw 3 ∨ HasMixedStreak pw 3) :=
        fun hrun => hmonotone (Or.inr ⟨by decide, hrun⟩)
      exact not_or.mp hnot
    · intro c hrepeat
      exact h.consecutive (by decide) ⟨by omega, c, hrepeat⟩
  · intro h
    refine ⟨?_, ?_, ?_, fun _ _ => h.username, ?_, ?_, ?_, ?_, ?_⟩
    · exact Int.ofNat_le.mpr h.length.1
    · exact Int.ofNat_le.mpr h.length.2
    · intro hon
      cases hon
    · exact followsPolicy_default_iff.mpr ⟨h.visible, Int.ofNat_le.mpr h.kinds⟩
    · rintro - ⟨start, length, ⟨hlong, -, hstart, hinside⟩, hpal⟩
      exact h.palindrome start length hlong hstart hinside hpal
    · intro _
      obtain ⟨pwp, hpwp, hmisses⟩ := h.word
      refine ⟨fun hclosed => ?_, ?_⟩
      · cases hpwp.symm.trans hclosed
      · rintro ⟨pwp', hpwp', rule, hrule, hhit⟩
        obtain rfl := Option.some.inj (hpwp.symm.trans hpwp')
        exact hmisses rule hrule hhit
    · rintro - (⟨hone, -⟩ | ⟨-, hrun | hstreak⟩)
      · exact absurd hone (by decide)
      · exact h.monotone.1 hrun
      · exact h.monotone.2 hstreak
    · rintro - ⟨-, c, hrepeat⟩
      exact h.consecutive c hrepeat

/-- The rules of the desktop edition ask for visible characters and a bounded length. -/
theorem acceptable_default_desktop_iff {lib : CrackLib} {user pw : Bytes} (hpw : pw ≠ []) :
    Acceptable lib user pw (defaultOptions .professional) ↔
      pw.length ≤ 510 ∧ ∀ c ∈ pw, isVisible c = true := by
  constructor
  · intro h
    have hmax : (pw.length : ℤ) ≤ 510 := h.shortEnough
    exact ⟨by omega, (followsPolicy_default_iff.mp h.policy).1⟩
  · rintro ⟨hlength, hvisible⟩
    have hpos : 0 < pw.length := List.length_pos_iff.mpr hpw
    obtain ⟨c, hc⟩ := List.exists_mem_of_ne_nil pw hpw
    have hone : 1 ≤ kindCount pw := by
      obtain ⟨kind, hkind, hkc⟩ := isVisible_iff.mp (hvisible c hc)
      exact List.one_le_countP_iff.mpr ⟨kind, hkind, List.any_eq_true.mpr ⟨c, hc, hkc⟩⟩
    refine ⟨?_, ?_, ?_, ?_, ?_, ?_, ?_, ?_, ?_⟩
    · exact Int.ofNat_le.mpr hpos
    · exact Int.ofNat_le.mpr hlength
    · intro hon
      cases hon
    · intro hmin
      exact absurd hmin (by decide)
    · exact followsPolicy_default_iff.mpr ⟨hvisible, Int.ofNat_le.mpr hone⟩
    · intro hon
      exact absurd hon (by decide)
    · intro hon
      exact absurd hon (by decide)
    · intro hon
      exact absurd hon (by decide)
    · intro hon
      exact absurd hon (by decide)

/-- The defaults accept only bytes of the policy, so a NUL is never accepted. -/
theorem checkWithOptions_default_iff {lib : CrackLib} {user pw : Bytes} {os : OsType}
    (hint : pw.length < 2 ^ 31 - 1) :
    checkWithOptions lib user pw (defaultOptions os) = .ok .noErr ↔
      pw ≠ [] ∧ Acceptable lib user pw (defaultOptions os) := by
  have hpolicy : (defaultOptions os).characterType = defaultPolicy := by cases os <;> rfl
  have hpalindrome : (defaultOptions os).palindromeMinNum < 2 ^ 30 := by cases os <;> decide
  have hnul : ∀ {required : ℤ}, FollowsPolicy pw defaultPolicy required → 0 ∉ pw :=
    fun h => zero_not_mem_of_visible (followsPolicy_default_iff.mp h).1
  rw [checkWithOptions_eq_noErr_iff]
  refine and_congr_right fun _ => ?_
  constructor
  · intro h
    have hpasses := h rfl
    have hfollows := (isTypeValid_eq_noErr_iff_followsPolicy (by omega)).mp hpasses.1.type
    rw [hpolicy] at hfollows
    exact (passes_iff_acceptable (hnul hfollows) hint hpalindrome).mp hpasses
  · intro h _
    have hfollows := h.policy
    rw [hpolicy] at hfollows
    exact (passes_iff_acceptable (hnul hfollows) hint hpalindrome).mpr h

/-- The check of a password by the defaults of an edition, whether they were installed before or
the check has installed them. -/
def DefaultsFound (os : OsType) (file updated : Option Bytes) : Prop :=
  file = some (defaultFile os) ∨ file = none ∧ updated = some (defaultFile os)

/-- The verdict by the defaults. -/
theorem deepinPwCheckByConf_of_defaults {ini : LineParser} {lib : CrackLib} {user pw : Bytes}
    {dictPath file updated : Option Bytes} {os : OsType} (h : DefaultsFound os file updated) :
    deepinPwCheckByConf ini lib user pw dictPath file updated =
      checkWithOptions lib user pw (defaultOptions os) := by
  have hload : (loadFile ini file).or (loadFile ini updated) =
      loadFile ini (some (defaultFile os)) := by
    rcases h with rfl | ⟨rfl, rfl⟩
    · rw [loadFile_defaultFile, Option.some_or]
    · rfl
  exact deepinPwCheckByConf_of_options (getDefaultOptions_defaultFile os dictPath hload)

/-- **A server edition after its installation** accepts a password, of a length that an `int` can
count, exactly if it has 8 to 510 characters between `!` and `~` of three kinds, is not the name of
the user, and neither reads the same backwards where the check looks, nor has a run of three that
the check counts or a streak that it takes for one, nor a character three times in a row, nor is
found in the default dictionary, whatever dictionary the caller names. -/
theorem serverDefaults_accept_iff {ini : LineParser} {lib : CrackLib} {user pw : Bytes}
    {dictPath file updated : Option Bytes} {os : OsType} (hos : os = .server ∨ os = .euler)
    (hfile : DefaultsFound os file updated) (hint : pw.length < 2 ^ 31 - 1) :
    deepinPwCheckByConf ini lib user pw dictPath file updated = .ok .noErr ↔
      ServerAcceptable lib user pw := by
  rw [deepinPwCheckByConf_of_defaults hfile, checkWithOptions_default_iff hint,
    acceptable_default_server_iff hos]
  refine and_iff_right_of_imp ?_
  rintro h rfl
  exact absurd h.length.1 (by decide)

/-- A dictionary that can be opened and has no words. -/
def emptyDictionary : CrackLib where
  PwDict := Unit
  getDefaultCracklibDict := bytes "/var/cache/cracklib/cracklib_dict"
  pwOpen := fun _ => some ()
  pwWords := fun _ => 0
  mangle := fun pw _ => some pw
  findPw := fun _ _ => 0

/-- A password that a server edition accepts, with its defaults installed by the check. -/
theorem serverDefaults_accept_iff_wellChosen :
    ServerAcceptable emptyDictionary (bytes "user") (bytes "Tk4#wQz9") := by
  have hfile : DefaultsFound .server none (some (defaultFile .server)) := Or.inr ⟨rfl, rfl⟩
  have hverdict : deepinPwCheckByConf iniparser emptyDictionary (bytes "user") (bytes "Tk4#wQz9")
      none none (some (defaultFile .server)) = .ok .noErr := by
    rw [deepinPwCheckByConf_of_defaults hfile, defaultOptions, defaultConf, defaultPolicy]
    repeat rw [bytes_ofList]
    decide +kernel
  exact (serverDefaults_accept_iff (Or.inl rfl) hfile (by decide)).mp hverdict

/-- **The desktop edition after its installation** accepts every password of 1 to 510 characters
between `!` and `~`, and of those that are short enough for an `int` no other. -/
theorem desktopDefaults_accept_iff {ini : LineParser} {lib : CrackLib} {user pw : Bytes}
    {dictPath file updated : Option Bytes} (hfile : DefaultsFound .professional file updated)
    (hint : pw.length < 2 ^ 31 - 1) :
    deepinPwCheckByConf ini lib user pw dictPath file updated = .ok .noErr ↔
      pw ≠ [] ∧ pw.length ≤ 510 ∧ ∀ c ∈ pw, isVisible c = true := by
  rw [deepinPwCheckByConf_of_defaults hfile, checkWithOptions_default_iff hint]
  exact and_congr_right acceptable_default_desktop_iff

/-- It accepts a single letter. -/
theorem desktopDefaults_accept_iff_letter :
    deepinPwCheckByConf iniparser noDictionary (bytes "user") (bytes "a") none none
      (some (defaultFile .professional)) = .ok .noErr :=
  (desktopDefaults_accept_iff (Or.inr ⟨rfl, rfl⟩) (by decide)).mpr
    ⟨by decide, by decide, List.all_eq_true.mp rfl⟩

end DeepinPwCheck
