import Mathlib.Data.List.DropRight
import Mathlib.Data.List.TakeWhile
import Mathlib.Tactic.Ring

/-!
# Bytes, blanks and C strings

The text of a C string or of a file is a list of bytes. The terminating NUL of a string is not
stored. A file may contain NUL bytes: a string function then sees the text in its buffer up to the
first of them. This file has the character classes of the C locale, the two-sided stripping of
blanks, and the list facts about them that every reader of text in this development uses.
-/

namespace CText

/-- One byte of a string or of a file. -/
abbrev Byte := UInt8

/-- The bytes of a C string without its terminator, or the content of a file. -/
abbrev Bytes := List Byte

/-- The bytes of a literal. -/
def bytes (s : String) : Bytes := s.toList.map fun c => UInt8.ofNat c.toNat

/-- The bytes of a literal, without decoding it. The kernel would otherwise decode the literal
from UTF-8 in every evaluation. -/
theorem bytes_ofList (chars : List Char) :
    bytes (String.ofList chars) = chars.map fun c => UInt8.ofNat c.toNat := by
  rw [bytes, String.toList_ofList]

/-- The newline that ends a line. -/
abbrev newline : Byte := 10
/-- The blank between a key, the equals sign and a value. -/
abbrev space : Byte := 32
/-- The double quote. -/
abbrev quote : Byte := 34
/-- The hash that begins a comment. -/
abbrev hash : Byte := 35
/-- The single quote. -/
abbrev apostrophe : Byte := 39
/-- The colon between a section and a key. -/
abbrev colon : Byte := 58
/-- The semicolon: it begins a comment in one reader and separates groups in another. -/
abbrev semicolon : Byte := 59
/-- The equals sign between a key and its value. -/
abbrev equals : Byte := 61
/-- The bracket that opens a section header. -/
abbrev openBracket : Byte := 91
/-- The backslash. -/
abbrev backslash : Byte := 92
/-- The bracket that closes a section header. -/
abbrev closeBracket : Byte := 93

/-- The value of a `char` after promotion to `int`, where `char` is signed. -/
def toInt (c : Byte) : ℤ := if c.toNat < 128 then c.toNat else c.toNat - 256

/-- `isspace` in the C locale: the blank, tab, newline, vertical tab, form feed and return. -/
def isSpace (c : Byte) : Bool := c == space || (9 ≤ c && c ≤ 13)

/-- `tolower` in the C locale. -/
def toLower (c : Byte) : Byte := if 65 ≤ c && c ≤ 90 then c + 32 else c

/-- Remove the blanks at the end. -/
def trimRight (s : Bytes) : Bytes := s.rdropWhile isSpace

/-- Remove the blanks at both ends. -/
def strip (s : Bytes) : Bytes := trimRight (s.dropWhile isSpace)

/-- The string in a buffer. It ends before the first NUL byte. -/
def cString (buff : Bytes) : Bytes := buff.takeWhile (· != 0)

/-- `strchr` on a string, as the distance to the first occurrence. -/
def strchr (s : Bytes) (c : Byte) : Option ℕ :=
  if c ∈ s then some (s.takeWhile (· != c)).length else none

/-- The blank is removed at the ends. -/
theorem isSpace_of_mem_space : ∀ c ∈ [space], isSpace c = true := by
  intro c hc
  rw [List.mem_singleton.mp hc]
  rfl

/-- Dropping a prefix leaves the empty list or begins where the test fails. It is used where
separators, blanks or quotes are skipped. -/
theorem head_dropWhile {α : Type*} {p : α → Bool} {s t : List α} {c : α}
    (h : s.dropWhile p = c :: t) : p c = false := by
  have hne : s.dropWhile p ≠ [] := by simp [h]
  have hhead := List.dropWhile_get_zero_not p s (by rw [h]; simp)
  simpa [h] using hhead

/-- Taking the front part of a concatenation whose cut lies inside it. A key or a value is cut out
of its line by it. -/
theorem takeWhile_append_of_neg {α : Type*} {p : α → Bool} {s t : List α} {c : α}
    (hs : ∀ a ∈ s, p a = true) (hc : p c = false) : (s ++ c :: t).takeWhile p = s := by
  rw [List.takeWhile_append_of_pos hs, List.takeWhile_cons_of_neg (by simp [hc]), List.append_nil]

/-- Dropping the front part of a concatenation whose cut lies inside it. What stands behind an
equals sign is found by it. -/
theorem dropWhile_append_of_neg {α : Type*} {p : α → Bool} {s t : List α} {c : α}
    (hs : ∀ a ∈ s, p a = true) (hc : p c = false) : (s ++ c :: t).dropWhile p = c :: t := by
  rw [List.dropWhile_append_of_pos hs, List.dropWhile_cons_of_neg (by simp [hc])]

/-- A string has no NUL byte. What is copied out of it is therefore a string again. -/
theorem zero_notMem_cString (buff : Bytes) : (0 : Byte) ∉ cString buff := by
  intro h
  simpa using List.mem_takeWhile_imp h

/-- A buffer without a NUL byte is all string. Only theorems about buffers with NUL bytes see the
difference. -/
theorem cString_eq_self {buff : Bytes} (h : (0 : Byte) ∉ buff) : cString buff = buff := by
  refine List.takeWhile_eq_self_iff.mpr ?_
  intro c hc
  simpa using fun hzero : c = 0 => h (hzero ▸ hc)

/-- The string of a line is a part of it, with the byte behind the line or without. A copy is made
out of this string and not out of the line. -/
theorem exists_cString_append (body : Bytes) {t : Bytes} (ht : t = [] ∨ t = [newline]) :
    ∃ body' t', cString (body ++ t) = body' ++ t' ∧ body' <+: body ∧ (t' = [] ∨ t' = [newline]) ∧
      body'.length + t'.length ≤ body.length + t.length := by
  by_cases hzero : (0 : Byte) ∈ body
  · refine ⟨cString body, [], ?_, List.takeWhile_prefix _, Or.inl rfl, ?_⟩
    · obtain ⟨front, rest, rfl, hfront⟩ := List.eq_append_cons_of_mem hzero
      have hall : ∀ c ∈ front, (c != 0) = true := by
        intro c hc
        simpa using fun h : c = 0 => hfront (h ▸ hc)
      unfold cString
      rw [List.append_assoc, List.cons_append, takeWhile_append_of_neg hall (by decide),
        takeWhile_append_of_neg hall (by decide), List.append_nil]
    · have hle := (List.takeWhile_prefix (l := body) (· != 0)).length_le
      unfold cString
      simp only [List.length_nil]
      omega
  · refine ⟨body, t, cString_eq_self ?_, List.prefix_rfl, ht, le_rfl⟩
    rcases ht with rfl | rfl
    · simpa using hzero
    · simpa [newline] using hzero

/-- Removing the blanks at the end removes blanks only. It replaces the recursion from the right
in most proofs about blanks. -/
theorem exists_trimRight_append (s : Bytes) :
    ∃ b, s = trimRight s ++ b ∧ ∀ c ∈ b, isSpace c = true := by
  refine ⟨s.rtakeWhile isSpace, List.rdropWhile_append_rtakeWhile.symm, ?_⟩
  intro c hc
  exact List.mem_takeWhile_imp (List.mem_reverse.mp hc)

/-- Blanks after a text are removed with the blanks at its end. -/
theorem trimRight_append_blank (s : Bytes) {b : Bytes} (hb : ∀ c ∈ b, isSpace c = true) :
    trimRight (s ++ b) = trimRight s := by
  unfold trimRight List.rdropWhile
  rw [List.reverse_append, List.dropWhile_append_of_pos]
  intro c hc
  exact hb c (List.mem_reverse.mp hc)

/-- Nothing before a byte that is no blank is removed at the end. A backslash or an equals sign is
such a byte. -/
theorem trimRight_append_of_neg (s : Bytes) {c : Byte} (hc : isSpace c = false) (t : Bytes) :
    trimRight (s ++ c :: t) = s ++ c :: trimRight t := by
  have hreverse : (s ++ c :: t).reverse = t.reverse ++ c :: s.reverse := by simp
  unfold trimRight List.rdropWhile
  rw [hreverse, List.dropWhile_append]
  split_ifs with ht
  · rw [List.isEmpty_iff.mp ht, List.dropWhile_cons_of_neg (by simp [hc])]
    simp
  · simp

/-- A text is its stripped part between two stretches of blanks. Proofs about stripping split a
text in this way and do not unfold the definition. -/
theorem exists_strip_append (s : Bytes) :
    ∃ a b, s = a ++ (strip s ++ b) ∧ (∀ c ∈ a, isSpace c = true) ∧ ∀ c ∈ b, isSpace c = true := by
  obtain ⟨b, hb, hblank⟩ := exists_trimRight_append (s.dropWhile isSpace)
  refine ⟨s.takeWhile isSpace, b, ?_, ?_, hblank⟩
  · conv_lhs => rw [← List.takeWhile_append_dropWhile (p := isSpace) (l := s), hb]
    rfl
  · intro c hc
    exact List.mem_takeWhile_imp hc

/-- Blanks before a text are removed with the blanks at its front. A line may be indented. -/
theorem strip_blank_append {a : Bytes} (ha : ∀ c ∈ a, isSpace c = true) (s : Bytes) :
    strip (a ++ s) = strip s := by
  unfold strip
  rw [List.dropWhile_append_of_pos ha]

/-- Blanks after a text are removed with the blanks at its end. -/
theorem strip_append_blank (s : Bytes) {b : Bytes} (hb : ∀ c ∈ b, isSpace c = true) :
    strip (s ++ b) = strip s := by
  unfold strip
  rw [List.dropWhile_append]
  split_ifs with hs
  · have hnil : s.dropWhile isSpace = [] := List.isEmpty_iff.mp hs
    have hdrop : b.dropWhile isSpace = [] := by simpa using hb
    rw [hnil, hdrop]
  · exact trimRight_append_blank _ hb

/-- A text that begins with no blank is stripped at its end only. A line that begins with its key
is such a text. -/
theorem strip_cons_of_neg {c : Byte} (hc : isSpace c = false) (s : Bytes) :
    strip (c :: s) = c :: trimRight s := by
  unfold strip
  rw [List.dropWhile_cons_of_neg (by simp [hc])]
  exact trimRight_append_of_neg [] hc s

/-- The stripped text is empty, or begins with a byte that is no blank. A written path that is
read back cannot begin with a blank. -/
theorem head_strip {s t : Bytes} {c : Byte} (h : strip s = c :: t) : isSpace c = false := by
  rcases hdrop : s.dropWhile isSpace with _ | ⟨d, u⟩
  · unfold strip at h
    rw [hdrop] at h
    simp [trimRight] at h
  · have hd := head_dropWhile hdrop
    have hstrip : strip s = d :: trimRight u := by
      unfold strip
      rw [hdrop]
      exact trimRight_append_of_neg [] hd u
    rw [hstrip] at h
    obtain ⟨rfl, -⟩ := List.cons.inj h
    exact hd

/-- Stripping twice is stripping once. The library strips a value a second time after it has cut
off a comment. -/
@[simp] theorem strip_strip (s : Bytes) : strip (strip s) = strip s := by
  obtain ⟨a, b, hs, ha, hb⟩ := exists_strip_append s
  have h := congrArg strip hs
  rw [strip_blank_append ha, strip_append_blank _ hb] at h
  exact h.symm

/-- Stripping keeps a contiguous part of the text. No byte is added when a value is read. -/
theorem strip_sublist (s : Bytes) : (strip s).Sublist s := by
  obtain ⟨a, b, hs, -, -⟩ := exists_strip_append s
  conv_rhs => rw [hs]
  exact (List.sublist_append_left _ b).trans (List.sublist_append_right a _)

end CText
