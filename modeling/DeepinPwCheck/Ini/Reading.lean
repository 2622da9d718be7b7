import DeepinPwCheck.Ini.LogicalLines
import DeepinPwCheck.Text.Decimal

/-!
# Reading INI files

The documented behaviour of an INI library: sections and keys without regard to
case, blanks around keys and values, comments, values in quotes, and lines that go on
behind a backslash. How a quoted value is decoded is a parameter with one law.
-/

namespace Ini

open CText

/-- The entries of a file under their names `section:key`, the latest first. -/
abbrev Dictionary := List (Bytes × Bytes)

/-- What one line contributes. -/
inductive Line where
  | blank
  | header (name : Bytes)
  | entry (key text : Bytes)
  | malformed
  deriving DecidableEq

/-- A text in lower case. -/
def lower (s : Bytes) : Bytes := s.map toLower

/-- The bytes that begin a comment. -/
def isComment (c : Byte) : Bool := c == semicolon || c == hash

/-- The two quotes. -/
def isQuote (c : Byte) : Bool := c == quote || c == apostrophe

/-- The part of a line after its first equals sign. -/
def afterEquals (s : Bytes) : Bytes := (s.dropWhile (· != equals)).drop 1

/-- The meaning of a line: nothing, a section header, or a key with the text of its value. -/
def readLine (ℓ : Bytes) : Line :=
  match strip ℓ with
  | [] => .blank
  | c :: s =>
      if isComment c then .blank
      else if c = openBracket ∧ (c :: s).getLast? = some closeBracket then
        let name := s.takeWhile (· != closeBracket)
        if name = [] then .blank else .header (lower (strip name))
      else
        let key := strip ((c :: s).takeWhile (· != equals))
        if equals ∈ c :: s ∧ key ≠ [] then .entry (lower key) (strip (afterEquals (c :: s)))
        else .malformed

/-- The line is no section header, or one that opens a section of its own and nothing else: there
is a name between the brackets, without a bracket and without a colon. A name with a colon would
also be a key without a value. -/
def plainHeader (ℓ : Bytes) : Bool :=
  match strip ℓ with
  | [] => true
  | c :: s =>
      if c = openBracket ∧ (c :: s).getLast? = some closeBracket then
        !s.dropLast.isEmpty && !s.dropLast.contains closeBracket && !s.dropLast.contains colon
      else true

/-- A text that is read by the rules of this file: it has no NUL byte, which would end a line in
the buffer of the library, and all its headers are plain. -/
structure PlainText (text : Bytes) : Prop where
  nul : 0 ∉ text
  headers : ∀ ℓ ∈ logicalLines text, plainHeader ℓ = true

/-- The value that a text stands for. Outside of quotes it ends before a comment. -/
def value (quoted : Byte → Bytes → Bytes) : Bytes → Bytes
  | [] => []
  | c :: s =>
      if isQuote c ∧ s ≠ [] then quoted c s
      else strip ((c :: s).takeWhile fun d => !isComment d)

/-- Read lines into a dictionary, from the section that is open. A malformed line
makes the whole file unreadable. -/
def readLines (quoted : Byte → Bytes → Bytes) :
    List Bytes → Bytes → Dictionary → Option Dictionary
  | [], _, d => some d
  | ℓ :: ls, current, d =>
      match readLine ℓ with
      | .blank => readLines quoted ls current d
      | .header name => readLines quoted ls name d
      | .entry key text =>
          readLines quoted ls current ((current ++ colon :: key, value quoted text) :: d)
      | .malformed => none

/-- The text of an entry. -/
def Dictionary.get (d : Dictionary) (name : Bytes) : Option Bytes := d.lookup (lower name)

/-- An INI library: the dictionary of a file, unless it cannot be read. -/
structure Parser where
  load : Bytes → Option Dictionary

/-- What is relied on of an INI library where it matters how a file is read. -/
structure LineParser extends Parser where
  /-- The value that a text in quotes stands for: what follows the opening quote is decoded. -/
  quoted : Byte → Bytes → Bytes
  /-- The shortest length that is too long for a line. -/
  lineLimit : ℕ
  /-- Decoding a text in quotes only leaves bytes out. -/
  quoted_sublist : ∀ (q : Byte) (s : Bytes), (quoted q s).Sublist (q :: s)
  /-- Lines of ordinary length are read. -/
  lineLimit_ge : 1000 ≤ lineLimit
  /-- A value is a C string out of the buffer for one line. -/
  get_line : ∀ text d name v, load text = some d → d.get name = some v → newline ∉ v ∧ 0 ∉ v
  /-- A text is read line by line, unless a line is too long. -/
  load_eq : ∀ text, PlainText text → load text =
    if linesFit lineLimit [] (lines text) then readLines quoted (logicalLines text) [] []
    else none

instance : Coe LineParser Parser := ⟨LineParser.toParser⟩

/-- `iniparser_find_entry`. -/
def findEntry (d : Dictionary) (name : Bytes) : Bool := (d.get name).isSome

/-- `iniparser_getstring`. -/
def getstring (d : Dictionary) (name fallback : Bytes) : Bytes := (d.get name).getD fallback

/-- `iniparser_getint`: `strtol` with base 0, converted to `int`. -/
def getint (d : Dictionary) (name : Bytes) (fallback : ℤ) : ℤ :=
  match d.get name with
  | some text => toInt32 (strtol text)
  | none => fallback

/-- The truth value that the first letter of a text stands for, if it stands for one. -/
def truth (text : Bytes) : Option Bool :=
  match text with
  | [] => none
  | c :: _ =>
      if c ∈ bytes "yY1tT" then some true
      else if c ∈ bytes "nN0fF" then some false
      else none

/-- `iniparser_getboolean`. -/
def getboolean (d : Dictionary) (name : Bytes) (fallback : Bool) : Bool :=
  match d.get name with
  | some text => (truth text).getD fallback
  | none => fallback

/-- The section that is open after some lines. -/
def sectionAfter (current : Bytes) : List Bytes → Bytes
  | [] => current
  | ℓ :: ls =>
      match readLine ℓ with
      | .header name => sectionAfter name ls
      | _ => sectionAfter current ls

/-- A line is an entry of the given name where the given section is open. -/
def EntryOf (current name ℓ text : Bytes) : Prop :=
  ∃ key, readLine ℓ = .entry key text ∧ name = current ++ colon :: key

/-- No line is an entry of the given name. -/
def NoEntry (current name : Bytes) (ls : List Bytes) : Prop :=
  ∀ before ℓ after text, ls = before ++ ℓ :: after →
    ¬ EntryOf (sectionAfter current before) name ℓ text

/-- The last entry of a name among some lines: the lines before it, the line, the lines
after it and the text of the value. -/
structure LastEntry (current name : Bytes) (ls before : List Bytes) (ℓ : Bytes)
    (after : List Bytes) (text : Bytes) : Prop where
  split : ls = before ++ ℓ :: after
  entry : EntryOf (sectionAfter current before) name ℓ text
  last : NoEntry (sectionAfter current before) name after

/-- The section that is open after one line. -/
def sectionOf (current ℓ : Bytes) : Bytes :=
  match readLine ℓ with
  | .header name => name
  | _ => current

/-- A line that is an entry, or cannot be read, is no header. The lines of a written section are
plain by it, also those that were cut off. -/
theorem plainHeader_of_readLine {ℓ : Bytes}
    (h : (∃ key text, readLine ℓ = .entry key text) ∨ readLine ℓ = .malformed) :
    plainHeader ℓ = true := by
  unfold plainHeader
  unfold readLine at h
  split
  · rfl
  · rename_i c s hstrip
    rw [hstrip] at h
    dsimp only at h
    split_ifs with hheader
    · have hcomment : ¬ isComment c = true := by
        rw [hheader.1]
        decide
      rw [if_neg hcomment, if_pos hheader] at h
      split_ifs at h <;> simp at h
    · rfl

/-- What follows the first equals sign. Every reader that splits a line there is compared through
it. -/
theorem afterEquals_append {front : Bytes} (hfront : equals ∉ front) (r : Bytes) :
    afterEquals (front ++ equals :: r) = r := by
  have hall : ∀ d ∈ front, (d != equals) = true := by
    intro d hd
    simpa using fun h : d = equals => hfront (h ▸ hd)
  unfold afterEquals
  rw [dropWhile_append_of_neg hall (by decide)]
  rfl

theorem sectionAfter_cons (current ℓ : Bytes) (ls : List Bytes) :
    sectionAfter current (ℓ :: ls) = sectionAfter (sectionOf current ℓ) ls := by
  unfold sectionOf
  rw [sectionAfter]
  cases readLine ℓ <;> rfl

/-- An entry leaves the section open. Only a header changes the section in which later entries are
read. -/
theorem EntryOf.sectionOf_eq {current name ℓ text : Bytes} (h : EntryOf current name ℓ text) :
    sectionOf current ℓ = current := by
  obtain ⟨key, hline, -⟩ := h
  simp [sectionOf, hline]

/-- The first line is no entry of the name, and neither is a later one. With it the absence of a
name is followed along the lines. -/
theorem noEntry_cons {current name ℓ : Bytes} {ls : List Bytes} :
    NoEntry current name (ℓ :: ls) ↔
      (∀ text, ¬ EntryOf current name ℓ text) ∧ NoEntry (sectionOf current ℓ) name ls := by
  constructor
  · intro h
    refine ⟨fun text => h [] ℓ ls text rfl, ?_⟩
    intro before m after text hls
    have := h (ℓ :: before) m after text (by rw [hls]; rfl)
    rwa [sectionAfter_cons] at this
  · rintro ⟨hfirst, hrest⟩ before m after text hls
    cases before with
    | nil =>
        obtain ⟨rfl, -⟩ := List.cons.inj hls
        exact hfirst text
    | cons b before =>
        obtain ⟨rfl, htail⟩ := List.cons.inj hls
        rw [sectionAfter_cons]
        exact hrest before m after text htail

/-- A later last entry is the last entry of the longer list. The induction over the lines of a
file adds them in front. -/
theorem LastEntry.cons {current name ℓ m text : Bytes} {ls before after : List Bytes}
    (h : LastEntry (sectionOf current ℓ) name ls before m after text) :
    LastEntry current name (ℓ :: ls) (ℓ :: before) m after text := by
  refine ⟨by rw [h.split]; rfl, ?_, ?_⟩
  · rw [sectionAfter_cons]
    exact h.entry
  · rw [sectionAfter_cons]
    exact h.last

/-- The last entry lies on the first line, or is the last entry of the other lines. The induction
over the lines in `readLines_lookup` splits on these two cases. -/
theorem lastEntry_cons {current name ℓ m text : Bytes} {ls before after : List Bytes}
    (h : LastEntry current name (ℓ :: ls) before m after text) :
    (before = [] ∧ m = ℓ ∧ after = ls ∧ EntryOf current name ℓ text ∧
      NoEntry (sectionOf current ℓ) name ls) ∨
    ∃ before', before = ℓ :: before' ∧
      LastEntry (sectionOf current ℓ) name ls before' m after text := by
  obtain ⟨hsplit, hentry, hlast⟩ := h
  cases before with
  | nil =>
      left
      obtain ⟨rfl, rfl⟩ := List.cons.inj hsplit
      refine ⟨rfl, rfl, rfl, hentry, ?_⟩
      have hsection : sectionOf current ℓ = current := EntryOf.sectionOf_eq hentry
      rw [hsection]
      exact hlast
  | cons b before' =>
      right
      obtain ⟨rfl, htail⟩ := List.cons.inj hsplit
      rw [sectionAfter_cons] at hentry hlast
      exact ⟨before', rfl, htail, hentry, hlast⟩

/-- What reading one line does: the rest is read in the section of the line, and the value
under a name stays unless the line is an entry of it. -/
theorem exists_of_readLines_cons {quoted : Byte → Bytes → Bytes} {ℓ : Bytes} {ls : List Bytes}
    {current : Bytes} {d d' : Dictionary} (h : readLines quoted (ℓ :: ls) current d = some d')
    (name : Bytes) :
    ∃ e : Dictionary, readLines quoted ls (sectionOf current ℓ) e = some d' ∧
      ((e.lookup name = d.lookup name ∧ ∀ text, ¬ EntryOf current name ℓ text) ∨
        ∃ text, e.lookup name = some (value quoted text) ∧ EntryOf current name ℓ text) := by
  unfold readLines at h
  unfold sectionOf EntryOf
  cases hline : readLine ℓ with
  | blank =>
      rw [hline] at h
      exact ⟨d, h, Or.inl ⟨rfl, by simp⟩⟩
  | header section' =>
      rw [hline] at h
      exact ⟨d, h, Or.inl ⟨rfl, by simp⟩⟩
  | malformed =>
      rw [hline] at h
      cases h
  | entry key text =>
      rw [hline] at h
      refine ⟨_, h, ?_⟩
      by_cases hname : name = current ++ colon :: key
      · right
        exact ⟨text, by simp [hname], key, rfl, hname⟩
      · left
        refine ⟨by rw [List.lookup_cons, beq_false_of_ne hname], ?_⟩
        rintro other ⟨key', hkey, hother⟩
        obtain ⟨rfl, -⟩ := Line.entry.inj hkey
        exact hname hother

/-- **What a dictionary holds.** After reading some lines, the value under a name is that
of the last entry of the name, or the old one where there is no entry of it. -/
theorem readLines_lookup {quoted : Byte → Bytes → Bytes} {ls : List Bytes} {current : Bytes}
    {d d' : Dictionary} (h : readLines quoted ls current d = some d') (name v : Bytes) :
    d'.lookup name = some v ↔
      (∃ before ℓ after text, LastEntry current name ls before ℓ after text ∧
        value quoted text = v) ∨
      (NoEntry current name ls ∧ d.lookup name = some v) := by
  induction ls generalizing current d with
  | nil =>
      obtain rfl : d = d' := by simpa [readLines] using h
      have hnone : NoEntry current name [] := by
        intro before ℓ after text hls
        simp at hls
      constructor
      · exact fun hv => Or.inr ⟨hnone, hv⟩
      · rintro (⟨before, ℓ, after, text, hlast, -⟩ | ⟨-, hv⟩)
        · simpa using hlast.split
        · exact hv
  | cons ℓ ls ih =>
      obtain ⟨e, hread, hfirst⟩ := exists_of_readLines_cons h name
      rw [ih hread]
      constructor
      · rintro (⟨before, m, after, text, hlast, hv⟩ | ⟨hnone, hv⟩)
        · exact Or.inl ⟨ℓ :: before, m, after, text, hlast.cons, hv⟩
        · rcases hfirst with ⟨heq, hfirst⟩ | ⟨text, heq, hentry⟩
          · exact Or.inr ⟨noEntry_cons.mpr ⟨hfirst, hnone⟩, heq ▸ hv⟩
          · left
            refine ⟨[], ℓ, ls, text, ⟨rfl, hentry, ?_⟩, ?_⟩
            · rw [hentry.sectionOf_eq] at hnone
              exact hnone
            · simpa [heq] using hv
      · rintro (⟨before, m, after, text, hlast, hv⟩ | ⟨hnone, hv⟩)
        · rcases lastEntry_cons hlast with ⟨-, -, -, hentry, hnone⟩ | ⟨before', -, hlast'⟩
          · right
            refine ⟨hnone, ?_⟩
            rcases hfirst with ⟨-, hfirst⟩ | ⟨text', heq, hentry'⟩
            · exact absurd hentry (hfirst text)
            · obtain ⟨key, hkey, -⟩ := hentry
              obtain ⟨key', hkey', -⟩ := hentry'
              obtain ⟨-, rfl⟩ := Line.entry.inj (hkey.symm.trans hkey')
              rw [heq, hv]
          · exact Or.inl ⟨before', m, after, text, hlast', hv⟩
        · obtain ⟨hno, hnone⟩ := noEntry_cons.mp hnone
          rcases hfirst with ⟨heq, -⟩ | ⟨text, -, hentry⟩
          · exact Or.inr ⟨hnone, heq ▸ hv⟩
          · exact absurd hentry (hno text)

/-- Decoding a value only leaves bytes out. A value that is written out again is therefore no
longer than the one that was read. -/
theorem value_sublist {quoted : Byte → Bytes → Bytes}
    (hquoted : ∀ q s, (quoted q s).Sublist (q :: s)) (t : Bytes) : (value quoted t).Sublist t := by
  unfold value
  split
  · exact List.Sublist.refl _
  · rename_i c s
    split_ifs
    · exact hquoted c s
    · exact (strip_sublist _).trans (List.takeWhile_sublist _)

/-- The text of an entry is a part of its line. What holds of the bytes of a line holds of those
of its value. -/
theorem readLine_entry_sublist {ℓ key text : Bytes} (h : readLine ℓ = .entry key text) :
    text.Sublist ℓ := by
  unfold readLine at h
  split at h
  · cases h
  · rename_i c s hstrip
    dsimp only at h
    split_ifs at h
    obtain ⟨-, rfl⟩ := Line.entry.inj h
    have hafter : (afterEquals (c :: s)).Sublist (c :: s) :=
      (List.drop_sublist 1 _).trans (List.dropWhile_sublist _)
    rw [← hstrip] at hafter
    rw [← hstrip]
    exact (strip_sublist _).trans (hafter.trans (strip_sublist ℓ))

/-- The value under a name belongs to the last entry of the name. It speaks of lines only, so that
a concrete reader can use it before it is a `LineParser`. -/
theorem get_eq_some_iff_of_readLines {quoted : Byte → Bytes → Bytes} {ls : List Bytes}
    {d : Dictionary} (h : readLines quoted ls [] [] = some d) (name v : Bytes) :
    d.get name = some v ↔
      ∃ before ℓ after t, LastEntry [] (lower name) ls before ℓ after t ∧
        value quoted t = v := by
  unfold Dictionary.get
  rw [readLines_lookup h]
  simp

/-- A value has no bytes but those of the lines of the file. A reader meets `get_line` by it. -/
theorem exists_mem_lines_of_mem_get {quoted : Byte → Bytes → Bytes}
    (hquoted : ∀ q s, (quoted q s).Sublist (q :: s)) {text name v : Bytes} {d : Dictionary}
    (h : readLines quoted (logicalLines text) [] [] = some d) (hv : d.get name = some v) {c : Byte}
    (hc : c ∈ v) : ∃ m ∈ lines text, c ∈ m := by
  obtain ⟨before, ℓ, after, t, hlast, rfl⟩ := (get_eq_some_iff_of_readLines h name v).mp hv
  obtain ⟨key, hline, -⟩ := hlast.entry
  have hmem : ℓ ∈ logicalLines text := by
    rw [hlast.split]
    simp
  have hsub := (value_sublist hquoted t).trans (readLine_entry_sublist hline)
  rcases mem_of_mem_joinLines hmem (hsub.subset hc) with hcarry | hfound
  · simp at hcarry
  · exact hfound

/-- Decode a quoted value: a backslash keeps the byte after it, and the closing quote ends
the value. -/
def unescape (q : Byte) : Bytes → Bytes
  | [] => []
  | c :: s =>
      if c = backslash then
        match s with
        | [] => []
        | d :: rest => d :: unescape q rest
      else if c = q then []
      else c :: unescape q s

private theorem unescape_sublist (q : Byte) (s : Bytes) : (unescape q s).Sublist s := by
  fun_induction unescape q s with
  | case1 => exact List.Sublist.refl _
  | case2 => exact List.nil_sublist _
  | case3 d rest ih => exact (ih.cons_cons d).cons _
  | case4 c s => exact List.nil_sublist _
  | case5 c s hc hq ih => exact ih.cons_cons c

private theorem unescape_sublist_cons (q : Byte) (s : Bytes) : (unescape q s).Sublist (q :: s) :=
  (unescape_sublist q s).cons q

/-- A line buffer of 1024 bytes, and escapes in quoted values. A line with a NUL byte looks too
long, since no newline is seen at its end. -/
def loadLines (text : Bytes) : Option Dictionary :=
  if 0 ∈ text then none
  else if linesFit 1023 [] (lines text) then readLines unescape (logicalLines text) [] []
  else none

private theorem get_line_loadLines (text : Bytes) (d : Dictionary) (name v : Bytes)
    (h : loadLines text = some d) (hv : d.get name = some v) : newline ∉ v ∧ 0 ∉ v := by
  unfold loadLines at h
  split_ifs at h with hnul hfits
  have hfound {c : Byte} (hc : c ∈ v) : ∃ m ∈ lines text, c ∈ m :=
    exists_mem_lines_of_mem_get unescape_sublist_cons h hv hc
  constructor
  · intro hc
    obtain ⟨m, hm, hmem⟩ := hfound hc
    exact newline_notMem_of_mem_lines hm hmem
  · intro hc
    obtain ⟨m, hm, hmem⟩ := hfound hc
    exact hnul (mem_of_mem_lines hm hmem)

/-- A reader with that buffer and these escapes. -/
def iniparser : LineParser where
  load := loadLines
  quoted := unescape
  lineLimit := 1023
  quoted_sublist := unescape_sublist_cons
  lineLimit_ge := by decide
  get_line := get_line_loadLines
  load_eq := fun _ hplain => if_neg hplain.nul

end Ini
