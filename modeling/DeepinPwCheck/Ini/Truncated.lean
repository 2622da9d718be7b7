import DeepinPwCheck.Ini.Settings

/-!
# Reading a section that was cut off

What is left of a written section when only its first bytes are stored, for settings whose texts
do not go on in the next line. Where the cut falls into the header or into a key, the file cannot
be read, unless it leaves a single byte of the line, which is skipped. Everywhere else the settings
before the cut are there, and the last of them may have lost the end of its text. If what is left
of that text ends in a backslash, the setting is lost altogether.
-/

namespace Ini

open CText

/-- A written section that can be read, and whose header cannot be read without its end. No text
goes on in the next line. -/
structure IsSection (ini : LineParser) (header current : Bytes) (settings : List (Bytes × Bytes)) :
    Prop where
  header_eq : readLine header = .header current
  header_take : ∀ n, 0 < n → n < header.length → readLine (header.take n) = .malformed
  header_plain : plainHeader header = true
  header_length : 1 < header.length ∧ header.length < ini.lineLimit
  header_line : newline ∉ header ∧ 0 ∉ header ∧ backslash ∉ header
  isKey : ∀ s ∈ settings, IsKey s.1
  line : ∀ s ∈ settings, newline ∉ s.2 ∧ 0 ∉ s.2
  ends : ∀ s ∈ settings, continues s.2 = false
  length_line : ∀ s ∈ settings, (settingLine s).length < ini.lineLimit
  nodup : (settings.map fun s => lower s.1).Nodup

/-- The settings that are left of the first `n` bytes of their lines. There is no answer if the
cut falls into a key, or between a key and its equals sign. A single byte of a line is skipped. -/
def storedSettings : List (Bytes × Bytes) → ℕ → Option (List (Bytes × Bytes))
  | [], _ => some []
  | s :: settings, n =>
      if n ≤ 1 then some []
      else if n < s.1.length + 2 then none
      else if n ≤ (settingLine s).length then
        if continues (s.2.take (n - (s.1.length + 3))) then some []
        else some [(s.1, s.2.take (n - (s.1.length + 3)))]
      else (storedSettings settings (n - ((settingLine s).length + 1))).map (s :: ·)

/-- The settings that are left of the first `n` bytes of a section. -/
def storedSection (header : Bytes) (settings : List (Bytes × Bytes)) (n : ℕ) :
    Option (List (Bytes × Bytes)) :=
  if n ≤ 1 then some []
  else if n < header.length then none
  else storedSettings settings (n - (header.length + 1))

/-- The first `n` bytes of a section end inside the header, or inside a key or before its equals
sign. A single byte of the line does not count, since it is skipped. -/
def CutsName (header : Bytes) (settings : List (Bytes × Bytes)) (n : ℕ) : Prop :=
  (1 < n ∧ n < header.length) ∨
    ∃ before s after, settings = before ++ s :: after ∧
      (sectionText header before).length + 1 < n ∧
      n < (sectionText header before).length + s.1.length + 2

/-- How many of the bytes of a setting are missing among the first `n` bytes of a section, when
the settings before it are known. -/
def missing (header : Bytes) (before : List (Bytes × Bytes)) (s : Bytes × Bytes) (n : ℕ) : ℕ :=
  (sectionText header before).length + (settingLine s).length - n

/-- The first line and those that follow it. -/
theorem length_unlines_cons (s : Bytes × Bytes) (settings : List (Bytes × Bytes)) :
    (unlines ((s :: settings).map settingLine)).length =
      (settingLine s).length + 1 + (unlines (settings.map settingLine)).length := by
  rw [List.map_cons, unlines_cons, List.length_append, List.length_cons]
  omega

/-- The lines that follow the header. -/
theorem length_sectionText_eq (header : Bytes) (settings : List (Bytes × Bytes)) :
    (sectionText header settings).length =
      header.length + 1 + (unlines (settings.map settingLine)).length := by
  rw [sectionText, unlines_cons, List.length_append, List.length_cons]
  omega

/-- A cut inside the first line: what is left is a line without a newline. The reader skips it if
it has at most one byte. -/
theorem logicalLines_take_of_le {ℓ : Bytes} (hℓ : newline ∉ ℓ) (ls : List Bytes) {n : ℕ}
    (hn : n ≤ ℓ.length) : logicalLines ((unlines (ℓ :: ls)).take n) =
      if n ≤ 1 then [] else if continues (ℓ.take n) then [] else [ℓ.take n] := by
  have hlength : (ℓ.take n).length = n := by rw [List.length_take, Nat.min_eq_left hn]
  rw [unlines_cons, List.take_append_of_le_length hn,
    logicalLines_of_notMem (fun h => hℓ (List.mem_of_mem_take h)), hlength]

/-- A text of lines that was cut behind the first of them. The induction over the lines goes on
with what follows it. -/
theorem unlines_take_of_lt (ℓ : Bytes) (ls : List Bytes) {n : ℕ} (hn : ℓ.length < n) :
    (unlines (ℓ :: ls)).take n = ℓ ++ newline :: (unlines ls).take (n - (ℓ.length + 1)) := by
  obtain ⟨k, rfl⟩ : ∃ k, n = ℓ.length + (k + 1) := ⟨n - (ℓ.length + 1), by omega⟩
  have hrest : ℓ.length + (k + 1) - (ℓ.length + 1) = k := by omega
  rw [unlines_cons, List.take_length_add_append, List.take_succ_cons, hrest]

/-- The lines of a text that was cut off fit if those of the text do. A file that was cut off is
therefore never refused for its length. -/
theorem linesFit_take {limit : ℕ} {ls : List Bytes} (hls : ∀ ℓ ∈ ls, newline ∉ ℓ ∧
    continues ℓ = false ∧ ℓ.length < limit) (n : ℕ) :
    linesFit limit [] (lines ((unlines ls).take n)) = true := by
  induction ls generalizing n with
  | nil => simp [linesFit]
  | cons ℓ ls ih =>
    obtain ⟨hℓ, hends, hlength⟩ := hls ℓ List.mem_cons_self
    rcases Nat.lt_or_ge ℓ.length n with hlong | hshort
    · rw [unlines_take_of_lt ℓ ls hlong, lines_append_newline hℓ, linesFit, List.nil_append,
        carryAfter, hends, if_neg Bool.false_ne_true,
        ih fun m hm => hls m (List.mem_cons_of_mem ℓ hm)]
      simpa using hlength
    · rw [unlines_cons, List.take_append_of_le_length hshort]
      rcases Nat.eq_zero_or_pos n with rfl | hpos
      · simp [linesFit]
      · have hne : ℓ.take n ≠ [] := by
          rw [← List.length_pos_iff, List.length_take]
          omega
        rw [lines_of_notMem (fun h => hℓ (List.mem_of_mem_take h)) hne, linesFit, linesFit,
          List.nil_append, Bool.and_true, decide_eq_true_eq, List.length_take]
        omega

/-- The meaning of a line does not depend on blanks at its end. -/
theorem readLine_append_blank (ℓ : Bytes) {b : Bytes} (hb : ∀ c ∈ b, isSpace c = true) :
    readLine (ℓ ++ b) = readLine ℓ := by
  unfold readLine
  rw [strip_append_blank ℓ hb]

/-- A key without an equals sign is no line. The library refuses the whole file because of it. -/
theorem readLine_key {key : Bytes} (hkey : IsKey key) : readLine key = .malformed := by
  have hstrip := strip_key hkey
  obtain ⟨hne, hbytes⟩ := hkey
  obtain ⟨c, k, rfl⟩ := List.exists_cons_of_ne_nil hne
  obtain ⟨-, hcomment, hbracket, -, -⟩ := isKeyByte_class (hbytes c List.mem_cons_self)
  have hequals : equals ∉ c :: k := fun h => (isKeyByte_class (hbytes _ h)).2.2.2.1 rfl
  unfold readLine
  rw [hstrip]
  dsimp only
  rw [if_neg (by simp [hcomment]), if_neg (fun h => hbracket h.1), if_neg (fun h => hequals h.1)]

/-- A line that is cut off before its equals sign cannot be read. -/
theorem readLine_take_of_lt {key text : Bytes} (hkey : IsKey key) {n : ℕ} (hpos : 0 < n)
    (hn : n < key.length + 2) : readLine ((settingLine (key, text)).take n) = .malformed := by
  have hline : settingLine (key, text) = key ++ space :: equals :: space :: text := by
    simp [settingLine, bytes, space, equals]
  rcases Nat.lt_or_ge key.length n with hlong | hshort
  · obtain rfl : n = key.length + 1 := by omega
    rw [hline, List.take_length_add_append, List.take_succ_cons, List.take_zero,
      readLine_append_blank key isSpace_of_mem_space, readLine_key hkey]
  · rw [hline, List.take_append_of_le_length hshort]
    have hne : key.take n ≠ [] := by
      simp only [ne_eq, List.take_eq_nil_iff, not_or]
      exact ⟨by omega, hkey.1⟩
    exact readLine_key ⟨hne, fun c hc => hkey.2 c (List.mem_of_mem_take hc)⟩

/-- A line that is cut off after its equals sign has the first bytes of its text. -/
theorem readLine_take_of_le {key text : Bytes} (hkey : IsKey key) {n : ℕ}
    (hn : key.length + 2 ≤ n) : readLine ((settingLine (key, text)).take n) =
      .entry (lower key) (strip (text.take (n - (key.length + 3)))) := by
  rcases Nat.eq_or_lt_of_le hn with rfl | hlong
  · -- without the blank after the equals sign, the line means the same
    have hline : settingLine (key, text) = (key ++ [space, equals]) ++ space :: text := by
      simp [settingLine, bytes, space, equals]
    have hempty : settingLine (key, []) = (key ++ [space, equals]) ++ [space] := by
      simp [settingLine, bytes, space, equals]
    have hlength : key.length + 2 = (key ++ [space, equals]).length := by simp
    have hzero : key.length + 2 - (key.length + 3) = 0 := by omega
    rw [hzero, List.take_zero, ← readLine_settingLine hkey, hempty,
      readLine_append_blank _ isSpace_of_mem_space, hline, hlength,
      List.take_append_of_le_length le_rfl, List.take_length]
  · have hfront : (key ++ bytes " = ").length = key.length + 3 := by
      rw [List.length_append]
      rfl
    obtain ⟨k, rfl⟩ : ∃ k, n = (key ++ bytes " = ").length + k :=
      ⟨n - (key.length + 3), by omega⟩
    have hrest : (key ++ bytes " = ").length + k - (key.length + 3) = k := by omega
    rw [settingLine, List.take_length_add_append, hrest]
    exact readLine_settingLine hkey (text.take k)

/-- A line that is cut off goes on if its equals sign is left, and what is left of its text goes
on. -/
theorem continues_take_settingLine {key text : Bytes} (hkey : IsKey key) (n : ℕ) :
    continues ((settingLine (key, text)).take n) =
      continues (text.take (n - (key.length + 3))) := by
  have hfront : (key ++ bytes " = ").length = key.length + 3 := by
    rw [List.length_append]
    rfl
  have hbackslash : backslash ∉ key ++ bytes " = " := by
    rw [List.mem_append, not_or]
    refine ⟨fun h => ?_, by decide⟩
    exact absurd (hkey.2 _ h) (by decide)
  have hcut : backslash ∉ (key ++ bytes " = ").take n :=
    fun h => hbackslash (List.mem_of_mem_take h)
  rw [settingLine, List.take_append, hfront, continues_append (continues_of_notMem hcut)]

/-- **Reading what is left of the settings.** -/
theorem readLines_take (quoted : Byte → Bytes → Bytes) (current : Bytes)
    {settings : List (Bytes × Bytes)} (hkeys : ∀ s ∈ settings, IsKey s.1)
    (htexts : ∀ s ∈ settings, newline ∉ s.2) (hends : ∀ s ∈ settings, continues s.2 = false)
    (n : ℕ) (d : Dictionary) :
    readLines quoted (logicalLines ((unlines (settings.map settingLine)).take n)) current d =
      (storedSettings settings n).map fun stored =>
        (stored.map (settingEntry quoted current)).reverse ++ d := by
  induction settings generalizing n d with
  | nil => simp [storedSettings, readLines, logicalLines, joinLines]
  | cons s settings ih =>
    obtain ⟨key, text⟩ := s
    have hkey : IsKey key := hkeys (key, text) List.mem_cons_self
    have hline : newline ∉ settingLine (key, text) :=
      newline_notMem_settingLine hkey (htexts (key, text) List.mem_cons_self)
    have hlength : (settingLine (key, text)).length = key.length + 3 + text.length :=
      length_settingLine (key, text)
    have hwhole : continues (settingLine (key, text)) = false := by
      rw [continues_settingLine hkey]
      exact hends (key, text) List.mem_cons_self
    rw [storedSettings, List.map_cons]
    dsimp only
    split_ifs with hzero hcut hlast hgoes
    · rw [logicalLines_take_of_le hline _ (by omega), if_pos hzero]
      rfl
    · have htext : text.take (n - (key.length + 3)) = [] := by
        rw [Nat.sub_eq_zero_of_le (by omega), List.take_zero]
      rw [logicalLines_take_of_le hline _ (by omega), if_neg hzero,
        continues_take_settingLine hkey, htext, if_neg (by decide), readLines,
        readLine_take_of_lt hkey (by omega) hcut]
      rfl
    · rw [logicalLines_take_of_le hline _ hlast, if_neg hzero, continues_take_settingLine hkey,
        if_pos hgoes]
      rfl
    · rw [logicalLines_take_of_le hline _ hlast, if_neg hzero, continues_take_settingLine hkey,
        if_neg hgoes, readLines, readLine_take_of_le hkey (by omega)]
      rfl
    · rw [unlines_take_of_lt _ _ (by omega), logicalLines_append_newline hline hwhole, readLines,
        readLine_settingLine hkey]
      dsimp only
      rw [ih (fun s hs => hkeys s (List.mem_cons_of_mem _ hs))
        (fun s hs => htexts s (List.mem_cons_of_mem _ hs))
        (fun s hs => hends s (List.mem_cons_of_mem _ hs))]
      cases storedSettings settings (n - ((settingLine (key, text)).length + 1)) with
      | none => rfl
      | some stored => simp [settingEntry]

/-- The lines of a text that was cut off are those of the text, up to the end of the last one. What
holds of every line however it is cut holds of the text. -/
theorem prefix_of_mem_logicalLines_take {ls : List Bytes}
    (hls : ∀ ℓ ∈ ls, newline ∉ ℓ ∧ continues ℓ = false) {n : ℕ} {m : Bytes}
    (hm : m ∈ logicalLines ((unlines ls).take n)) : ∃ ℓ ∈ ls, ∃ k, m = ℓ.take k := by
  induction ls generalizing n with
  | nil => simp [logicalLines, joinLines] at hm
  | cons ℓ ls ih =>
    obtain ⟨hℓ, hends⟩ := hls ℓ List.mem_cons_self
    rcases Nat.lt_or_ge ℓ.length n with hlong | hshort
    · rw [unlines_take_of_lt ℓ ls hlong, logicalLines_append_newline hℓ hends] at hm
      rcases List.mem_cons.mp hm with rfl | hm
      · exact ⟨m, List.mem_cons_self, m.length, List.take_length.symm⟩
      · obtain ⟨p, hp, hcut⟩ := ih (fun p hp => hls p (List.mem_cons_of_mem ℓ hp)) hm
        exact ⟨p, List.mem_cons_of_mem ℓ hp, hcut⟩
    · rw [logicalLines_take_of_le hℓ ls hshort] at hm
      split_ifs at hm
      · cases hm
      · cases hm
      · exact ⟨ℓ, List.mem_cons_self, n, List.mem_singleton.mp hm⟩

/-- The lines of a section: they are lines, none of them goes on, and none is too long. -/
theorem IsSection.line_of_mem {ini : LineParser} {header current : Bytes}
    {settings : List (Bytes × Bytes)} (h : IsSection ini header current settings) {ℓ : Bytes}
    (hℓ : ℓ ∈ header :: settings.map settingLine) :
    newline ∉ ℓ ∧ continues ℓ = false ∧ ℓ.length < ini.lineLimit := by
  rcases List.mem_cons.mp hℓ with rfl | hℓ
  · exact ⟨h.header_line.1, continues_of_notMem h.header_line.2.2, h.header_length.2⟩
  · obtain ⟨s, hs, rfl⟩ := List.mem_map.mp hℓ
    refine ⟨newline_notMem_settingLine (h.isKey s hs) (h.line s hs).1, ?_, h.length_line s hs⟩
    rw [continues_settingLine (h.isKey s hs)]
    exact h.ends s hs

/-- The headers of a section that was cut off are plain: its own one, if it is left. -/
theorem IsSection.plainHeader_take {ini : LineParser} {header current : Bytes}
    {settings : List (Bytes × Bytes)} (h : IsSection ini header current settings) {n : ℕ}
    {m : Bytes} (hm : m ∈ logicalLines ((sectionText header settings).take n)) :
    plainHeader m = true := by
  have hlines : ∀ ℓ ∈ header :: settings.map settingLine, newline ∉ ℓ ∧ continues ℓ = false :=
    fun ℓ hℓ => ⟨(h.line_of_mem hℓ).1, (h.line_of_mem hℓ).2.1⟩
  obtain ⟨ℓ, hℓ, k, rfl⟩ := prefix_of_mem_logicalLines_take hlines hm
  rcases Nat.eq_zero_or_pos k with rfl | hpos
  · rfl
  rcases List.mem_cons.mp hℓ with rfl | hℓ
  · rcases Nat.lt_or_ge k ℓ.length with hcut | hwhole
    · exact plainHeader_of_readLine (.inr (h.header_take k hpos hcut))
    · rw [List.take_of_length_le hwhole]
      exact h.header_plain
  · obtain ⟨⟨key, text⟩, hs, rfl⟩ := List.mem_map.mp hℓ
    have hkey : IsKey key := h.isKey (key, text) hs
    rcases Nat.lt_or_ge k (key.length + 2) with hcut | hwhole
    · exact plainHeader_of_readLine (.inr (readLine_take_of_lt hkey hpos hcut))
    · exact plainHeader_of_readLine (.inl ⟨_, _, readLine_take_of_le hkey hwhole⟩)

/-- **Reading a section that was cut off.** -/
theorem IsSection.load_take {ini : LineParser} {header current : Bytes}
    {settings : List (Bytes × Bytes)} (h : IsSection ini header current settings) (n : ℕ) :
    ini.load ((sectionText header settings).take n) =
      (storedSection header settings n).map fun stored =>
        (stored.map (settingEntry ini.quoted current)).reverse := by
  have hheader : newline ∉ header := h.header_line.1
  have hheaderEnds : continues header = false := continues_of_notMem h.header_line.2.2
  have hnul : 0 ∉ sectionText header settings :=
    zero_notMem_sectionText h.header_line.2.1 h.isKey fun s hs => (h.line s hs).2
  have hplain : PlainText ((sectionText header settings).take n) :=
    ⟨fun hzero => hnul (List.mem_of_mem_take hzero), fun _ => h.plainHeader_take⟩
  have hfits : linesFit ini.lineLimit [] (lines ((sectionText header settings).take n)) = true :=
    linesFit_take (fun _ hℓ => h.line_of_mem hℓ) n
  have hlong := h.header_length.1
  rw [ini.load_eq _ hplain, if_pos hfits, sectionText, storedSection]
  split_ifs with hzero hcut
  · rw [logicalLines_take_of_le hheader _ (by omega), if_pos hzero]
    rfl
  · have hends : continues (header.take n) = false :=
      continues_of_notMem fun hmem => h.header_line.2.2 (List.mem_of_mem_take hmem)
    rw [logicalLines_take_of_le hheader _ hcut.le, if_neg hzero, hends,
      if_neg Bool.false_ne_true, readLines, h.header_take n (by omega) hcut]
    rfl
  · have hread (rest : List Bytes) : readLines ini.quoted (header :: rest) [] [] =
        readLines ini.quoted rest current [] := by
      rw [readLines, h.header_eq]
    have hfirst : logicalLines ((unlines (header :: settings.map settingLine)).take n) = header ::
        logicalLines ((unlines (settings.map settingLine)).take (n - (header.length + 1))) := by
      rcases Nat.eq_or_lt_of_le (not_lt.mp hcut) with heq | hlt
      · -- the header without its newline is a line all the same
        have hrest : n - (header.length + 1) = 0 := by omega
        rw [logicalLines_take_of_le hheader _ heq.ge, if_neg hzero,
          List.take_of_length_le heq.le, hheaderEnds, if_neg Bool.false_ne_true, hrest,
          List.take_zero]
        rfl
      · rw [unlines_take_of_lt header _ hlt, logicalLines_append_newline hheader hheaderEnds]
    rw [hfirst, hread, readLines_take ini.quoted current h.isKey (fun s hs => (h.line s hs).1)
      h.ends]
    simp only [List.append_nil]

/-- A cut inside a key, or before its equals sign, leaves nothing that can be read. -/
theorem storedSettings_append_eq_none {before : List (Bytes × Bytes)} {s : Bytes × Bytes}
    (after : List (Bytes × Bytes)) {n : ℕ}
    (hlow : (unlines (before.map settingLine)).length + 1 < n)
    (hhigh : n < (unlines (before.map settingLine)).length + s.1.length + 2) :
    storedSettings (before ++ s :: after) n = none := by
  induction before generalizing n with
  | nil =>
    rw [List.map_nil, unlines_nil, List.length_nil] at hlow hhigh
    rw [List.nil_append, storedSettings, if_neg (by omega), if_pos (by omega)]
  | cons b before ih =>
    have hline := length_settingLine b
    rw [length_unlines_cons] at hlow hhigh
    rw [List.cons_append, storedSettings, if_neg (by omega), if_neg (by omega),
      if_neg (by omega), ih (by omega) (by omega)]
    rfl

/-- **A section that cannot be read any more.** -/
theorem IsSection.load_take_eq_none {ini : LineParser} {header current : Bytes}
    {settings : List (Bytes × Bytes)} {n : ℕ} (h : IsSection ini header current settings)
    (hcuts : CutsName header settings n) :
    ini.load ((sectionText header settings).take n) = none := by
  rw [h.load_take, Option.map_eq_none_iff, storedSection]
  rcases hcuts with ⟨hlow, hhigh⟩ | ⟨before, s, after, rfl, hlow, hhigh⟩
  · rw [if_neg (by omega), if_pos hhigh]
  · rw [length_sectionText_eq] at hlow hhigh
    rw [if_neg (by omega), if_neg (by omega)]
    exact storedSettings_append_eq_none after (by omega) (by omega)

/-- The keys that are left are the first ones. They are distinct, as those of the whole section
are. -/
theorem keys_storedSettings {settings stored : List (Bytes × Bytes)} {n : ℕ}
    (h : storedSettings settings n = some stored) :
    stored.map Prod.fst <+: settings.map Prod.fst := by
  induction settings generalizing n stored with
  | nil =>
    obtain rfl := Option.some.inj h
    exact List.prefix_rfl
  | cons s settings ih =>
    rw [storedSettings] at h
    split_ifs at h with hzero hcut hlast hgoes
    · obtain rfl := Option.some.inj h
      exact List.nil_prefix
    · obtain rfl := Option.some.inj h
      exact List.nil_prefix
    · obtain rfl := Option.some.inj h
      exact ⟨settings.map Prod.fst, rfl⟩
    · obtain ⟨rest, hrest, rfl⟩ := Option.map_eq_some_iff.mp h
      exact List.prefix_cons_iff.mpr (Or.inr ⟨_, rfl, ih hrest⟩)

/-- The keys that are left are distinct. -/
theorem nodup_stored {header : Bytes} {settings stored : List (Bytes × Bytes)} {n : ℕ}
    (h : storedSection header settings n = some stored)
    (hnodup : (settings.map fun s => lower s.1).Nodup) :
    (stored.map fun s => lower s.1).Nodup := by
  have hfront : stored.map Prod.fst <+: settings.map Prod.fst := by
    unfold storedSection at h
    split_ifs at h
    · obtain rfl := Option.some.inj h
      exact List.nil_prefix
    · exact keys_storedSettings h
  have hlower := (hfront.map lower).sublist
  rw [List.map_map, List.map_map] at hlower
  exact hnodup.sublist hlower

/-- **What a cut leaves of one setting** whose text goes on nowhere. It is there with the first
bytes of its text if the cut lies behind its equals sign. -/
theorem storedSettings_append {before after stored : List (Bytes × Bytes)} {s : Bytes × Bytes}
    (hs : ∀ k, continues (s.2.take k) = false) {n : ℕ}
    (h : storedSettings (before ++ s :: after) n = some stored) :
    let lost := (unlines (before.map settingLine)).length + (settingLine s).length - n
    (lost ≤ s.2.length + 1 → (s.1, s.2.take (s.2.length - lost)) ∈ stored) ∧
      (s.2.length + 1 < lost → stored.map Prod.fst <+: before.map Prod.fst) := by
  have hline := length_settingLine s
  induction before generalizing n stored with
  | nil =>
    simp only [List.map_nil, unlines_nil, List.length_nil, Nat.zero_add]
    rw [List.nil_append, storedSettings, hs, if_neg Bool.false_ne_true] at h
    split_ifs at h with hzero hcut hlast
    · obtain rfl := Option.some.inj h
      exact ⟨fun hlost => by omega, fun _ => List.prefix_rfl⟩
    · obtain rfl := Option.some.inj h
      have hkept : s.2.length - ((settingLine s).length - n) = n - (s.1.length + 3) := by omega
      refine ⟨fun _ => ?_, fun hlost => by omega⟩
      rw [hkept]
      exact List.mem_singleton_self _
    · obtain ⟨rest, -, rfl⟩ := Option.map_eq_some_iff.mp h
      have hnone : (settingLine s).length - n = 0 := by omega
      rw [hnone, Nat.sub_zero, List.take_length]
      exact ⟨fun _ => List.mem_cons_self, fun hlost => by omega⟩
  | cons b before ih =>
    rw [List.cons_append, storedSettings] at h
    rw [length_unlines_cons]
    split_ifs at h with hzero hcut hlast hgoes
    · obtain rfl := Option.some.inj h
      exact ⟨fun hlost => by omega, fun _ => List.nil_prefix⟩
    · obtain rfl := Option.some.inj h
      exact ⟨fun hlost => by omega, fun _ => List.nil_prefix⟩
    · obtain rfl := Option.some.inj h
      exact ⟨fun hlost => by omega, fun _ => ⟨before.map Prod.fst, rfl⟩⟩
    · obtain ⟨rest, hrest, rfl⟩ := Option.map_eq_some_iff.mp h
      obtain ⟨hkept, hgone⟩ := ih hrest
      have hlost : (settingLine b).length + 1 + (unlines (before.map settingLine)).length +
          (settingLine s).length - n = (unlines (before.map settingLine)).length +
            (settingLine s).length - (n - ((settingLine b).length + 1)) := by
        omega
      rw [hlost]
      exact ⟨fun h => List.mem_cons_of_mem b (hkept h),
        fun h => List.prefix_cons_iff.mpr (Or.inr ⟨_, rfl, hgone h⟩)⟩

/-- What a cut of the whole section leaves of one setting. Either its text has lost some bytes at
its end, or the setting is gone. -/
theorem storedSection_append {header : Bytes} {before after stored : List (Bytes × Bytes)}
    {s : Bytes × Bytes} (hs : ∀ k, continues (s.2.take k) = false) {n : ℕ}
    (hheader : 1 < header.length)
    (h : storedSection header (before ++ s :: after) n = some stored) :
    (missing header before s n ≤ s.2.length + 1 →
        (s.1, s.2.take (s.2.length - missing header before s n)) ∈ stored) ∧
      (s.2.length + 1 < missing header before s n →
        stored.map Prod.fst <+: before.map Prod.fst) := by
  have hline := length_settingLine s
  unfold missing
  rw [length_sectionText_eq]
  unfold storedSection at h
  split_ifs at h with hzero hcut
  · obtain rfl := Option.some.inj h
    exact ⟨fun hlost => by omega, fun _ => List.nil_prefix⟩
  · obtain ⟨hkept, hgone⟩ := storedSettings_append hs h
    rcases Nat.eq_or_lt_of_le (not_lt.mp hcut) with heq | hlong
    · exact ⟨fun hlost => by omega, fun _ => hgone (by omega)⟩
    · have hlost : header.length + 1 + (unlines (before.map settingLine)).length +
          (settingLine s).length - n = (unlines (before.map settingLine)).length +
            (settingLine s).length - (n - (header.length + 1)) := by
        omega
      rw [hlost]
      exact ⟨hkept, hgone⟩

/-- **The value of a setting after a cut**, if its text goes on nowhere. It belongs to the first
bytes of the text if the cut lies behind the equals sign; otherwise there is none. -/
theorem IsSection.lookup_take {ini : LineParser} {header current : Bytes}
    {settings before after : List (Bytes × Bytes)} {s : Bytes × Bytes} {n : ℕ} {d : Dictionary}
    (h : IsSection ini header current settings) (hsplit : settings = before ++ s :: after)
    (hs : ∀ k, continues (s.2.take k) = false)
    (hload : ini.load ((sectionText header settings).take n) = some d) :
    d.lookup (current ++ colon :: lower s.1) =
      if missing header before s n ≤ s.2.length + 1 then
        some (value ini.quoted (strip (s.2.take (s.2.length - missing header before s n))))
      else none := by
  have hnodup := h.nodup
  rw [h.load_take] at hload
  obtain ⟨stored, hstored, rfl⟩ := Option.map_eq_some_iff.mp hload
  subst hsplit
  obtain ⟨hkept, hgone⟩ := storedSection_append hs h.header_length.1 hstored
  split_ifs with hlost
  · exact lookup_settings (nodup_stored hstored hnodup) (hkept hlost)
  · refine lookup_settings_none ?_
    intro t ht hlower
    have hmem : t.1 ∈ before.map Prod.fst :=
      (hgone (by omega)).subset (List.mem_map_of_mem ht)
    obtain ⟨b, hb, hkey⟩ := List.mem_map.mp hmem
    rw [List.map_append, List.map_cons] at hnodup
    have hdisjoint := (List.nodup_append.mp hnodup).2.2
    exact hdisjoint _ (List.mem_map_of_mem hb) _ List.mem_cons_self (by rw [hkey, hlower])

end Ini
