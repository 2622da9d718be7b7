import DeepinPwCheck.Ini.Reading

/-!
# Writing a section

A file that consists of one header and of `key = value` lines, and what reading it back
gives: under each key the value that its text stands for. A text that ends in a backslash takes
the line behind it in, so that the key of that line is not found.
-/

namespace Ini

open CText

/-- The bytes of a key: capital letters and underscores. -/
def isKeyByte (c : Byte) : Bool := (65 ≤ c && c ≤ 90) || c == 95

/-- A key that a writer may use. -/
def IsKey (key : Bytes) : Prop := key ≠ [] ∧ ∀ c ∈ key, isKeyByte c = true

/-- The line `key = text`, without its newline. -/
def settingLine (setting : Bytes × Bytes) : Bytes := setting.1 ++ bytes " = " ++ setting.2

/-- A header and the settings of the section. -/
def sectionText (header : Bytes) (settings : List (Bytes × Bytes)) : Bytes :=
  unlines (header :: settings.map settingLine)

/-- A setting behind one whose text goes on. -/
def joinSetting (pending : Option (Bytes × Bytes)) (s : Bytes × Bytes) : Bytes × Bytes :=
  match pending with
  | none => s
  | some p => (p.1, p.2 ++ settingLine s)

/-- The settings as they are read, behind one whose text goes on. A setting whose text goes on
takes in the line of the next one, and is lost at the end of the file. -/
def joinSettings : Option (Bytes × Bytes) → List (Bytes × Bytes) → List (Bytes × Bytes)
  | _, [] => []
  | pending, s :: settings =>
      if continues (joinSetting pending s).2 then
        joinSettings (some ((joinSetting pending s).1, carryOver (joinSetting pending s).2))
          settings
      else joinSetting pending s :: joinSettings none settings

/-- The entry that a setting becomes. -/
def settingEntry (quoted : Byte → Bytes → Bytes) (current : Bytes) (setting : Bytes × Bytes) :
    Bytes × Bytes :=
  (current ++ colon :: lower setting.1, value quoted (strip setting.2))

/-- The length of a line. All bounds on lines and on the whole text are computed from it. -/
theorem length_settingLine (s : Bytes × Bytes) :
    (settingLine s).length = s.1.length + 3 + s.2.length := by
  have hequals : (bytes " = ").length = 3 := by decide
  rw [settingLine, List.length_append, List.length_append, hequals]

/-- The length of a written section. The keys and the texts are counted apart, because only the
texts depend on the old file. -/
theorem length_sectionText (header : Bytes) (settings : List (Bytes × Bytes)) :
    (sectionText header settings).length =
      header.length + 1 + (settings.map fun s => s.1.length + 4).sum +
        (settings.map fun s => s.2.length).sum := by
  have hequals : (bytes " = ").length = 3 := by decide
  unfold sectionText
  rw [unlines_cons, List.length_append, List.length_cons]
  induction settings with
  | nil => simp
  | cons s settings ih =>
    rw [List.map_cons, unlines_cons, List.length_append, List.length_cons, settingLine,
      List.length_append, List.length_append, hequals, List.map_cons, List.map_cons,
      List.sum_cons, List.sum_cons]
    omega

/-- A section with fewer settings is shorter. It bounds a buffer in which the text of a section
grows. -/
theorem length_sectionText_take_le (header : Bytes) (settings : List (Bytes × Bytes)) (k : ℕ) :
    (sectionText header (settings.take k)).length ≤ (sectionText header settings).length := by
  have hsplit : sectionText header settings =
      sectionText header (settings.take k) ++ unlines ((settings.drop k).map settingLine) := by
    conv_lhs => rw [← List.take_append_drop k settings]
    unfold sectionText unlines
    rw [List.map_append, ← List.cons_append, List.flatMap_append]
  rw [hsplit, List.length_append]
  omega

/-- The bytes of a key have no meaning of their own to the reader. So the reader takes such a key
as it stands. -/
theorem isKeyByte_class {c : Byte} (hc : isKeyByte c = true) :
    isSpace c = false ∧ isComment c = false ∧ c ≠ openBracket ∧ c ≠ equals ∧ c ≠ newline := by
  unfold isKeyByte at hc
  unfold isSpace isComment
  grind

/-- A key has no blanks. It is read back as it was written. -/
theorem strip_key {key : Bytes} (hkey : IsKey key) : strip key = key := by
  obtain ⟨hne, hbytes⟩ := hkey
  have hlast : trimRight key = key := by
    refine List.rdropWhile_eq_self_iff.mpr ?_
    intro h
    simp [(isKeyByte_class (hbytes _ (List.getLast_mem h))).1]
  obtain ⟨c, k, rfl⟩ := List.exists_cons_of_ne_nil hne
  have hc := (isKeyByte_class (hbytes c List.mem_cons_self)).1
  unfold strip
  rw [List.dropWhile_cons_of_neg (by simp [hc]), hlast]

private theorem strip_settingLine {key : Bytes} (hkey : IsKey key) (text : Bytes) :
    strip (settingLine (key, text)) = key ++ space :: equals :: trimRight (space :: text) := by
  obtain ⟨hne, hbytes⟩ := hkey
  obtain ⟨c, k, rfl⟩ := List.exists_cons_of_ne_nil hne
  have hc := (isKeyByte_class (hbytes c List.mem_cons_self)).1
  have hline : settingLine (c :: k, text) = c :: ((k ++ [space]) ++ equals :: space :: text) := by
    simp [settingLine, bytes, space, equals]
  have hequals : isSpace equals = false := by decide
  rw [hline, strip_cons_of_neg hc, trimRight_append_of_neg _ hequals]
  simp

/-- What a written line means to the reader. Everything about a written line follows from this
equation. -/
theorem readLine_settingLine {key : Bytes} (hkey : IsKey key) (text : Bytes) :
    readLine (settingLine (key, text)) = .entry (lower key) (strip text) := by
  have hstrip := strip_settingLine hkey text
  obtain ⟨hne, hbytes⟩ := hkey
  obtain ⟨c, k, rfl⟩ := List.exists_cons_of_ne_nil hne
  obtain ⟨-, hcomment, hbracket, -, -⟩ := isKeyByte_class (hbytes c List.mem_cons_self)
  have hfront : ∀ d ∈ c :: k ++ [space], (d != equals) = true := by
    intro d hd
    rcases List.mem_append.mp hd with hd | hd
    · simpa using (isKeyByte_class (hbytes d hd)).2.2.2.1
    · rw [List.mem_singleton.mp hd]
      decide
  have hsplit : c :: (k ++ space :: equals :: trimRight (space :: text)) =
      (c :: k ++ [space]) ++ equals :: trimRight (space :: text) := by simp
  have hkeyText : strip ((c :: k ++ [space])) = c :: k := by
    rw [strip_append_blank _ isSpace_of_mem_space, strip_key ⟨hne, hbytes⟩]
  have hvalue : strip (trimRight (space :: text)) = strip text := by
    obtain ⟨b, hb, hblank⟩ := exists_trimRight_append (space :: text)
    rw [← strip_append_blank (trimRight (space :: text)) hblank, ← hb]
    exact strip_blank_append isSpace_of_mem_space text
  have htake := takeWhile_append_of_neg (t := trimRight (space :: text)) hfront
    (by decide : (equals != equals) = false)
  have hdrop := dropWhile_append_of_neg (t := trimRight (space :: text)) hfront
    (by decide : (equals != equals) = false)
  unfold readLine afterEquals
  rw [hstrip, List.cons_append]
  dsimp only
  rw [if_neg (by simp [hcomment]), if_neg (fun h => hbracket h.1), hsplit, htake, hkeyText,
    hdrop, List.drop_one, List.tail_cons, hvalue, if_pos]
  exact ⟨by simp, by simp⟩

/-- Settings are read in order, and the latest comes first. The induction is on the settings, with
the dictionary growing in front. -/
theorem readLines_settings (quoted : Byte → Bytes → Bytes) (current : Bytes)
    {settings : List (Bytes × Bytes)} (hkeys : ∀ s ∈ settings, IsKey s.1) (d : Dictionary) :
    readLines quoted (settings.map settingLine) current d =
      some ((settings.map (settingEntry quoted current)).reverse ++ d) := by
  induction settings generalizing d with
  | nil => rfl
  | cons s settings ih =>
      obtain ⟨key, text⟩ := s
      have hkey : IsKey key := hkeys (key, text) List.mem_cons_self
      have hrest : ∀ s ∈ settings, IsKey s.1 :=
        fun s hs => hkeys s (List.mem_cons_of_mem _ hs)
      rw [List.map_cons, readLines, readLine_settingLine hkey]
      dsimp only
      rw [ih hrest]
      simp [settingEntry]

/-- A written line has no byte that is neither in a key nor in ` = `, unless its text has it. It
is used for newlines, NUL bytes and backslashes alike. -/
theorem notMem_settingLine {s : Bytes × Bytes} (hkey : IsKey s.1) {c : Byte}
    (hc : isKeyByte c = false) (hmiddle : c ∉ bytes " = ") (htext : c ∉ s.2) :
    c ∉ settingLine s := by
  have hfront : c ∉ s.1 := by
    intro h
    rw [hkey.2 c h] at hc
    cases hc
  simp only [settingLine, List.mem_append, not_or]
  exact ⟨⟨hfront, hmiddle⟩, htext⟩

/-- A written line has no newline unless its text has one. The lines of a written text are then
those that were written. -/
theorem newline_notMem_settingLine {s : Bytes × Bytes} (hkey : IsKey s.1) (htext : newline ∉ s.2) :
    newline ∉ settingLine s :=
  notMem_settingLine hkey (by decide) (by decide) htext

/-- A written line goes on if its text does. Whether a line is joined with the next one is
therefore decided by its text. -/
theorem continues_settingLine {s : Bytes × Bytes} (hkey : IsKey s.1) :
    continues (settingLine s) = continues s.2 := by
  have hfront : backslash ∉ s.1 ++ bytes " = " := by
    rw [List.mem_append, not_or]
    refine ⟨fun h => ?_, by decide⟩
    exact absurd (hkey.2 _ h) (by decide)
  exact continues_append (continues_of_notMem hfront) s.2

/-- What stays of a written line whose text goes on. The key is in front of the next line. -/
theorem carryOver_settingLine {s : Bytes × Bytes} (hgoes : continues s.2 = true) :
    carryOver (settingLine s) = settingLine (s.1, carryOver s.2) :=
  carryOver_append _ hgoes

/-- The line of a setting behind one whose text goes on. It turns the joining of lines into a
joining of settings. -/
theorem settingLine_joinSetting (pending : Option (Bytes × Bytes)) (s : Bytes × Bytes) :
    settingLine (joinSetting pending s) = (pending.map settingLine).getD [] ++ settingLine s := by
  cases pending with
  | none => rfl
  | some p => simp [joinSetting, settingLine]

/-- The key of a setting behind one whose text goes on is that of the first one. Only values grow
by joining. -/
theorem isKey_joinSetting {pending : Option (Bytes × Bytes)} {s : Bytes × Bytes}
    (hpending : ∀ p ∈ pending, IsKey p.1) (hs : IsKey s.1) : IsKey (joinSetting pending s).1 := by
  cases pending with
  | none => exact hs
  | some p => exact hpending p rfl

/-- The lines of settings are taken apart into the lines of the joined settings. The induction
carries the setting in front whose text goes on. -/
theorem joinLines_settings {settings : List (Bytes × Bytes)} (hkeys : ∀ s ∈ settings, IsKey s.1)
    {pending : Option (Bytes × Bytes)} (hpending : ∀ p ∈ pending, IsKey p.1) :
    joinLines true ((pending.map settingLine).getD []) (settings.map settingLine) =
      (joinSettings pending settings).map settingLine := by
  induction settings generalizing pending with
  | nil => rfl
  | cons s settings ih =>
      have hrest : ∀ s ∈ settings, IsKey s.1 := fun s hs => hkeys s (List.mem_cons_of_mem _ hs)
      have hkey := isKey_joinSetting hpending (hkeys s List.mem_cons_self)
      rw [List.map_cons, joinLines, if_neg (by simp), ← settingLine_joinSetting,
        continues_settingLine hkey, joinSettings]
      split_ifs with hgoes
      · rw [carryOver_settingLine hgoes, ← ih hrest (by simpa using hkey)]
        rfl
      · rw [List.map_cons, ← ih hrest (by simp)]
        rfl

/-- The keys of the joined settings can be read, and are keys of the settings. No key is read
twice, and none that was not written. -/
theorem keys_joinSettings (pending : Option (Bytes × Bytes)) (settings : List (Bytes × Bytes)) :
    ((joinSettings pending settings).map Prod.fst).Sublist
      (pending.toList.map Prod.fst ++ settings.map Prod.fst) := by
  induction settings generalizing pending with
  | nil => simp [joinSettings]
  | cons s settings ih =>
      have hfirst : ((joinSetting pending s).1 :: settings.map Prod.fst).Sublist
          (pending.toList.map Prod.fst ++ (s :: settings).map Prod.fst) := by
        cases pending with
        | none => simp [joinSetting]
        | some p => simp [joinSetting]
      rw [joinSettings]
      split_ifs with hgoes
      · exact (ih _).trans (by simpa using hfirst)
      · rw [List.map_cons]
        exact ((ih none).cons_cons _).trans (by simpa using hfirst)

/-- The keys of the joined settings are distinct if those of the settings are. Joining loses keys
and invents none. -/
theorem nodup_joinSettings {settings : List (Bytes × Bytes)}
    (hnodup : (settings.map fun s => lower s.1).Nodup) :
    ((joinSettings none settings).map fun s => lower s.1).Nodup := by
  have hkeys : ((joinSettings none settings).map Prod.fst).Sublist (settings.map Prod.fst) :=
    keys_joinSettings none settings
  have hlower := hkeys.map lower
  rw [List.map_map, List.map_map] at hlower
  exact hnodup.sublist hlower

/-- The lines of a written section. The reading of a written text begins with them. -/
theorem lines_sectionText {header : Bytes} {settings : List (Bytes × Bytes)}
    (hheader : newline ∉ header) (hkeys : ∀ s ∈ settings, IsKey s.1)
    (htexts : ∀ s ∈ settings, newline ∉ s.2) :
    lines (sectionText header settings) = header :: settings.map settingLine := by
  apply lines_unlines
  intro ℓ hℓ
  rcases List.mem_cons.mp hℓ with rfl | hℓ
  · exact hheader
  · obtain ⟨s, hs, rfl⟩ := List.mem_map.mp hℓ
    exact newline_notMem_settingLine (hkeys s hs) (htexts s hs)

/-- A text of lines ends in a newline. The last line is therefore never taken for one that was cut
off. -/
theorem getLast?_unlines (ℓ : Bytes) (ls : List Bytes) :
    (unlines (ℓ :: ls)).getLast? = some newline := by
  induction ls generalizing ℓ with
  | nil => simp [unlines]
  | cons m ls ih =>
      rw [unlines_cons, List.getLast?_append_of_ne_nil _ (by simp), List.getLast?_cons_of_ne_nil,
        ih]
      simp

/-- The lines of a written section as they are taken apart. The header does not go on, and the
file ends in a newline, so nothing is lost at its end. -/
theorem logicalLines_sectionText {header : Bytes} {settings : List (Bytes × Bytes)}
    (hheader : newline ∉ header) (hends : continues header = false)
    (hkeys : ∀ s ∈ settings, IsKey s.1) (htexts : ∀ s ∈ settings, newline ∉ s.2) :
    logicalLines (sectionText header settings) =
      header :: (joinSettings none settings).map settingLine := by
  have hlast : ((sectionText header settings).getLast? == some newline) = true := by
    rw [sectionText, getLast?_unlines, beq_self_eq_true]
  have hjoined := @joinLines_settings settings hkeys none (by simp)
  unfold logicalLines
  rw [hlast, lines_sectionText hheader hkeys htexts, joinLines, if_neg (by simp), List.nil_append,
    hends, if_neg Bool.false_ne_true, ← hjoined]
  rfl

/-- A written section has no NUL byte unless its header or a text has one. The law on lines only
speaks of such texts. -/
theorem zero_notMem_sectionText {header : Bytes} {settings : List (Bytes × Bytes)}
    (hheader : 0 ∉ header) (hkeys : ∀ s ∈ settings, IsKey s.1) (htexts : ∀ s ∈ settings, 0 ∉ s.2) :
    0 ∉ sectionText header settings := by
  unfold sectionText unlines
  rw [List.mem_flatMap]
  rintro ⟨ℓ, hℓ, hzero⟩
  rcases List.mem_append.mp hzero with hzero | hzero
  · rcases List.mem_cons.mp hℓ with rfl | hℓ
    · exact hheader hzero
    · obtain ⟨s, hs, rfl⟩ := List.mem_map.mp hℓ
      exact notMem_settingLine (hkeys s hs) (by decide) (by decide) (htexts s hs) hzero
  · exact absurd hzero (by decide)

/-- **Reading back a section.** A written section is readable exactly if no line is too
long, and then it holds its settings, joined where a text goes on. -/
theorem LineParser.load_sectionText (ini : LineParser) {header current : Bytes}
    {settings : List (Bytes × Bytes)} (hheader : readLine header = .header current)
    (hplain : plainHeader header = true) (hshort : header.length < ini.lineLimit)
    (hnewline : newline ∉ header) (hnul : 0 ∉ header)
    (hends : continues header = false) (hkeys : ∀ s ∈ settings, IsKey s.1)
    (htexts : ∀ s ∈ settings, newline ∉ s.2 ∧ 0 ∉ s.2) :
    ini.load (sectionText header settings) =
      if linesFit ini.lineLimit [] (settings.map settingLine) then
        some ((joinSettings none settings).map (settingEntry ini.quoted current)).reverse
      else none := by
  have hjoinedKeys : ∀ s ∈ joinSettings none settings, IsKey s.1 := by
    intro s hs
    have hmem : s.1 ∈ settings.map Prod.fst :=
      (keys_joinSettings none settings).subset (List.mem_map_of_mem hs)
    obtain ⟨t, ht, hkey⟩ := List.mem_map.mp hmem
    exact hkey ▸ hkeys t ht
  have hread : readLines ini.quoted (header :: (joinSettings none settings).map settingLine) [] [] =
      some ((joinSettings none settings).map (settingEntry ini.quoted current)).reverse := by
    rw [readLines, hheader]
    dsimp only
    rw [readLines_settings ini.quoted current hjoinedKeys, List.append_nil]
  have hlogical := logicalLines_sectionText hnewline hends hkeys fun s hs => (htexts s hs).1
  have hplainText : PlainText (sectionText header settings) := by
    refine ⟨zero_notMem_sectionText hnul hkeys fun s hs => (htexts s hs).2, ?_⟩
    rw [hlogical, List.forall_mem_cons, List.forall_mem_map]
    refine ⟨hplain, ?_⟩
    intro s hs
    exact plainHeader_of_readLine (.inl ⟨_, _, readLine_settingLine (hjoinedKeys s hs) s.2⟩)
  have hfits : linesFit ini.lineLimit [] (header :: settings.map settingLine) =
      linesFit ini.lineLimit [] (settings.map settingLine) := by
    rw [linesFit, List.nil_append, carryAfter, hends, if_neg Bool.false_ne_true,
      decide_eq_true hshort, Bool.true_and]
  rw [ini.load_eq _ hplainText, lines_sectionText hnewline hkeys fun s hs => (htexts s hs).1,
    hlogical, hread, hfits]

/-- The value under a key of a written section whose keys are distinct. Distinct keys make the
order of the dictionary irrelevant. -/
theorem lookup_settings {quoted : Byte → Bytes → Bytes} {current : Bytes}
    {settings : List (Bytes × Bytes)} (hdistinct : (settings.map fun s => lower s.1).Nodup)
    {key text : Bytes} (hmem : (key, text) ∈ settings) :
    (settings.map (settingEntry quoted current)).reverse.lookup (current ++ colon :: lower key) =
      some (value quoted (strip text)) := by
  obtain ⟨before, after, rfl⟩ := List.append_of_mem hmem
  rw [List.lookup_eq_some_iff]
  refine ⟨(after.map (settingEntry quoted current)).reverse,
    (before.map (settingEntry quoted current)).reverse, by simp [settingEntry], ?_⟩
  intro entry hentry
  obtain ⟨s, hs, rfl⟩ := List.mem_map.mp (List.mem_reverse.mp hentry)
  rw [List.map_append, List.map_cons] at hdistinct
  have hafter := (List.nodup_cons.mp (List.nodup_append.mp hdistinct).2.1).1
  have hne : lower key ≠ lower s.1 := by
    intro h
    exact hafter (List.mem_map.mpr ⟨s, hs, h.symm⟩)
  simpa [settingEntry] using hne

/-- A key that is not written has no value. It tells that a setting whose line was taken in has
disappeared. -/
theorem lookup_settings_none {quoted : Byte → Bytes → Bytes} {current : Bytes}
    {settings : List (Bytes × Bytes)} {key : Bytes}
    (habsent : ∀ s ∈ settings, lower s.1 ≠ lower key) :
    (settings.map (settingEntry quoted current)).reverse.lookup (current ++ colon :: lower key) =
      none := by
  rw [List.lookup_eq_none_iff]
  intro entry hentry
  obtain ⟨s, hs, rfl⟩ := List.mem_map.mp (List.mem_reverse.mp hentry)
  simpa [settingEntry] using (habsent s hs).symm

end Ini
