import DeepinPwCheck.Tool.Rendering

/-!
# The update and its file operations

`update_conf` with every outcome of the operations that it performs on the file. The file
is truncated when it is opened for writing, so a later failure can leave it in a state that
is neither the old one nor the rendered one; the condition under which that does not happen
is exact.
-/

namespace DeepinPwCheck

open CText Ini

/-- The outcomes of the operations on the file, in the order of the source. `createWritten` and
`written` are what the two calls of `fwrite` would return for an unbounded text: they take bytes
into a buffer. `created` and `stored` are how many bytes of such a text have reached the file after
`fclose`, whose result nobody looks at. -/
structure UpdateOps where
  createOpen : Bool
  createWritten : ℕ
  created : ℕ
  loadOpen : Bool
  policyOpen : Bool
  writeOpen : Bool
  written : ℕ
  stored : ℕ
  chmod : Bool

/-- All operations succeed; 2048 is the size of `append_string`. -/
def allSucceed : UpdateOps := ⟨true, 2048, 2048, true, true, true, 2048, 2048, true⟩

/-- What `update_conf` does first: it creates a file that does not exist. -/
def ensureFile (ops : UpdateOps) (file : Option Bytes) : Except (Option Bytes) Bytes :=
  match file with
  | some text => .ok text
  | none =>
      if !ops.createOpen then .error none
      else if min ops.createWritten (bytes "[Password]\n").length ≤ 0 then
        .error (some ((bytes "[Password]\n").take ops.created))
      else .ok ((bytes "[Password]\n").take ops.created)

/-- What `update_conf` does last: it writes the text. The result has the return value and
the content of the file. -/
def writeText (ops : UpdateOps) (text old : Bytes) : ℤ × Option Bytes :=
  if text.length = 0 then (0, some old)
  else if !ops.writeOpen then (-1, some old)
  else if min ops.written text.length = 0 then (-1, some (text.take ops.stored))
  else if !ops.chmod then (-1, some (text.take ops.stored))
  else (0, some (text.take ops.stored))

/-- The text that `update_conf` renders, or what is undefined about it: a policy that was
not read, or a text that does not fit into `append_string`. -/
def renderedText (ops : UpdateOps) (os : OsType) (dic : Dictionary) (old : Bytes) :
    Except LoadError Bytes :=
  match policySetting os dic (if ops.policyOpen then some old else none) with
  | .error e => .error e
  | .ok policy =>
      if (appendString os dic policy).length < 2048 then .ok (appendString os dic policy)
      else .error .overrun

/-- `update_conf`: the return value and the file afterwards. -/
def updateConf (ini : Parser) (ops : UpdateOps) (os : OsType) (file : Option Bytes) :
    Except LoadError (ℤ × Option Bytes) :=
  match ensureFile ops file with
  | .error left => .ok (-1, left)
  | .ok old =>
      match (if ops.loadOpen then ini.load old else none) with
      | none => .ok (-1, some old)
      | some dic =>
          match renderedText ops os dic old with
          | .error e => .error e
          | .ok text => .ok (writeText ops text old)

/-- The text that the update renders for a file it can read. -/
def Renders (ini : Parser) (ops : UpdateOps) (os : OsType) (old text : Bytes) : Prop :=
  ∃ dic, ini.load old = some dic ∧ renderedText ops os dic old = .ok text

/-- The write of a text is all or nothing, for a file with this content: the file cannot be opened,
or everything is stored and the mode is set, or the update reports a failure and what was stored
happens to be the old content. -/
def WritesAllOrNothing (ops : UpdateOps) (old text : Bytes) : Prop :=
  ops.writeOpen = false ∨ (0 < ops.written ∧ text.length ≤ ops.stored ∧ ops.chmod = true) ∨
    ((ops.written = 0 ∨ ops.chmod = false) ∧ old = text.take ops.stored)

/-- All or nothing: on failure the file is what it was, on success it has the complete text. -/
def AllOrNothing (ini : Parser) (ops : UpdateOps) (os : OsType) (old : Bytes)
    (result : ℤ × Option Bytes) : Prop :=
  (result.1 = -1 → result.2 = some old) ∧
    (result.1 = 0 → ∃ text, Renders ini ops os old text ∧ result.2 = some text)

theorem appendString_ne_nil (os : OsType) (dic : Dictionary) (policy : Bytes) :
    appendString os dic policy ≠ [] := by
  simp [appendString, sectionText]

/-- A rendered text is the complete text for some policy. -/
theorem renderedText_eq_ok {ops : UpdateOps} {os : OsType} {dic : Dictionary} {old text : Bytes}
    (h : renderedText ops os dic old = .ok text) :
    ∃ policy, policySetting os dic (if ops.policyOpen then some old else none) = .ok policy ∧
      text = appendString os dic policy ∧ text.length < 2048 := by
  unfold renderedText at h
  cases hpolicy : policySetting os dic (if ops.policyOpen then some old else none) with
  | error e =>
      rw [hpolicy] at h
      cases h
  | ok policy =>
      rw [hpolicy] at h
      dsimp only at h
      split_ifs at h with hlength
      cases h
      exact ⟨policy, rfl, rfl, hlength⟩

/-- **What an update of an existing file can do.** It gives up and leaves the file alone, or
it renders a text and writes it. -/
theorem updateConf_cases {ini : Parser} {ops : UpdateOps} {os : OsType} {old : Bytes}
    {result : ℤ × Option Bytes} (h : updateConf ini ops os (some old) = .ok result) :
    (ops.loadOpen = false ∨ ini.load old = none) ∧ result = (-1, some old) ∨
      ∃ text, ops.loadOpen = true ∧ Renders ini ops os old text ∧
        result = writeText ops text old := by
  unfold updateConf ensureFile at h
  dsimp only at h
  by_cases hopen : ops.loadOpen = true
  · rw [if_pos hopen] at h
    cases hload : ini.load old with
    | none =>
        rw [hload] at h
        exact Or.inl ⟨Or.inr rfl, (Except.ok.inj h).symm⟩
    | some dic =>
        rw [hload] at h
        dsimp only at h
        cases htext : renderedText ops os dic old with
        | error e =>
            rw [htext] at h
            cases h
        | ok text =>
            rw [htext] at h
            exact Or.inr ⟨text, hopen, ⟨dic, hload, htext⟩, (Except.ok.inj h).symm⟩
  · rw [if_neg hopen] at h
    exact Or.inl ⟨Or.inl (by simpa using hopen), (Except.ok.inj h).symm⟩

/-- Only one text is rendered. What a successful update has to leave is therefore determined by
the old file. -/
theorem Renders.unique {ini : Parser} {ops : UpdateOps} {os : OsType} {old text text' : Bytes}
    (h : Renders ini ops os old text) (h' : Renders ini ops os old text') : text = text' := by
  obtain ⟨dic, hload, htext⟩ := h
  obtain ⟨dic', hload', htext'⟩ := h'
  obtain rfl := Option.some.inj (hload.symm.trans hload')
  exact Except.ok.inj (htext.symm.trans htext')

/-- A rendered text has at least its section line. The branch of the source for an empty text is
never taken. -/
theorem Renders.length_ne_zero {ini : Parser} {ops : UpdateOps} {os : OsType} {old text : Bytes}
    (h : Renders ini ops os old text) : text.length ≠ 0 := by
  obtain ⟨dic, -, htext⟩ := h
  obtain ⟨policy, -, rfl, -⟩ := renderedText_eq_ok htext
  exact fun hlength => appendString_ne_nil os dic policy (List.length_eq_zero_iff.mp hlength)

private theorem Renders.exists_iff {ini : Parser} {ops : UpdateOps} {os : OsType}
    {old text : Bytes} (h : Renders ini ops os old text) (P : Bytes → Prop) :
    (∃ text', Renders ini ops os old text' ∧ P text') ↔ P text := by
  constructor
  · rintro ⟨text', h', hP⟩
    rwa [h.unique h']
  · exact fun hP => ⟨text, h, hP⟩

/-- The write of a rendered text is all-or-nothing exactly if its operations allow it. The rest of
the theorem only tells whether there is a text to write. -/
theorem allOrNothing_writeText_iff {ini : Parser} {ops : UpdateOps} {os : OsType}
    {old text : Bytes} (h : Renders ini ops os old text) :
    AllOrNothing ini ops os old (writeText ops text old) ↔ WritesAllOrNothing ops old text := by
  have hne := h.length_ne_zero
  have hswap : text.take ops.stored = old ↔ old = text.take ops.stored := eq_comm
  unfold AllOrNothing writeText WritesAllOrNothing
  rw [if_neg hne, h.exists_iff]
  cases hwrite : ops.writeOpen with
  | false => simp
  | true =>
    by_cases hzero : ops.written = 0
    · simp [hzero, hswap]
    · have hmin : min ops.written text.length ≠ 0 := by omega
      have hpos : 0 < ops.written := by omega
      cases hmode : ops.chmod with
      | false => simp [hmin, hzero, hswap]
      | true => simp [hmin, hzero, hpos, List.take_eq_self_iff]

/-- **All or nothing.** An update returns and is all-or-nothing exactly if it cannot read the file,
or it has a text to write, and either does not get the file open for writing, or stores the complete
text and sets the mode, or reports a failure while the part that it stored happens to be the old
content. -/
theorem updateConf_allOrNothing_iff {ini : Parser} {ops : UpdateOps} {os : OsType} {old : Bytes} :
    (∃ result, updateConf ini ops os (some old) = .ok result ∧
        AllOrNothing ini ops os old result) ↔
      (ops.loadOpen = false ∨ ini.load old = none) ∨
        ∃ text, Renders ini ops os old text ∧ WritesAllOrNothing ops old text := by
  have hunchanged : AllOrNothing ini ops os old (-1, some old) := by
    refine ⟨fun _ => rfl, ?_⟩
    intro hzero
    cases hzero
  by_cases hstop : ops.loadOpen = false ∨ ini.load old = none
  · refine iff_of_true ⟨_, ?_, hunchanged⟩ (Or.inl hstop)
    have hnone : (if ops.loadOpen then ini.load old else none) = none := by
      rcases hstop with hopen | hload
      · rw [hopen]
        rfl
      · rw [hload, ite_self]
    unfold updateConf ensureFile
    dsimp only
    rw [hnone]
  · rw [or_iff_right hstop]
    constructor
    · rintro ⟨result, hresult, hall⟩
      rcases updateConf_cases hresult with ⟨hstopped, -⟩ | ⟨text, -, hrenders, rfl⟩
      · exact absurd hstopped hstop
      · exact ⟨text, hrenders, (allOrNothing_writeText_iff hrenders).mp hall⟩
    · rintro ⟨text, hrenders, hwrites⟩
      refine ⟨_, ?_, (allOrNothing_writeText_iff hrenders).mpr hwrites⟩
      obtain ⟨dic, hload, htext⟩ := hrenders
      have hopen : (if ops.loadOpen then ini.load old else none) = some dic := by
        rw [if_pos (by simpa using fun h => hstop (Or.inl h)), hload]
      unfold updateConf ensureFile
      dsimp only
      rw [hopen]
      dsimp only
      rw [htext]

/-- A file with the section and no setting. -/
def emptySection : Bytes := bytes "[Password]\n"

/-- A write that stores 5 bytes is reported as a success, one that stores nothing as well, and where
the mode cannot be set a failure is reported for a file that has been rewritten. -/
theorem updateConf_not_allOrNothing :
    (updateConf iniparser { allSucceed with stored := 5 } .professional (some emptySection) =
        .ok (0, some (bytes "[Pass")) ∧
      ¬ AllOrNothing iniparser { allSucceed with stored := 5 } .professional emptySection
        (0, some (bytes "[Pass"))) ∧
    (updateConf iniparser { allSucceed with stored := 0 } .professional (some emptySection) =
        .ok (0, some []) ∧
      ¬ AllOrNothing iniparser { allSucceed with stored := 0 } .professional emptySection
        (0, some [])) ∧
    (updateConf iniparser { allSucceed with stored := 15, chmod := false } .professional
        (some emptySection) = .ok (-1, some (bytes "[Password]\nSTRO")) ∧
      ¬ AllOrNothing iniparser { allSucceed with stored := 15, chmod := false } .professional
        emptySection (-1, some (bytes "[Password]\nSTRO"))) := by
  have hshort {ops : UpdateOps} {file : Bytes} (hfile : file.length < 10) :
      ¬ AllOrNothing iniparser ops .professional emptySection (0, some file) := by
    rintro ⟨-, hsuccess⟩
    obtain ⟨text, ⟨dic, -, htext⟩, hsame⟩ := hsuccess rfl
    obtain ⟨policy, -, rfl, -⟩ := renderedText_eq_ok htext
    obtain rfl := Option.some.inj hsame
    have hheader : (bytes "[Password]").length = 10 := by decide
    rw [appendString, sectionText, unlines_cons, List.length_append, hheader] at hfile
    omega
  refine ⟨⟨by decide +kernel, hshort (by decide)⟩, ⟨by decide +kernel, hshort (by decide)⟩,
    ⟨by decide +kernel, ?_⟩⟩
  rintro ⟨hfailure, -⟩
  exact absurd (hfailure rfl) (by decide)

end DeepinPwCheck
