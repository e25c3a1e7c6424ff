import SafeMarkdown.Command.Run
import SafeMarkdown.Proofs.Command.Running

/-!
# Settings that cannot be used

Whatever the environment and the caller give, reading settings fails by unusable values only, which a
command tells as an error, exactly when the file in the working directory says nothing, holds a
mapping with text keys, or cannot be read for such a reason itself. A file that holds a list, a text
or a number stops the command by another failure.
-/

namespace SafeMarkdown

namespace Settings

/-- Data that settings can be read from: it says nothing, or is a mapping with text keys. -/
def Describes (data : Yaml.Data) : Prop :=
  data.isTruthy = false ∨ ∃ entries, data = .map entries ∧ hasTextKeys entries = true

/-- A text that describes settings, or fails to be read for a reason that is told. -/
def IsUsable (text : String) : Prop :=
  match Yaml.load text.toList with
  | .ok data => Describes data
  | .error .malformed => True
  | .error (.scalar cause) => cause.failure.isValueError = true

/-- What is at the place of the settings, if anything, is a file, and its text is usable or it has
none. -/
def FileIsUsable (d : Disk) : Prop :=
  d.isFolder (Path.ofText fileName) = false ∧
    ∀ text, d.readText (Path.ofText fileName) = .ok text → IsUsable text

section Entries

theorem hasTextKeys_put (k : String) (v : Yaml.Data) (entries : List (Yaml.Data × Yaml.Data)) :
    hasTextKeys (Yaml.Data.put (.str k) v entries) = hasTextKeys entries := by
  induction entries with
  | nil => rfl
  | cons e entries ih =>
      obtain ⟨l, w⟩ := e
      rw [Yaml.Data.put]
      split
      · rfl
      · simp only [hasTextKeys, List.all_cons] at ih ⊢
        rw [ih]

theorem hasTextKeys_putAll (given : List (String × Yaml.Data))
    (entries : List (Yaml.Data × Yaml.Data)) :
    hasTextKeys (putAll entries given) = hasTextKeys entries := by
  unfold putAll
  induction given generalizing entries with
  | nil => rfl
  | cons g given ih => rw [List.foldl_cons, ih, hasTextKeys_put]

end Entries

section Data

variable {set : List (String × String)} {given : List (String × Value)} {data : Yaml.Data}

/-- The settings of data, with the variables that are set and what a caller gives. -/
def ofSources (set : List (String × String)) (given : List (String × Value)) (data : Yaml.Data) :
    Except Failure Settings := do
  ofData (← withGiven given (← withVariables set data))

theorem ofData_error_of_hasTextKeys {entries : List (Yaml.Data × Yaml.Data)} {e : Failure}
    (hkeys : hasTextKeys entries = true) (h : ofData (.map entries) = .error e) :
    e.isValueError = true := by
  rw [ofData, if_pos hkeys] at h
  cases hread : ofEntries entries with
  | ok settings =>
      rw [hread] at h
      cases h
  | error faults =>
      rw [hread] at h
      cases h
      rfl

theorem ofSources_map (set : List (String × String)) (given : List (String × Value))
    (entries : List (Yaml.Data × Yaml.Data)) :
    ∃ all, hasTextKeys all = hasTextKeys entries ∧
      ofSources set given (.map entries) = ofData (.map all) := by
  refine ⟨_, ?_, rfl⟩
  rw [hasTextKeys_putAll, hasTextKeys_putAll]

/-- Only a mapping takes variables, and only from a mapping are settings read. -/
theorem ofSources_error_of_not_map (set : List (String × String)) (given : List (String × Value))
    (h : ∀ entries, data ≠ .map entries) :
    ∃ e, ofSources set given data = .error e ∧ e.isValueError = false := by
  have hvariables : withVariables set data = .ok data ∨
      ∃ e, withVariables set data = .error e ∧ e.isValueError = false := by
    unfold withVariables
    split
    · exact absurd rfl (h _)
    · split
      · exact .inl rfl
      · exact .inr ⟨_, rfl, rfl⟩
  have hgiven : withGiven given data = .ok data ∨
      ∃ e, withGiven given data = .error e ∧ e.isValueError = false := by
    unfold withGiven
    split
    · exact absurd rfl (h _)
    · exact .inl rfl
    · split
      · exact .inl rfl
      · exact .inr ⟨_, rfl, rfl⟩
  have hdata : ∃ e, ofData data = .error e ∧ e.isValueError = false := by
    unfold ofData
    split
    · exact absurd rfl (h _)
    · exact ⟨_, rfl, rfl⟩
  unfold ofSources
  rcases hvariables with hvariables | ⟨e, hvariables, he⟩
  · rw [hvariables]
    rcases hgiven with hgiven | ⟨e, hgiven, he⟩
    · obtain ⟨e, hdata, he⟩ := hdata
      exact ⟨e, by rw [← hdata]; exact congrArg (· >>= ofData) hgiven, he⟩
    · exact ⟨e, congrArg (· >>= ofData) hgiven, he⟩
  · rw [hvariables]
    exact ⟨e, rfl, he⟩

/-- Which data gives settings or fails by unusable values. -/
theorem ofSources_usable_iff (set : List (String × String)) (given : List (String × Value)) :
    (∀ e, ofSources set given data = .error e → e.isValueError = true) ↔
      ∃ entries, data = .map entries ∧ hasTextKeys entries = true := by
  constructor
  · intro h
    by_cases hmap : ∃ entries, data = .map entries
    · obtain ⟨entries, rfl⟩ := hmap
      refine ⟨entries, rfl, ?_⟩
      obtain ⟨all, hkeys, hall⟩ := ofSources_map set given entries
      cases hother : hasTextKeys entries with
      | true => rfl
      | false =>
          have hfails := h (.wrongShape "a setting is named by no text") (by
            rw [hall, ofData, hkeys, hother, if_neg Bool.false_ne_true])
          cases hfails
    · obtain ⟨e, he, hother⟩ :=
        ofSources_error_of_not_map set given fun entries hdata ↦ hmap ⟨entries, hdata⟩
      rw [h e he] at hother
      cases hother
  · rintro ⟨entries, rfl, hkeys⟩ e he
    obtain ⟨all, hall, heq⟩ := ofSources_map set given entries
    rw [heq] at he
    exact ofData_error_of_hasTextKeys (hall.trans hkeys) he

end Data

section Files

variable {d : Disk}

theorem locate_fileName (d : Disk) : d.locate (Path.ofText fileName) = .ok [fileName] := by
  have hpath : Path.ofText fileName = ⟨0, [fileName]⟩ := by decide
  have habove : (fileName == Path.above) = false := by decide
  rw [hpath, Disk.locate, if_pos rfl, Disk.follow, habove]
  rfl

theorem isFolder_fileName (d : Disk) :
    d.isFolder (Path.ofText fileName) = d.hasFolder [fileName] := by
  rw [Disk.isFolder, locate_fileName]

theorem readBytes_fileName (d : Disk) :
    d.readBytes (Path.ofText fileName) =
      if d.hasFolder [fileName] then .error (.file .isDirectory (Path.ofText fileName).text)
      else match d.file? [fileName] with
        | some bytes => .ok bytes
        | none => .error (.file .missing (Path.ofText fileName).text) := by
  have hname : Disk.nameable (Path.ofText fileName) = .ok () := by
    rw [Disk.nameable, if_neg (by decide)]
  rw [Disk.readBytes, hname, locate_fileName]
  dsimp only [bind, Except.bind]
  split
  · rfl
  · cases d.file? [fileName] <;> rfl

theorem holds_fileName (d : Disk) :
    d.holds (Path.ofText fileName) = (d.hasFolder [fileName] || (d.file? [fileName]).isSome) := by
  rw [Disk.holds, isFolder_fileName, Disk.isFile, locate_fileName]
  dsimp only
  cases d.hasFolder [fileName] <;> rfl

/-- The data of a text. -/
def textData (text : String) : Except Failure Yaml.Data :=
  match Yaml.load text.toList with
  | .error .malformed => .error (.unusable ("Invalid " ++ fileName))
  | .error (.scalar cause) => .error cause.failure
  | .ok data => .ok (if data.isTruthy then data else .map [])

theorem fileData_of_isFolder (hfolder : d.isFolder (Path.ofText fileName) = true) :
    fileData d = .error (.file .isDirectory (Path.ofText fileName).text) := by
  rw [isFolder_fileName] at hfolder
  rw [fileData, holds_fileName, Disk.readText, readBytes_fileName, if_pos hfolder, hfolder]
  rfl

/-- Without a folder in its place, settings are read from nothing, or from the text of a file. -/
theorem fileData_of_not_isFolder (hfolder : d.isFolder (Path.ofText fileName) = false) :
    ((∀ text, d.readText (Path.ofText fileName) ≠ .ok text) ∧
        (fileData d = .ok (.map []) ∨ ∃ fault, fileData d = .error (.encoding fault))) ∨
      ∃ text, d.readText (Path.ofText fileName) = .ok text ∧ fileData d = textData text := by
  have hbytes := readBytes_fileName d
  have hholds := holds_fileName d
  rw [isFolder_fileName] at hfolder
  rw [hfolder, if_neg Bool.false_ne_true] at hbytes
  rw [hfolder, Bool.false_or] at hholds
  cases hfile : d.file? [fileName] with
  | none =>
      rw [hfile] at hbytes hholds
      refine .inl ⟨?_, .inl ?_⟩
      · intro text htext
        rw [Disk.readText, hbytes] at htext
        cases htext
      · rw [fileData, hholds]
        rfl
  | some bytes =>
      rw [hfile] at hbytes hholds
      rw [Option.isSome_some] at hholds
      cases hdecode : Text.decodeUtf8 bytes with
      | error fault =>
          have htext : d.readText (Path.ofText fileName) = .error (.encoding fault) := by
            rw [Disk.readText, hbytes]
            dsimp only [bind, Except.bind]
            rw [hdecode]
            rfl
          refine .inl ⟨?_, .inr ⟨fault, ?_⟩⟩
          · intro text hok
            rw [htext] at hok
            cases hok
          · rw [fileData, hholds, htext]
            rfl
      | ok s =>
          have htext : d.readText (Path.ofText fileName) =
              .ok (String.ofList (Text.unifyLineEnds s)) := by
            rw [Disk.readText, hbytes]
            dsimp only [bind, Except.bind]
            rw [hdecode]
            rfl
          refine .inr ⟨_, htext, ?_⟩
          rw [fileData, hholds, htext, Bool.not_true, if_neg Bool.false_ne_true, textData]
          dsimp only [bind, Except.bind]
          cases Yaml.load (String.ofList (Text.unifyLineEnds s)).toList with
          | ok data =>
              dsimp only
              split <;> rfl
          | error fault => cases fault <;> rfl

end Files

section Loading

variable (environment : List (String × String)) (given : List (String × Value))

theorem load_eq (d : Disk) :
    load d environment given = fileData d >>= ofSources (setVariables environment) given :=
  rfl

/-- Reading settings fails by unusable values only. -/
def FailsUsably (r : Except Failure Yaml.Data) : Prop :=
  ∀ e, (r >>= ofSources (setVariables environment) given) = .error e → e.isValueError = true

theorem failsUsably_error (e : Failure) :
    FailsUsably environment given (.error e) ↔ e.isValueError = true := by
  constructor
  · intro h
    exact h e rfl
  · rintro h _ ⟨⟩
    exact h

theorem failsUsably_ok (data : Yaml.Data) :
    FailsUsably environment given (.ok data) ↔
      ∃ entries, data = .map entries ∧ hasTextKeys entries = true :=
  ofSources_usable_iff _ _

theorem failsUsably_textData (text : String) :
    FailsUsably environment given (textData text) ↔ IsUsable text := by
  rw [textData, IsUsable]
  cases Yaml.load text.toList with
  | error fault =>
      cases fault with
      | malformed => exact iff_of_true ((failsUsably_error _ _ _).2 rfl) trivial
      | scalar cause => exact failsUsably_error _ _ _
  | ok data =>
      dsimp only
      rw [failsUsably_ok, Describes]
      cases htruthy : data.isTruthy with
      | false => exact iff_of_true ⟨[], rfl, rfl⟩ (.inl rfl)
      | true =>
          rw [if_pos rfl]
          constructor
          · exact .inr
          · rintro (h | h)
            · cases h
            · exact h

theorem failsUsably_fileData (d : Disk) :
    FailsUsably environment given (fileData d) ↔ FileIsUsable d := by
  cases hfolder : d.isFolder (Path.ofText fileName) with
  | true =>
      rw [fileData_of_isFolder hfolder, failsUsably_error, FileIsUsable, hfolder]
      constructor
      · intro h
        cases h
      · rintro ⟨h, -⟩
        cases h
  | false =>
      rcases fileData_of_not_isFolder hfolder with ⟨hnone, hdata⟩ | ⟨text, htext, hdata⟩
      · have hfile : FileIsUsable d := ⟨hfolder, fun text htext ↦ (hnone text htext).elim⟩
        refine iff_of_true ?_ hfile
        rcases hdata with hdata | ⟨fault, hdata⟩
        · rw [hdata, failsUsably_ok]
          exact ⟨[], rfl, rfl⟩
        · rw [hdata, failsUsably_error]
          rfl
      · rw [hdata, failsUsably_textData]
        constructor
        · intro h
          refine ⟨hfolder, fun other hother ↦ ?_⟩
          rw [htext] at hother
          cases hother
          exact h
        · rintro ⟨-, h⟩
          exact h text htext

/-- How a command reads its settings: it goes on with them, tells that they cannot be used, or stops
by another failure. -/
theorem run_settingsWith (s : Command.Session) :
    (Command.settingsWith environment given).run.run s =
      match load s.disk environment given with
      | .ok settings => (.ok settings, s)
      | .error e =>
        if e.isValueError then
          (.error (.status 1), { s with complaints := s.complaints ++ ["Error: " ++ e.message] })
        else (.error (.failure e), s) := by
  rw [Command.settingsWith, Command.run_bind, Command.Running.run_get]
  dsimp only
  cases load s.disk environment given with
  | ok settings => rfl
  | error e =>
      dsimp only
      split <;> rfl

/-- Whatever the environment holds and a caller gives, reading settings fails by unusable values
only, and a command that reads them is stopped by no failure, exactly when the file is usable. -/
theorem load_usable_iff (s : Command.Session) :
    ((∀ e, load s.disk environment given = .error e → e.isValueError = true) ↔
        FileIsUsable s.disk) ∧
      ((∃ settings, (Command.settingsWith environment given).run.run s = (.ok settings, s)) ∨
          (∃ e, load s.disk environment given = .error e ∧
            (Command.settingsWith environment given).run.run s = (.error (.status 1),
              { s with complaints := s.complaints ++ ["Error: " ++ e.message] })) ↔
        FileIsUsable s.disk) := by
  have hload := failsUsably_fileData environment given s.disk
  rw [FailsUsably, ← load_eq] at hload
  refine ⟨hload, ?_⟩
  rw [← hload, run_settingsWith]
  cases load s.disk environment given with
  | ok settings =>
      refine iff_of_true (.inl ⟨settings, rfl⟩) ?_
      rintro e ⟨⟩
  | error e =>
      dsimp only
      cases hvalue : e.isValueError with
      | true =>
          refine iff_of_true (.inr ⟨e, rfl, ?_⟩) ?_
          · rw [if_pos rfl]
          · rintro _ ⟨⟩
            exact hvalue
      | false =>
          rw [if_neg Bool.false_ne_true]
          constructor
          · rintro (⟨settings, h⟩ | ⟨other, -, h⟩)
            · cases h
            · cases h
          · intro h
            rw [h e rfl] at hvalue
            cases hvalue

/-- A list stops the reading of settings, and the command, by another failure. -/
theorem load_list :
    ¬ ∀ e, load { files := [([fileName], "- a".toUTF8.toList)] } [] [] = .error e →
      e.isValueError = true := by
  have hfails : (match load { files := [([fileName], "- a".toUTF8.toList)] } [] [] with
      | .error e => some e.isValueError
      | .ok _ => none) = some false := by
    decide +kernel
  intro h
  split at hfails
  · rename_i e he
    rw [h e he] at hfails
    cases hfails
  · cases hfails

end Loading

end Settings

end SafeMarkdown
