import SafeMarkdown.FrontMatter.Block
import SafeMarkdown.Proofs.Returns

/-!
# Lenient reading of front matter

Unless reading is strict, a block that cannot be read as metadata counts as empty. Two faults pass by
this rule and stop the load all the same: a scalar that lacks the value which its kind promises, such
as a date that is none, and a date that leaves the calendar when it is moved to universal time.
-/

namespace SafeMarkdown

/-- A failure of a metadata block, which a lenient load makes up for. -/
def Failure.IsMetadata (e : Failure) : Prop :=
  ∃ message body, e = .metadata message body

namespace FrontMatter

/-- A scalar of a block lacks the value that its kind promises. -/
def LacksScalar (yaml : List Char) : Prop :=
  ∃ cause, Yaml.load yaml = .error (.scalar cause)

/-- The date among fields leaves the calendar when it is moved to universal time. -/
def LeavesCalendar (fields : Fields) : Prop :=
  ∃ date, fields.get? "date" = some (.str date) ∧ Iso.readInstant date = .error .beyondCalendar

/-- A text has a block with a fault that is none of metadata. -/
def StopsLoad (text : String) : Prop :=
  ∃ yaml body, split (dropMark text.toList) = .block yaml body ∧
    (LacksScalar yaml ∨
      ∃ fields, readBlock yaml (String.ofList body) = .ok fields ∧ LeavesCalendar fields)

theorem not_isMetadata_failure (cause : Yaml.ScalarFault) : ¬ cause.failure.IsMetadata := by
  rintro ⟨message, body, h⟩
  cases cause <;> cases h

theorem readBlock_error_iff (yaml : List Char) (body : String) :
    (∃ e, readBlock yaml body = .error e ∧ ¬ e.IsMetadata) ↔ LacksScalar yaml := by
  unfold readBlock LacksScalar
  split
  · rename_i hload
    refine ⟨?_, ?_⟩
    · rintro ⟨e, he, hother⟩
      cases he
      exact (hother ⟨_, _, rfl⟩).elim
    · rintro ⟨cause, hcause⟩
      rw [hload] at hcause
      cases hcause
  · rename_i cause hload
    exact ⟨fun _ ↦ ⟨cause, hload⟩, fun _ ↦ ⟨_, rfl, not_isMetadata_failure cause⟩⟩
  · rename_i d hload
    refine ⟨?_, ?_⟩
    · rintro ⟨e, he, hother⟩
      split at he
      · cases he
      · split at he
        · cases he
        · cases he
          exact (hother ⟨_, _, rfl⟩).elim
    · rintro ⟨cause, hcause⟩
      rw [hload] at hcause
      cases hcause

theorem readDate_error_iff (v : Value) (e : Failure) :
    readDate v = .error e ↔ e = .calendar .beyondCalendar ∧
      ∃ date, v = .str date ∧ Iso.readInstant date = .error .beyondCalendar := by
  unfold readDate
  split
  · simp
  · simp
  · simp
  · rename_i date
    split
    · rename_i hread
      simp [hread]
    · rename_i hread
      simp [hread, eq_comm]
    · rename_i fault hother hread
      have hne : fault ≠ .beyondCalendar := hother
      simp [hread, hne]
  · rename_i hnull hdate hmoment hstr
    refine ⟨fun h ↦ (by cases h), ?_⟩
    rintro ⟨-, date, rfl, -⟩
    exact (hstr date rfl).elim

theorem field_date_error_iff (fields : Fields) (e : Failure) :
    Checked.field fields "date" (.ok (.ok none)) readDate = .error e ↔
      e = .calendar .beyondCalendar ∧ LeavesCalendar fields := by
  unfold Checked.field LeavesCalendar
  cases hdate : fields.get? "date" with
  | none => simp
  | some v => simp [readDate_error_iff]

theorem ofFields_of_leavesCalendar {fields : Fields} (h : LeavesCalendar fields) :
    ofFields fields = .error (.calendar .beyondCalendar) := by
  unfold ofFields
  rw [(field_date_error_iff fields _).mpr ⟨rfl, h⟩]
  rfl

/-- Fields fail to describe front matter by faults of theirs, or by a date that leaves the
calendar. -/
theorem ofFields_error {fields : Fields} {e : Failure} (h : ofFields fields = .error e) :
    (∃ faults, e = .invalid faults) ∨ e = .calendar .beyondCalendar ∧ LeavesCalendar fields := by
  unfold ofFields at h
  cases hdate : Checked.field fields "date" (.ok (.ok none)) readDate with
  | error e' =>
      rw [hdate] at h
      cases h
      exact .inr ((field_date_error_iff fields e).mp hdate)
  | ok date =>
      simp only [hdate, bind, Except.bind] at h
      split at h
      · cases h
      · cases h
        exact .inl ⟨_, rfl⟩

theorem validate_error_iff (fields : Fields) (body : String) :
    (∃ e, validate fields body = .error e ∧ ¬ e.IsMetadata) ↔ LeavesCalendar fields := by
  unfold validate
  cases hfields : ofFields fields with
  | ok fm =>
      refine ⟨fun ⟨e, he, _⟩ ↦ (by cases he), fun hleaves ↦ ?_⟩
      rw [ofFields_of_leavesCalendar hleaves] at hfields
      cases hfields
  | error e =>
      rcases ofFields_error hfields with ⟨faults, rfl⟩ | ⟨rfl, hleaves⟩
      · refine ⟨fun ⟨e, he, hother⟩ ↦ ?_, fun hleaves ↦ ?_⟩
        · cases he
          exact (hother ⟨_, _, rfl⟩).elim
        · rw [ofFields_of_leavesCalendar hleaves] at hfields
          cases hfields
      · exact ⟨fun _ ↦ hleaves, fun _ ↦ ⟨_, rfl, fun ⟨_, _, h⟩ ↦ (by cases h)⟩⟩

theorem not_leavesCalendar_nil : ¬ LeavesCalendar [] := by
  simp [LeavesCalendar, Fields.get?]

theorem extract_of_block {text : String} {yaml body : List Char}
    (h : split (dropMark text.toList) = .block yaml body) :
    extract text = (do return (← readBlock yaml (String.ofList body), String.ofList body)) := by
  unfold extract
  dsimp only
  rw [h]

theorem parseStrict_of_block {text : String} {yaml body : List Char} {e : Failure}
    (h : split (dropMark text.toList) = .block yaml body) :
    parseStrict text = .error e ↔ readBlock yaml (String.ofList body) = .error e ∨
      ∃ fields, readBlock yaml (String.ofList body) = .ok fields ∧
        validate fields (String.ofList body) = .error e := by
  have hextract := extract_of_block h
  cases hblock : readBlock yaml (String.ofList body) with
  | error e' =>
      have herror : extract text = .error e' := by rw [hextract, hblock]; rfl
      simp [parseStrict, herror, bind_eq_error]
  | ok fields =>
      have hok : extract text = .ok (fields, String.ofList body) := by rw [hextract, hblock]; rfl
      simp [parseStrict, hok, bind_eq_error, pure, Except.pure]

theorem isMetadata_of_not_block {text : String} {e : Failure}
    (h : ∀ yaml body, split (dropMark text.toList) ≠ .block yaml body)
    (he : parseStrict text = .error e) : e.IsMetadata := by
  rw [parseStrict, extract] at he
  cases hsplit : split (dropMark text.toList) with
  | none =>
      simp only [hsplit] at he
      rcases bind_eq_error.mp he with hextract | ⟨a, hextract, he⟩
      · cases hextract
      · cases hextract
        rcases bind_eq_error.mp he with hvalidate | ⟨fm, -, he⟩
        · refine Classical.byContradiction fun hother ↦ not_leavesCalendar_nil ?_
          exact (validate_error_iff _ _).mp ⟨e, hvalidate, hother⟩
        · cases he
  | unterminated =>
      simp only [hsplit] at he
      rcases bind_eq_error.mp he with hextract | ⟨a, hextract, -⟩
      · cases hextract
        exact ⟨_, _, rfl⟩
      · cases hextract
  | block yaml body => exact (h yaml body hsplit).elim

/-- Strict reading fails otherwise than by metadata exactly on the texts that stop a load. -/
theorem parseStrict_error_iff (text : String) :
    (∃ e, parseStrict text = .error e ∧ ¬ e.IsMetadata) ↔ StopsLoad text := by
  refine ⟨?_, ?_⟩
  · rintro ⟨e, he, hother⟩
    refine Classical.byContradiction fun hstops ↦ hother (isMetadata_of_not_block ?_ he)
    intro yaml body hsplit
    refine hstops ⟨yaml, body, hsplit, ?_⟩
    rcases (parseStrict_of_block hsplit).mp he with hread | ⟨fields, hread, hvalidate⟩
    · exact .inl ((readBlock_error_iff yaml _).mp ⟨e, hread, hother⟩)
    · exact .inr ⟨fields, hread, (validate_error_iff fields _).mp ⟨e, hvalidate, hother⟩⟩
  · rintro ⟨yaml, body, hsplit, hscalar | ⟨fields, hread, hleaves⟩⟩
    · obtain ⟨e, hread, hother⟩ := (readBlock_error_iff yaml (String.ofList body)).mpr hscalar
      exact ⟨e, (parseStrict_of_block hsplit).mpr (.inl hread), hother⟩
    · obtain ⟨e, hvalidate, hother⟩ := (validate_error_iff fields (String.ofList body)).mpr hleaves
      exact ⟨e, (parseStrict_of_block hsplit).mpr (.inr ⟨fields, hread, hvalidate⟩), hother⟩

theorem outcome_parse_ok {text : String} {r : FrontMatter × String} (h : parseStrict text = .ok r)
    (strict : Bool) : (parse text strict).outcome.1 = .ok r := by
  rw [parse, h]
  rfl

theorem outcome_parse_metadata {text message body : String}
    (h : parseStrict text = .error (.metadata message body)) :
    (parse text true).outcome.1 = .error (.metadata message body) ∧
      (parse text false).outcome.1 = .ok ({}, body) := by
  rw [parse, parse, h]
  exact ⟨rfl, rfl⟩

theorem outcome_parse_error {text : String} {e : Failure} (h : parseStrict text = .error e)
    (hother : ¬ e.IsMetadata) (strict : Bool) : (parse text strict).outcome.1 = .error e := by
  unfold parse
  rw [h]
  split
  · rename_i heq
    cases heq
  · rename_i message body heq
    cases heq
    exact (hother ⟨message, body, rfl⟩).elim
  · rename_i heq
    cases heq
    rfl

/-- The text after a block that cannot be read as a mapping. -/
def bodyAfter? : Except Failure (FrontMatter × String) → Option String
  | .error (.metadata _ body) => some body
  | _ => none

theorem exists_of_bodyAfter? {r : Except Failure (FrontMatter × String)} {body : String}
    (h : bodyAfter? r = some body) : ∃ message, r = .error (.metadata message body) := by
  unfold bodyAfter? at h
  split at h
  · cases h
    exact ⟨_, rfl⟩
  · cases h

end FrontMatter

end SafeMarkdown
