import SafeMarkdown.FrontMatter.Block
import SafeMarkdown.Proofs.Fields
import SafeMarkdown.Proofs.Returns

/-!
# Front matter in normal form

A date is read once, when front matter is validated, and a second time, when documents are ordered.
The values that YAML brings along hold dates as texts only, so the second reading is of the same
text and finds an instant again.

Validation writes each declared field in one form: a text for a title, a description and a date, and
a list of texts for tags. The fields of validated front matter are read as they stand, so validating
them again changes nothing. They are the declared ones that are set, in their order, in front of the
further fields of the input, and the date among them is one that documents can be ordered by.
-/

namespace SafeMarkdown.FrontMatter

/-- Whether a value is brought along by YAML. -/
def IsLoaded (v : Value) : Prop :=
  ∃ d : Yaml.Data, v = d.toValue

theorem isLoaded_of_mem_entryValues {entries : List (Yaml.Data × Yaml.Data)} {f : String × Value}
    (h : f ∈ Yaml.Data.entryValues entries) : IsLoaded f.2 := by
  induction entries with
  | nil => cases h
  | cons e rest ih =>
      rw [Yaml.Data.entryValues] at h
      rcases List.mem_cons.mp h with rfl | h
      · exact ⟨e.2, rfl⟩
      · exact ih h

theorem isLoaded_of_readBlock {yaml : List Char} {body : String} {fields : Fields}
    (h : readBlock yaml body = .ok fields) {f : String × Value} (hf : f ∈ fields) :
    IsLoaded f.2 := by
  unfold readBlock at h
  split at h
  · cases h
  · cases h
  · rename_i d hload
    split at h
    · cases h
      cases hf
    · split at h
      · rename_i loaded hvalue
        cases h
        cases d with
        | map entries =>
            rw [Yaml.Data.toValue] at hvalue
            cases hvalue
            exact isLoaded_of_mem_entryValues (Fields.mem_ofList hf)
        | null | bool _ | int _ | float _ | str _ | bytes _ | date _ | moment _ | seq _ | set _ =>
            cases hvalue
      · cases h

/-- Whether a value is neither a date nor a moment, so that it can hold a date as a text only. -/
def IsTimeless : Value → Prop
  | .date _ => False
  | .moment _ => False
  | _ => True

theorem isTimeless_of_isLoaded {v : Value} (h : IsLoaded v) : IsTimeless v := by
  obtain ⟨d, rfl⟩ := h
  cases d <;> trivial

/-- What is read of a date that is given as a text is an instant, if there is one. -/
theorem readInstant_of_readDate {v : Value} (hv : IsTimeless v) {date : Option String}
    (h : readDate v = .ok (.ok date)) {s : String} (hs : date = some s) :
    ∃ m, Iso.readInstant s = .ok m := by
  unfold readDate at h
  split at h
  · cases h
    cases hs
  · cases hv
  · cases hv
  · split at h
    · rename_i m hread
      cases h
      cases hs
      exact ⟨m, hread⟩
    · cases h
    · cases h
  · cases h

/-- Whether the instant is known by which a document is ordered, or that it has none. -/
def IsOrdered (fm : FrontMatter) : Prop :=
  ∃ key, fm.sortKey = .ok key

theorem isOrdered_of_date {fm : FrontMatter}
    (h : ∀ s, fm.date = some s → ∃ m, Iso.readInstant s = .ok m) : fm.IsOrdered := by
  unfold IsOrdered sortKey
  cases hdate : fm.date with
  | none => exact ⟨none, rfl⟩
  | some s =>
      obtain ⟨m, hm⟩ := h s hdate
      dsimp only
      split
      · exact ⟨none, rfl⟩
      · rw [hm]
        exact ⟨some m, rfl⟩

theorem readInstant_of_ofFields {fields : Fields} {fm : FrontMatter}
    (htimeless : ∀ f ∈ fields, IsTimeless f.2) (h : ofFields fields = .ok fm) {s : String}
    (hs : fm.date = some s) : ∃ m, Iso.readInstant s = .ok m := by
  obtain ⟨date, hdate, h⟩ := bind_eq_ok.mp h
  dsimp only at h
  split at h
  · cases h
    rw [Checked.field] at hdate
    split at hdate
    · cases hdate
      cases hs
    · rename_i v hget
      exact readInstant_of_readDate (htimeless _ (Fields.mem_of_get? hget)) hdate hs
  · cases h

theorem isOrdered_of_ofFields {fields : Fields} {fm : FrontMatter}
    (htimeless : ∀ f ∈ fields, IsTimeless f.2) (h : ofFields fields = .ok fm) : fm.IsOrdered :=
  isOrdered_of_date fun _ hs ↦ readInstant_of_ofFields htimeless h hs

theorem isLoaded_of_extract {text body : String} {fields : Fields}
    (h : extract text = .ok (fields, body)) {f : String × Value} (hf : f ∈ fields) :
    IsLoaded f.2 := by
  unfold extract at h
  dsimp only at h
  split at h
  · cases h
    cases hf
  · cases h
  · obtain ⟨loaded, hread, h⟩ := bind_eq_ok.mp h
    cases h
    exact isLoaded_of_readBlock hread hf

theorem fields_of_parseStrict {text body : String} {fm : FrontMatter}
    (h : parseStrict text = .ok (fm, body)) :
    ∃ fields, (∀ f ∈ fields, IsLoaded f.2) ∧ ofFields fields = .ok fm := by
  obtain ⟨⟨fields, _⟩, hextract, h⟩ := bind_eq_ok.mp h
  obtain ⟨validated, hvalidate, h⟩ := bind_eq_ok.mp h
  cases h
  refine ⟨fields, fun f hf ↦ isLoaded_of_extract hextract hf, ?_⟩
  unfold validate at hvalidate
  split at hvalidate
  · cases hvalidate
  · exact hvalidate

/-- Front matter that is read of a text is valid for values that YAML brings along. Where it counts
as empty it is valid for none. -/
theorem fields_of_parse {text body : String} {strict : Bool} {fm : FrontMatter}
    (h : (parse text strict).Returns (fm, body)) :
    ∃ fields, (∀ f ∈ fields, IsLoaded f.2) ∧ ofFields fields = .ok fm := by
  unfold parse at h
  split at h
  · rename_i r hstrict
    cases Logged.returns_pure h
    exact fields_of_parseStrict hstrict
  · cases strict with
    | true => exact (Logged.not_returns_throw h).elim
    | false =>
        obtain ⟨-, -, h⟩ := Logged.returns_bind h
        cases Logged.returns_pure h
        exact ⟨[], fun f hf ↦ (List.not_mem_nil hf).elim, rfl⟩
  · exact (Logged.not_returns_throw h).elim

/-- Documents can be ordered by the front matter that is read of them. -/
theorem isOrdered_of_parse {text body : String} {strict : Bool} {fm : FrontMatter}
    (h : (parse text strict).Returns (fm, body)) : fm.IsOrdered := by
  obtain ⟨fields, hloaded, hfields⟩ := fields_of_parse h
  exact isOrdered_of_ofFields (fun f hf ↦ isTimeless_of_isLoaded (hloaded f hf)) hfields

section Readers

theorem readTitle_eq_ok_none_iff {place : String} {v : Value} :
    readTitle place v = .ok none ↔ v = .null := by
  unfold readTitle
  split
  · simp
  · simp
  · simp
  · rename_i hnull _ _
    refine ⟨fun h ↦ ?_, fun h ↦ (hnull h).elim⟩
    cases hstring : Checked.string place v with
    | ok s =>
        rw [hstring] at h
        cases h
    | error faults =>
        rw [hstring] at h
        cases h

theorem readDate_eq_ok_none_iff {v : Value} : readDate v = .ok (.ok none) ↔ v = .null := by
  unfold readDate
  split
  · simp
  · simp
  · simp
  · split <;> simp
  · rename_i hnull _ _ _
    simpa using hnull

theorem readTags_eq_ok_none_iff {v : Value} : readTags v = .ok none ↔ v = .null := by
  unfold readTags
  split
  · simp
  · simp
  · simp
  · rename_i hnull _ _
    simpa using hnull

theorem readTitle_str (place s : String) : readTitle place (.str s) = .ok (some s) :=
  rfl

theorem readDate_str {s : String} {m : Moment} (h : Iso.readInstant s = .ok m) :
    readDate (.str s) = .ok (.ok (some s)) := by
  rw [readDate, h]

theorem map_display_str (tags : List String) : (tags.map Value.str).map Value.display = tags := by
  rw [List.map_map]
  exact List.map_id _

theorem readTags_tagsValue (tags : List String) : readTags (tagsValue tags) = .ok (some tags) := by
  rw [tagsValue, readTags, map_display_str]

end Readers

section Declared

/-- The value of a declared field in normal form, if the field is set. -/
def declaredValue (fm : FrontMatter) : String → Option Value
  | "title" => fm.title.map .str
  | "description" => fm.description.map .str
  | "date" => fm.date.map .str
  | "tags" => fm.tags.map tagsValue
  | _ => none

/-- The declared fields that are set, in their order. -/
def declaredFields (fm : FrontMatter) : Fields :=
  declared.filterMap fun name ↦ (fm.declaredValue name).map (name, ·)

theorem fieldOfOption_eq_toList (name : String) (v : Option Value) :
    fieldOfOption name v = (v.map (name, ·)).toList := by
  cases v <;> rfl

theorem toFields_eq (fm : FrontMatter) : fm.toFields = fm.declaredFields ++ fm.extra := by
  simp only [toFields, declaredFields, declared, declaredValue, fieldOfOption_eq_toList,
    List.filterMap_cons, List.filterMap_nil]
  rcases fm with ⟨_ | title, _ | description, _ | date, _ | tags, extra⟩ <;> rfl

/-- A field whose value is looked up among names is found where it is one of them. -/
theorem get?_filterMap (names : List String) (f : String → Option Value) (name : String) :
    Fields.get? (names.filterMap fun n ↦ (f n).map (n, ·)) name =
      if name ∈ names then f name else none := by
  induction names with
  | nil => rfl
  | cons n rest ih =>
      rw [List.filterMap_cons]
      by_cases hname : name = n
      · subst hname
        cases hf : f name with
        | none => simp [ih, hf]
        | some v => simp [Fields.get?_cons]
      · cases hf : f n with
        | none => simp [ih, hname]
        | some v => simp [Fields.get?_cons, ih, hname]

theorem get?_eq_none_of_not_declared {fields : Fields}
    (h : ∀ f ∈ fields, declared.contains f.1 = false) {name : String} (hname : name ∈ declared) :
    fields.get? name = none := by
  cases hget : fields.get? name with
  | none => rfl
  | some v =>
      have hnot := h _ (Fields.mem_of_get? hget)
      rw [List.contains_iff_mem.mpr hname] at hnot
      cases hnot

theorem get?_toFields {fm : FrontMatter} (h : ∀ f ∈ fm.extra, declared.contains f.1 = false)
    {name : String} (hname : name ∈ declared) : fm.toFields.get? name = fm.declaredValue name := by
  rw [toFields_eq, Fields.get?, List.lookup_append]
  change (fm.declaredFields.get? name).or (fm.extra.get? name) = _
  rw [get?_eq_none_of_not_declared h hname, declaredFields, get?_filterMap, if_pos hname,
    Option.or_none]

theorem contains_of_mem_declaredFields {fm : FrontMatter} {f : String × Value}
    (h : f ∈ fm.declaredFields) : declared.contains f.1 = true := by
  obtain ⟨name, hname, hvalue⟩ := List.mem_filterMap.mp h
  obtain ⟨v, -, rfl⟩ := Option.map_eq_some_iff.mp hvalue
  exact List.contains_iff_mem.mpr hname

theorem filter_toFields {fm : FrontMatter} (h : ∀ f ∈ fm.extra, declared.contains f.1 = false) :
    (fm.toFields.filter fun f ↦ !declared.contains f.1) = fm.extra := by
  have hdeclared : (fm.declaredFields.filter fun f ↦ !declared.contains f.1) = [] := by
    refine List.filter_eq_nil_iff.mpr fun f hf ↦ ?_
    rw [contains_of_mem_declaredFields hf]
    exact Bool.false_ne_true
  have hextra : (fm.extra.filter fun f ↦ !declared.contains f.1) = fm.extra :=
    List.filter_eq_self.mpr fun f hf ↦ by rw [h f hf]; rfl
  rw [toFields_eq, List.filter_append, hdeclared, hextra, List.nil_append]

end Declared

section Validation

/-- What validated front matter says of the fields that it is read of. -/
theorem ofFields_eq_ok_iff {fields : Fields} {fm : FrontMatter} :
    ofFields fields = .ok fm ↔
      Checked.field fields "title" (.ok none) (readTitle "title") = .ok fm.title ∧
      Checked.field fields "description" (.ok none) (readTitle "description") =
        .ok fm.description ∧
      Checked.field fields "date" (.ok (.ok none)) readDate = .ok (.ok fm.date) ∧
      Checked.field fields "tags" (.ok none) readTags = .ok fm.tags ∧
      fm.extra = fields.filter fun f ↦ !declared.contains f.1 := by
  unfold ofFields
  rw [bind_eq_ok]
  refine ⟨?_, ?_⟩
  · rintro ⟨date, hdate, h⟩
    dsimp only at h
    split at h
    · rename_i htitle hdescription htags
      cases h
      exact ⟨htitle, hdescription, hdate, htags, rfl⟩
    · cases h
  · rintro ⟨htitle, hdescription, hdate, htags, hextra⟩
    refine ⟨_, hdate, ?_⟩
    dsimp only
    rw [htitle, hdescription, htags, ← hextra]

/-- A field that is read to an option is set exactly when its value is given and not null. -/
theorem isSome_iff_of_field {α β : Type} {wrap : Option α → β} (hinj : wrap.Injective)
    {fields : Fields} {name : String} {read : Value → β} {x : Option α}
    (hnull : ∀ v, read v = wrap none ↔ v = .null)
    (h : Checked.field fields name (wrap none) read = wrap x) :
    x.isSome = true ↔ ∃ v, fields.get? name = some v ∧ v ≠ .null := by
  unfold Checked.field at h
  cases hget : fields.get? name with
  | none =>
      rw [hget] at h
      cases hinj h
      simp
  | some v =>
      rw [hget] at h
      have hnone : x = none ↔ v = .null := by
        rw [← hnull v]
        exact ⟨fun hx ↦ by rw [← hx]; exact h, fun hread ↦ hinj (h.symm.trans hread)⟩
      rw [← Option.not_isNone, Bool.not_eq_true', ← Bool.not_eq_true, Option.isNone_iff_eq_none]
      simp [hnone]

theorem isSome_declaredValue_iff {fields : Fields} {fm : FrontMatter}
    (h : ofFields fields = .ok fm) {name : String} (hname : name ∈ declared) :
    (fm.declaredValue name).isSome = true ↔ ∃ v, fields.get? name = some v ∧ v ≠ .null := by
  obtain ⟨htitle, hdescription, hdate, htags, -⟩ := ofFields_eq_ok_iff.mp h
  have hok {α : Type} : (Except.ok : Option α → Checked (Option α)).Injective :=
    fun _ _ ↦ Except.ok.inj
  have hdated : (fun x ↦ .ok (.ok x) :
      Option String → Except Failure (Checked (Option String))).Injective :=
    fun _ _ h ↦ Except.ok.inj (Except.ok.inj h)
  simp only [declared, List.mem_cons, List.not_mem_nil, or_false] at hname
  rcases hname with rfl | rfl | rfl | rfl
  · rw [declaredValue, Option.isSome_map]
    exact isSome_iff_of_field hok (fun _ ↦ readTitle_eq_ok_none_iff) htitle
  · rw [declaredValue, Option.isSome_map]
    exact isSome_iff_of_field hok (fun _ ↦ readTitle_eq_ok_none_iff) hdescription
  · rw [declaredValue, Option.isSome_map]
    exact isSome_iff_of_field hdated (fun _ ↦ readDate_eq_ok_none_iff) hdate
  · rw [declaredValue, Option.isSome_map]
    exact isSome_iff_of_field hok (fun _ ↦ readTags_eq_ok_none_iff) htags

theorem not_declared_of_mem_extra {fields : Fields} {fm : FrontMatter}
    (h : ofFields fields = .ok fm) {f : String × Value} (hf : f ∈ fm.extra) :
    declared.contains f.1 = false := by
  obtain ⟨-, -, -, -, hextra⟩ := ofFields_eq_ok_iff.mp h
  rw [hextra] at hf
  exact Bool.not_eq_true' _ |>.mp (List.mem_filter.mp hf).2

/-- What is read of a field that holds an option in normal form. -/
theorem field_of_get? {α β : Type} {write : α → Value} {x : Option α} {fields : Fields}
    {name : String} {absent r : β} {read : Value → β} (hget : fields.get? name = x.map write)
    (hnone : x = none → absent = r) (hsome : ∀ a, x = some a → read (write a) = r) :
    Checked.field fields name absent read = r := by
  rw [Checked.field, hget]
  cases x with
  | none => exact hnone rfl
  | some a => exact hsome a rfl

/-- The fields of validated front matter are valid, and what is read of them is the same. -/
theorem ofFields_toFields {fields : Fields} {fm : FrontMatter}
    (htimeless : ∀ f ∈ fields, IsTimeless f.2) (h : ofFields fields = .ok fm) :
    ofFields fm.toFields = .ok fm := by
  have hextra : ∀ f ∈ fm.extra, declared.contains f.1 = false :=
    fun _ ↦ not_declared_of_mem_extra h
  have htitle : fm.toFields.get? "title" = fm.title.map .str :=
    get?_toFields hextra (by decide)
  have hdescription : fm.toFields.get? "description" = fm.description.map .str :=
    get?_toFields hextra (by decide)
  have hdate : fm.toFields.get? "date" = fm.date.map .str :=
    get?_toFields hextra (by decide)
  have htags : fm.toFields.get? "tags" = fm.tags.map tagsValue :=
    get?_toFields hextra (by decide)
  refine ofFields_eq_ok_iff.mpr ⟨?_, ?_, ?_, ?_, (filter_toFields hextra).symm⟩
  · exact field_of_get? htitle (fun hx ↦ by rw [hx]) fun s hs ↦ by rw [readTitle_str, hs]
  · exact field_of_get? hdescription (fun hx ↦ by rw [hx]) fun s hs ↦ by rw [readTitle_str, hs]
  · refine field_of_get? hdate (fun hx ↦ by rw [hx]) fun s hs ↦ ?_
    obtain ⟨m, hread⟩ := readInstant_of_ofFields htimeless h hs
    rw [readDate_str hread, hs]
  · exact field_of_get? htags (fun hx ↦ by rw [hx]) fun tags hs ↦ by rw [readTags_tagsValue, hs]

end Validation

section Normalization

theorem readInstant_empty_ne_ok (m : Moment) : Iso.readInstant "" ≠ .ok m := by
  intro h
  have hnone : (Iso.readInstant "").toOption = none := by decide +kernel
  rw [h] at hnone
  cases hnone

/-- Front matter has an instant to be ordered by exactly when its date is set. -/
theorem exists_sortKey {fm : FrontMatter}
    (h : ∀ s, fm.date = some s → ∃ m, Iso.readInstant s = .ok m) :
    ∃ key, fm.sortKey = .ok key ∧ key.isSome = fm.date.isSome := by
  unfold sortKey
  cases hdate : fm.date with
  | none => exact ⟨none, rfl, rfl⟩
  | some s =>
      obtain ⟨m, hread⟩ := h s hdate
      dsimp only
      split
      · rename_i hempty
        rw [String.isEmpty_iff.mp hempty] at hread
        exact (readInstant_empty_ne_ok m hread).elim
      · rw [hread]
        exact ⟨some m, rfl, rfl⟩

/-- Validation brings front matter into a normal form. No value of the input is a date or a moment
of its own, as none is of a mapping of JSON. Then the fields of what is read of it are valid and say
the same, they are the declared ones that are set, which are those that the input gives a value, in
front of the further fields of the input, and documents can be ordered by it. -/
theorem ofFields_normalizes {fields : Fields} {fm : FrontMatter}
    (htimeless : ∀ f ∈ fields, IsTimeless f.2) (h : ofFields fields = .ok fm) :
    ofFields fm.toFields = .ok fm ∧
    fm.toFields = (declared.filterMap fun name ↦ (fm.declaredValue name).map (name, ·)) ++
      fields.filter (fun f ↦ !declared.contains f.1) ∧
    (∀ name ∈ declared, (fm.declaredValue name).isSome = true ↔
      ∃ v, fields.get? name = some v ∧ v ≠ .null) ∧
    ∃ key, fm.sortKey = .ok key ∧ key.isSome = fm.date.isSome := by
  refine ⟨ofFields_toFields htimeless h, ?_, fun name ↦ isSome_declaredValue_iff h,
    exists_sortKey fun s ↦ readInstant_of_ofFields htimeless h⟩
  obtain ⟨-, -, -, -, hextra⟩ := ofFields_eq_ok_iff.mp h
  rw [toFields_eq, hextra]
  rfl

/-- Fields that are all written otherwise than in normal form, one of them undeclared. -/
def unsortedDraft : Fields :=
  [("draft", .bool true), ("tags", .str "news, ,python"), ("description", .null),
    ("date", .str "2024-06-01T00:30+02:00"), ("title", .int 2024)]

theorem ofFields_normalizes_unsortedDraft : ∃ fm, ofFields unsortedDraft = .ok fm ∧
    fm.toFields = [("title", .str "2024"), ("date", .str "2024-06-01T00:30+02:00"),
      ("tags", .arr [.str "news", .str "python"]), ("draft", .bool true)] ∧
    ofFields fm.toFields = .ok fm ∧ ∃ key, fm.sortKey = .ok (some key) := by
  have hdeclared : (ofFields unsortedDraft).toOption.map
      (fun fm ↦ (fm.title, fm.description, fm.date, fm.tags)) =
        some (some "2024", none, some "2024-06-01T00:30+02:00", some ["news", "python"]) := by
    decide +kernel
  obtain ⟨fm, h, hfm⟩ := exists_ok_of_map hdeclared
  simp only [Prod.mk.injEq] at hfm
  obtain ⟨htitle, hdescription, hdate, htags⟩ := hfm
  have htimeless : ∀ f ∈ unsortedDraft, IsTimeless f.2 := by
    simp [unsortedDraft, IsTimeless]
  obtain ⟨hstable, hfields, -, key, hkey, hdated⟩ := ofFields_normalizes htimeless h
  refine ⟨fm, h, ?_, hstable, ?_⟩
  · rw [hfields]
    simp [declared, declaredValue, htitle, hdescription, hdate, htags, tagsValue, unsortedDraft]
  · rw [hdate] at hdated
    obtain ⟨m, rfl⟩ := Option.isSome_iff_exists.mp hdated
    exact ⟨m, hkey⟩

end Normalization

end SafeMarkdown.FrontMatter
