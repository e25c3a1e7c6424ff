import SafeMarkdown.Command.Run
import SafeMarkdown.Proofs.Command.Running
import SafeMarkdown.Proofs.Site.Accounts
import SafeMarkdown.Proofs.Site.SlugNames
import SafeMarkdown.Proofs.Text.Bytes
import SafeMarkdown.Text.Bytes

/-!
# What a build leaves behind

A build puts the documents that it loaded below the output folder, each under the names of its slug,
and then the index under its own name. Slugs are distinct, so no document takes the place of another
one; but the index takes the place of the document whose slug is its name. Files are told apart by
their bytes, and so are the texts in them.
-/

namespace SafeMarkdown

namespace Site

variable {d : Disk} {root : Path} {config : PipelineConfig} {options : Options} {b : Batch}

theorem dialect_of_returns_make {p : Pipeline} (h : (Pipeline.make config).Returns p) :
    (Markdown.Dialect.ofName? config.dialect).isSome = true := by
  unfold Pipeline.make at h
  cases hdialect : Markdown.Dialect.ofName? config.dialect with
  | none =>
      rw [hdialect] at h
      exact (Logged.not_returns_throw h).elim
  | some dialect => rfl

theorem exists_belongsTo {jobs : List Job} {entries : List Entry} {entry : Entry}
    (h : List.Forall₂ Entry.BelongsTo jobs entries) (hentry : entry ∈ entries) :
    ∃ job ∈ jobs, entry.BelongsTo job := by
  induction h with
  | nil => cases hentry
  | cons hfirst _ ih =>
      rcases List.mem_cons.mp hentry with rfl | hentry
      · exact ⟨_, List.mem_cons_self, hfirst⟩
      · obtain ⟨job, hjob, hbelongs⟩ := ih hentry
        exact ⟨job, List.mem_cons_of_mem _ hjob, hbelongs⟩

/-- Each document has the slug of a job. -/
theorem Accounts.exists_job {run : Job → Except Failure RenderedDocument} {jobs : List Job}
    (h : Accounts run jobs b) {doc : RenderedDocument} (hdoc : doc ∈ b.documents) :
    ∃ job ∈ jobs, doc.slug = job.slug := by
  have hresult : Sum.inl doc ∈ (entriesAfter run [] jobs).map Entry.result :=
    h.complete.mem_iff.mpr (List.mem_append_left _ (List.mem_map_of_mem hdoc))
  obtain ⟨entry, hentry, hinl⟩ := List.mem_map.mp hresult
  cases entry with
  | repeated f => cases hinl
  | failed f => cases hinl
  | document found =>
      cases hinl
      exact exists_belongsTo h.belongs hentry

/-- A batch that was loaded accounts for the documents that were found. -/
theorem exists_accounts (h : (loadAll d root config options).Returns b) :
    ∃ found p, discover d root options.extensions options.recursive = .ok found ∧
      Accounts (performed d p options.strict) (found.map (jobOf root)) b := by
  obtain ⟨found, hfound, h⟩ := Logged.returns_bind h
  obtain ⟨_, -, h⟩ := Logged.returns_bind h
  obtain ⟨p, hmake, h⟩ := Logged.returns_bind h
  rw [performAll_eq] at h
  obtain ⟨rs, hrs, h⟩ := Logged.returns_bind h
  obtain ⟨made, hmade, hstages⟩ := Pipeline.exists_succeeds_make (dialect_of_returns_make hmake)
  obtain rfl := Logged.eq_of_returns hmake hmade
  obtain rfl := Logged.eq_of_returns hrs (succeeds_outcomes hstages _)
  obtain ⟨collected, hcollect, haccounts⟩ :=
    collect_accounts (found.map (jobOf root)) fun job doc h ↦ performed_eq_ok h
  obtain rfl := Logged.eq_of_returns h hcollect
  exact ⟨found, made, Logged.returns_ofExcept hfound, haccounts⟩

/-- The documents that are loaded have slugs that are distinct and consist of segments. -/
theorem slugs_of_returns (h : (loadAll d root config options).Returns b) :
    (b.documents.map RenderedDocument.slug).Nodup ∧ ∀ doc ∈ b.documents, IsSlug doc.slug := by
  obtain ⟨found, p, hdiscover, haccounts⟩ := exists_accounts h
  refine ⟨haccounts.distinct, fun doc hdoc ↦ ?_⟩
  obtain ⟨job, hjob, hslug⟩ := haccounts.exists_job hdoc
  obtain ⟨names, hnames, rfl⟩ := List.mem_map.mp hjob
  rw [hslug]
  exact isSlug_slugOfNames (ne_nil_of_discover hdiscover hnames)

theorem writeDocument_eq {output : Path} {doc : RenderedDocument} (h : IsSlug doc.slug) :
    writeDocument output d doc =
      placeFile d (below output (namesOfSlug doc.slug)) doc.storedText := by
  rw [← h.documentPath_eq]
  rfl

theorem writeIndex_eq (output : Path) (d : Disk) (b : Batch) :
    writeIndex output d b = placeFile d (below output (namesOfSlug "index")) (indexText b) := by
  rw [placeFile, parent_below isSlug_index.leadsToFile.ne_nil, ← indexPath_eq]
  rw [show below output (namesOfSlug "index").dropLast = output by
    rw [below, show (namesOfSlug "index").dropLast = [] from rfl, List.append_nil]]
  rfl

/-- The files of a site, by the names that lead to them from the output folder, in the order in
which they are written. -/
def siteFiles (b : Batch) : List (List String × String) :=
  b.documents.map (fun doc ↦ (namesOfSlug doc.slug, doc.storedText)) ++
    [(namesOfSlug "index", indexText b)]

/-- The indented text of an object with several fields starts with the name of the first one. -/
theorem exists_indented_obj_eq (f : DoubleFormat) (onlyFinite : Bool) (name : String) (v : Value)
    (g : String × Value) (fields : Fields) : ∃ rest,
      Json.indented f onlyFinite 0 (.obj ((name, v) :: g :: fields)) =
        '\x7b' :: Json.lineBreak 1 ++ (Json.stringText name ++ rest) := by
  rw [Json.indented, Json.indentedFields]
  · exact ⟨_, by simp only [List.append_assoc, List.cons_append]; rfl⟩
  · exact nofun
  · exact nofun

/-- A stored document is no index: its first field has another name. -/
theorem storedText_ne_indexText (doc : RenderedDocument) (b : Batch) :
    doc.storedText ≠ indexText b := by
  intro heq
  obtain ⟨rest, hstored⟩ := exists_indented_obj_eq Json.storedDoubles true "slug" (.str doc.slug)
    ("front_matter", doc.frontMatter.stored) [("payload", doc.payload.stored)]
  obtain ⟨rest', hindex⟩ := exists_indented_obj_eq .json false "documents"
    (.arr (b.documents.map documentEntry)) ("errors", .arr (b.faults.map faultEntry)) []
  have hchars := congrArg String.toList heq
  rw [RenderedDocument.storedText, indexText, Json.storedText, Json.readableText,
    String.toList_ofList, String.toList_ofList, hstored, hindex] at hchars
  have hname : some 's' = some 'd' := congrArg (fun cs ↦ (cs.drop 5).head?) hchars
  cases hname

section Kept

variable {d' : Disk} {output : Path}

theorem leadsToFile_of_mem_siteFiles (hslugs : ∀ doc ∈ b.documents, IsSlug doc.slug) :
    ∀ e ∈ siteFiles b, LeadsToFile e.1 := by
  unfold siteFiles
  rw [List.forall_mem_append, List.forall_mem_map, List.forall_mem_singleton]
  exact ⟨fun doc hdoc ↦ (hslugs doc hdoc).leadsToFile, isSlug_index.leadsToFile⟩

theorem index_of_placeAll (h : placeAll output d (siteFiles b) = .ok d')
    (hslugs : ∀ doc ∈ b.documents, IsSlug doc.slug) :
    d'.readBytes (indexPath output) = .ok (indexText b).toUTF8.toList := by
  rw [indexPath_eq]
  exact readBytes_of_placeAll h (leadsToFile_of_mem_siteFiles hslugs) List.not_mem_nil

/-- A document keeps its file exactly if it does not go by the name of the index. -/
theorem document_of_placeAll_iff (h : placeAll output d (siteFiles b) = .ok d')
    (hnodup : (b.documents.map RenderedDocument.slug).Nodup)
    (hslugs : ∀ doc ∈ b.documents, IsSlug doc.slug) {doc : RenderedDocument}
    (hdoc : doc ∈ b.documents) :
    d'.readBytes (documentPath output doc.slug) = .ok doc.storedText.toUTF8.toList ↔
      doc.slug ≠ "index" := by
  have hslug := hslugs doc hdoc
  constructor
  · intro hread hindex
    have hother := index_of_placeAll h hslugs
    rw [hslug.documentPath_eq, hindex, ← indexPath_eq, hother, Except.ok.injEq,
      Text.toUTF8_toList_inj] at hread
    exact storedText_ne_indexText doc b hread.symm
  · intro hne
    obtain ⟨before, after, hsplit⟩ := List.append_of_mem hdoc
    have hentries := leadsToFile_of_mem_siteFiles hslugs
    unfold siteFiles at h hentries
    rw [hsplit, List.map_append, List.map_cons, List.append_assoc, List.cons_append] at h hentries
    rw [hslug.documentPath_eq]
    refine readBytes_of_placeAll h hentries fun hmem ↦ ?_
    -- the files behind it are those of other slugs
    rw [List.map_append, List.mem_append, List.map_map, List.map_singleton, List.mem_singleton]
      at hmem
    rcases hmem with hmem | hmem
    · obtain ⟨later, hlater, hnames⟩ := List.mem_map.mp hmem
      have hslug' := hslugs later (by
        rw [hsplit]
        exact List.mem_append_right _ (List.mem_cons_of_mem _ hlater))
      have heq := hslug'.namesOfSlug_injective hslug hnames
      rw [hsplit, List.map_append, List.map_cons] at hnodup
      have hfresh := (List.nodup_cons.mp (List.nodup_append.mp hnodup).2.1).1
      exact hfresh (heq ▸ List.mem_map_of_mem hlater)
    · exact hne (hslug.namesOfSlug_injective isSlug_index hmem)

end Kept

end Site

namespace Command

open Running

section Steps

variable {s after : Session}

theorem settingsWith_eq_ok {environment : List (String × String)} {given : List (String × Value)}
    {settings : Settings} (h : (settingsWith environment given).run.run s = (.ok settings, after)) :
    Settings.load s.disk environment given = .ok settings ∧ after = s := by
  rw [settingsWith, run_bind, run_get] at h
  dsimp only at h
  cases hload : Settings.load s.disk environment given with
  | ok loaded =>
      rw [hload] at h
      cases h
      exact ⟨rfl, rfl⟩
  | error e =>
      rw [hload] at h
      dsimp only at h
      split at h <;> cases h

theorem tellsErrors_settingsWith (environment : List (String × String))
    (given : List (String × Value)) : TellsErrors (settingsWith environment given) := by
  intro s n after h
  rw [settingsWith, run_bind, run_get] at h
  dsimp only at h
  cases hload : Settings.load s.disk environment given with
  | ok loaded =>
      rw [hload] at h
      cases h
  | error e =>
      rw [hload] at h
      dsimp only at h
      split at h
      · cases h
        refine ⟨"Error: " ++ e.message, ?_, startsWith_append _ _⟩
        exact List.mem_append_right _ (List.mem_singleton_self _)
      · cases h

/-- What a build loads. -/
def loading (d : Disk) (s : Settings) (root : Option String) : Logged Site.Batch := do
  Site.loadAll d (Path.ofText (rootIn s root)) (← s.pipelineConfig)
    ⟨s.extensions, s.recursive, s.strict⟩

theorem loadSite_eq (settings : Settings) (root : Option String) :
    loadSite settings root = (get >>= fun session ↦ demand toldOfSite
      ("Could not load " ++ rootIn settings root) (loading session.disk settings root)) :=
  rfl

theorem loadSite_eq_ok {settings : Settings} {root : Option String} {b : Site.Batch}
    (h : (loadSite settings root).run.run s = (.ok b, after)) :
    (loading s.disk settings root).outcome.1 = .ok b ∧ after.disk = s.disk := by
  rw [loadSite_eq, run_bind, run_get] at h
  obtain ⟨hb, rfl⟩ := demand_eq_ok h
  exact ⟨hb, rfl⟩

theorem tellsErrors_loadSite (settings : Settings) (root : Option String) :
    TellsErrors (loadSite settings root) := by
  rw [loadSite_eq]
  exact tellsErrors_get.bind fun session ↦ tellsErrors_demand _ _ _

theorem written_eq_ok {r : Except Failure Disk} (h : (written r).run.run s = (.ok (), after)) :
    r = .ok after.disk := by
  rw [written, run_bind] at h
  split at h
  · rename_i d mid hdemand
    obtain ⟨hr, rfl⟩ := demand_eq_ok hdemand
    cases h
    exact Logged.returns_ofExcept (Logged.returns_of_outcome hr)
  · cases h

theorem tellsErrors_written (r : Except Failure Disk) : TellsErrors (written r) :=
  (tellsErrors_demand _ _ _).bind fun _ ↦ tellsErrors_modify _

theorem tellsErrors_say (line : String) : TellsErrors (say line) :=
  tellsErrors_modify _

theorem tellsErrors_tellFaults (faults : List Site.Fault) : TellsErrors (tellFaults faults) := by
  induction faults with
  | nil => exact tellsErrors_pure ()
  | cons f rest ih => exact (tellsErrors_modify _).bind fun _ ↦ ih

theorem tellsErrors_writeDocuments (output : Path) (docs : List RenderedDocument) :
    TellsErrors (writeDocuments output docs) := by
  induction docs with
  | nil => exact tellsErrors_pure ()
  | cons doc rest ih =>
      exact tellsErrors_get.bind fun _ ↦ (tellsErrors_written _).bind fun _ ↦
        (tellsErrors_say _).bind fun _ ↦ ih

theorem disk_tellFaults {faults : List Site.Fault} {r : Except Stop Unit}
    (h : (tellFaults faults).run.run s = (r, after)) : after.disk = s.disk := by
  induction faults generalizing s with
  | nil =>
      cases h
      rfl
  | cons f rest ih =>
      rw [tellFaults, run_bind, run_complain] at h
      dsimp only at h
      have hrest := ih h
      exact hrest

theorem disk_checkLoaded {b : Site.Batch} {r : Except Stop Unit}
    (h : (checkLoaded b).run.run s = (r, after)) : after.disk = s.disk := by
  unfold checkLoaded at h
  split at h <;> cases h <;> rfl

theorem writeDocuments_eq_ok {output : Path} {docs : List RenderedDocument}
    (hdocs : ∀ doc ∈ docs, Site.IsSlug doc.slug)
    (h : (writeDocuments output docs).run.run s = (.ok (), after)) :
    Site.placeAll output s.disk (docs.map fun doc ↦ (Site.namesOfSlug doc.slug, doc.storedText)) =
      .ok after.disk := by
  induction docs generalizing s with
  | nil =>
      cases h
      rfl
  | cons doc rest ih =>
      rw [List.forall_mem_cons] at hdocs
      rw [writeDocuments, run_bind, run_get] at h
      dsimp only at h
      rw [run_bind] at h
      split at h
      · rename_i mid hwritten
        have hplaced := written_eq_ok hwritten
        rw [Site.writeDocument_eq hdocs.1] at hplaced
        rw [run_bind, run_say] at h
        dsimp only at h
        have hrest := ih hdocs.2 h
        exact bind_eq_ok.mpr ⟨mid.disk, hplaced, hrest⟩
      · cases h

theorem publish_eq_placeAll {output : Path} {b : Site.Batch} {r : Except Stop Unit}
    (hdocs : ∀ doc ∈ b.documents, Site.IsSlug doc.slug)
    (h : (publish output b).run.run s = (r, after)) (hend : RanToEnd r after) :
    Site.placeAll output s.disk (Site.siteFiles b) = .ok after.disk := by
  obtain ⟨⟨⟩, written, hwritten, h⟩ := hend.of_bind (tellsErrors_writeDocuments _ _) h
  obtain ⟨_, _, hget, h⟩ := hend.of_bind tellsErrors_get h
  cases hget
  obtain ⟨⟨⟩, indexed, hindexed, h⟩ := hend.of_bind (tellsErrors_written _) h
  obtain ⟨⟨⟩, told, htold, h⟩ := hend.of_bind (tellsErrors_tellFaults _) h
  obtain ⟨⟨⟩, said, hsaid, h⟩ := hend.of_bind (tellsErrors_say _) h
  cases hsaid
  have hdocuments := writeDocuments_eq_ok hdocs hwritten
  have hindex := written_eq_ok hindexed
  rw [Site.writeIndex_eq] at hindex
  rw [disk_checkLoaded h, disk_tellFaults htold]
  exact Site.placeAll_append.mpr ⟨_, hdocuments, bind_eq_ok.mpr ⟨_, hindex, rfl⟩⟩

end Steps

section Build

variable {environment : List (String × String)} {root out : Option String} {recursive : Bool}
  {disk : Disk} {r : Except Stop Unit} {after : Session}

/-- A build that runs to its end has put the files of the site that it loaded below the output
folder. -/
theorem build_eq_placeAll
    (h : (build environment root out recursive).run.run { disk } = (r, after))
    (hend : RanToEnd r after) :
    ∃ s b, Settings.load disk environment
        [("output_dir", givenText out), ("recursive", givenSwitch recursive)] = .ok s ∧
      (loading disk s root).outcome.1 = .ok b ∧ (b.documents.map RenderedDocument.slug).Nodup ∧
      (∀ doc ∈ b.documents, Site.IsSlug doc.slug) ∧
      Site.placeAll (Path.ofText s.outputFolder) disk (Site.siteFiles b) = .ok after.disk := by
  obtain ⟨s, _, hsettings, h⟩ := hend.of_bind (tellsErrors_settingsWith _ _) h
  obtain ⟨hload, rfl⟩ := settingsWith_eq_ok hsettings
  obtain ⟨b, loaded, hloaded, h⟩ := hend.of_bind (tellsErrors_loadSite _ _) h
  obtain ⟨hb, hdisk⟩ := loadSite_eq_ok hloaded
  obtain ⟨config, -, hall⟩ := Logged.returns_bind (Logged.returns_of_outcome hb)
  obtain ⟨hnodup, hslugs⟩ := Site.slugs_of_returns hall
  have hplaced := publish_eq_placeAll hslugs h hend
  rw [hdisk] at hplaced
  exact ⟨s, b, hload, hb, hnodup, hslugs, hplaced⟩

/-- A build that runs to its end leaves the file of every document but that of the name of the
index, and the index, and changes nothing but files below the output folder. -/
theorem build_keeps (h : (build environment root out recursive).run.run { disk } = (r, after))
    (hend : RanToEnd r after) :
    ∃ s b, Settings.load disk environment
        [("output_dir", givenText out), ("recursive", givenSwitch recursive)] = .ok s ∧
      (loading disk s root).outcome.1 = .ok b ∧
      (∀ doc ∈ b.documents,
        after.disk.readBytes (Site.documentPath (Path.ofText s.outputFolder) doc.slug) =
          .ok doc.storedText.toUTF8.toList ↔ doc.slug ≠ "index") ∧
      after.disk.readBytes (Site.indexPath (Path.ofText s.outputFolder)) =
        .ok (Site.indexText b).toUTF8.toList ∧
      ∃ place, after.disk.locate (Path.ofText s.outputFolder) = .ok place ∧
        ∀ l, after.disk.file? l ≠ disk.file? l → place <+: l := by
  obtain ⟨s, b, hload, hb, hnodup, hslugs, hplaced⟩ := build_eq_placeAll h hend
  have hfiles := Site.leadsToFile_of_mem_siteFiles hslugs
  have hne : Site.siteFiles b ≠ [] := List.append_ne_nil_of_right_ne_nil _ (List.cons_ne_nil _ _)
  obtain ⟨place, hplace⟩ := Site.exists_locate_of_placeAll hplaced hfiles hne
  exact ⟨s, b, hload, hb, fun doc hdoc ↦ Site.document_of_placeAll_iff hplaced hnodup hslugs hdoc,
    Site.index_of_placeAll hplaced hslugs, place, hplace,
    Site.prefix_of_placeAll hplaced hfiles hplace⟩

end Build

/-- A site of one document. -/
def siteOf (name : String) : Disk where
  files := [(["content", name], "Hi".toUTF8.toList)]
  folders := [["content"]]

/-- The settings of a build that is given none, and what it loads. -/
def plainLoad (d : Disk) : Except Failure (Settings × Site.Batch) := do
  let s ← Settings.load d [] [("output_dir", givenText none), ("recursive", givenSwitch false)]
  return (s, ← (loading d s none).outcome.1)

theorem ranToEnd_of_isOk {r : Except Stop Unit} (h : r.isOk = true) (after : Session) :
    RanToEnd r after := by
  rintro stop rfl
  cases h

theorem build_keeps_about : ∃ r after s b,
    (build [] none none false).run.run { disk := siteOf "About Us.md" } = (r, after) ∧
      RanToEnd r after ∧ plainLoad (siteOf "About Us.md") = .ok (s, b) ∧
      b.documents.map RenderedDocument.slug = ["about-us"] ∧
      ∀ doc ∈ b.documents,
        after.disk.readBytes (Site.documentPath (Path.ofText s.outputFolder) doc.slug) =
          .ok doc.storedText.toUTF8.toList := by
  have hresult : ((build [] none none false).run.run
      { disk := siteOf "About Us.md" }).1.isOk = true := by decide +kernel
  have hslugs : (plainLoad (siteOf "About Us.md")).toOption.map
      (fun r ↦ r.2.documents.map RenderedDocument.slug) = some ["about-us"] := by decide +kernel
  cases hrun : (build [] none none false).run.run { disk := siteOf "About Us.md" } with
  | mk r after =>
      rw [hrun] at hresult
      have hend := ranToEnd_of_isOk hresult after
      obtain ⟨s, b, hs, hb, hkept, -⟩ := build_keeps hrun hend
      have hload : plainLoad (siteOf "About Us.md") = .ok (s, b) :=
        bind_eq_ok.mpr ⟨s, hs, bind_eq_ok.mpr ⟨b, hb, rfl⟩⟩
      rw [hload] at hslugs
      have hnames : b.documents.map RenderedDocument.slug = ["about-us"] := Option.some.inj hslugs
      refine ⟨r, after, s, b, rfl, hend, hload, hnames, fun doc hdoc ↦ (hkept doc hdoc).mpr ?_⟩
      have hslug : doc.slug ∈ ["about-us"] := hnames ▸ List.mem_map_of_mem hdoc
      rw [List.mem_singleton.mp hslug]
      decide

/-- A document that goes by the name of the index is built, and the index takes its place. -/
theorem build_loses_index : ∃ r after s b doc,
    (build [] none none false).run.run { disk := siteOf "index.md" } = (r, after) ∧
      r.isOk = true ∧ plainLoad (siteOf "index.md") = .ok (s, b) ∧ doc ∈ b.documents ∧
      after.disk.readBytes (Site.documentPath (Path.ofText s.outputFolder) doc.slug) ≠
        .ok doc.storedText.toUTF8.toList := by
  have hresult : ((build [] none none false).run.run
      { disk := siteOf "index.md" }).1.isOk = true := by decide +kernel
  have hslugs : (plainLoad (siteOf "index.md")).toOption.map
      (fun r ↦ r.2.documents.map RenderedDocument.slug) = some ["index"] := by decide +kernel
  cases hrun : (build [] none none false).run.run { disk := siteOf "index.md" } with
  | mk r after =>
      rw [hrun] at hresult
      obtain ⟨s, b, hs, hb, hnodup, hdocs, hplaced⟩ :=
        build_eq_placeAll hrun (ranToEnd_of_isOk hresult after)
      have hload : plainLoad (siteOf "index.md") = .ok (s, b) :=
        bind_eq_ok.mpr ⟨s, hs, bind_eq_ok.mpr ⟨b, hb, rfl⟩⟩
      rw [hload] at hslugs
      obtain ⟨doc, hdocuments, hslug⟩ := List.map_eq_singleton_iff.mp (Option.some.inj hslugs)
      have hdoc : doc ∈ b.documents := by
        rw [hdocuments]
        exact List.mem_singleton_self doc
      refine ⟨r, after, s, b, doc, rfl, hresult, hload, hdoc, fun hread ↦ ?_⟩
      exact (Site.document_of_placeAll_iff hplaced hnodup hdocs hdoc).mp hread hslug

end Command

end SafeMarkdown
