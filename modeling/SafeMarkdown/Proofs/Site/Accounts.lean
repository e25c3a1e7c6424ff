import Mathlib.Logic.Relation
import SafeMarkdown.Proofs.Appends
import SafeMarkdown.Proofs.FrontMatter.Normal
import SafeMarkdown.Proofs.Storage.Writing
import SafeMarkdown.Site.Load
import SafeMarkdown.Site.Lookup

/-!
# What becomes of the files of a folder

The documents under a folder are those of its files that have one of the suffixes. The names that
lead to a document from the folder are the path of the document behind the path of the folder, and
its slug is read off them.

What comes of a job does not depend on the log, and so neither on the jobs before it. Jobs may be
performed in any order, each as soon as its file has been read: what came of them is the same at the
end, and the same as when each of them is performed by itself.

Loading a folder accounts for each of its documents. A file whose slug is that of a file before it is
a fault of its own kind; any other file becomes what it becomes by itself, a document or a fault. The
batch has these documents in the order of their dates, and the faults of both kinds, one after the
other, in the order of the files. Documents whose instants are known can be ordered, and ordering
keeps each of them.
-/

namespace SafeMarkdown

theorem Pipeline.slug_of_process {p : Pipeline} {slug source : String} {strict : Bool}
    {doc : RenderedDocument} (h : (p.process slug source strict).Returns doc) :
    doc.slug = slug ∧ doc.frontMatter.IsOrdered := by
  obtain ⟨⟨frontMatter, body⟩, hparse, h⟩ := Logged.returns_bind h
  obtain ⟨payload, -, h⟩ := Logged.returns_bind h
  cases Logged.returns_pure h
  exact ⟨rfl, FrontMatter.isOrdered_of_parse hparse⟩

namespace Site

variable {d : Disk} {p : Pipeline} {strict : Bool}

/-- What comes of a job by itself. -/
def performed (d : Disk) (p : Pipeline) (strict : Bool) (job : Job) :
    Except Failure RenderedDocument :=
  (perform d p strict job).outcome.1

theorem performed_eq_ok {job : Job} {doc : RenderedDocument}
    (h : performed d p strict job = .ok doc) : doc.slug = job.slug ∧ doc.frontMatter.IsOrdered := by
  obtain ⟨text, -, hprocess⟩ := Logged.returns_bind (Logged.returns_of_outcome h)
  exact Pipeline.slug_of_process hprocess

theorem appends_perform (hp : ∀ s ∈ p.stages, s.Appends) (job : Job) :
    (perform d p strict job).Appends :=
  (Logged.appends_ofExcept _).bind fun text ↦ Pipeline.appends_process hp job.slug text strict

section AnyOrder

/-- Jobs, each with what came of it as soon as its file has been read. -/
abbrev Slots := List (Job × Option (Except Failure RenderedDocument))

/-- A file has been read, and what its job gives is entered in its slot. -/
inductive Completes (d : Disk) (p : Pipeline) (strict : Bool) :
    Slots × List LogEntry → Slots × List LogEntry → Prop
  | read (before after : Slots) (job : Job) {noted noted' : List LogEntry}
      {r : Except Failure RenderedDocument}
      (h : (perform d p strict job).run.run noted = (r, noted')) :
      Completes d p strict (before ++ (job, none) :: after, noted)
        (before ++ (job, some r) :: after, noted')

/-- Some files have been read, in some order. -/
abbrev Reads (d : Disk) (p : Pipeline) (strict : Bool) :
    Slots × List LogEntry → Slots × List LogEntry → Prop :=
  Relation.ReflTransGen (Completes d p strict)

def pending (jobs : List Job) : Slots :=
  jobs.map fun job ↦ (job, none)

def filled (rs : List (Job × Except Failure RenderedDocument)) : Slots :=
  rs.map fun r ↦ (r.1, some r.2)

/-- What stands in a slot is what its job gives by itself. -/
def Slots.AreTrue (d : Disk) (p : Pipeline) (strict : Bool) (slots : Slots) : Prop :=
  ∀ slot ∈ slots, ∀ r, slot.2 = some r → r = performed d p strict slot.1

theorem Completes.jobs_eq {s t : Slots × List LogEntry} (h : Completes d p strict s t) :
    t.1.map Prod.fst = s.1.map Prod.fst := by
  cases h with
  | read before after job h => simp only [List.map_append, List.map_cons]

theorem Completes.areTrue (hp : ∀ s ∈ p.stages, s.Appends) {s t : Slots × List LogEntry}
    (h : Completes d p strict s t) (hs : s.1.AreTrue d p strict) : t.1.AreTrue d p strict := by
  cases h with
  | @read before after job noted noted' r h =>
      intro slot hslot
      rcases List.mem_append.mp hslot with hbefore | hslot
      · exact hs slot (List.mem_append_left _ hbefore)
      · rcases List.mem_cons.mp hslot with rfl | hafter
        · -- the slot that was filled: what was noted before makes no difference to its job
          rintro _ ⟨⟩
          rw [appends_perform hp job noted] at h
          exact (congrArg Prod.fst h).symm
        · exact hs slot (List.mem_append_right _ (List.mem_cons_of_mem _ hafter))

theorem Reads.jobs_eq {s t : Slots × List LogEntry} (h : Reads d p strict s t) :
    t.1.map Prod.fst = s.1.map Prod.fst := by
  induction h with
  | refl => rfl
  | tail _ hstep ih => exact hstep.jobs_eq.trans ih

theorem Reads.areTrue (hp : ∀ s ∈ p.stages, s.Appends) {s t : Slots × List LogEntry}
    (h : Reads d p strict s t) (hs : s.1.AreTrue d p strict) : t.1.AreTrue d p strict := by
  induction h with
  | refl => exact hs
  | tail _ hstep ih => exact hstep.areTrue hp ih

/-- In whatever order the files are read, of each job comes what it gives by itself. -/
theorem eq_performed_of_reads (hp : ∀ s ∈ p.stages, s.Appends) {jobs : List Job}
    {rs : List (Job × Except Failure RenderedDocument)} {noted noted' : List LogEntry}
    (h : Reads d p strict (pending jobs, noted) (filled rs, noted')) :
    rs = jobs.map fun job ↦ (job, performed d p strict job) := by
  have hjobs : rs.map Prod.fst = jobs := by
    have hfst := Reads.jobs_eq h
    simpa only [pending, filled, List.map_map, Function.comp_def, List.map_id'] using hfst
  have htrue : (filled rs).AreTrue d p strict := by
    refine Reads.areTrue hp h ?_
    intro slot hslot r hr
    obtain ⟨job, -, rfl⟩ := List.mem_map.mp hslot
    cases hr
  rw [← hjobs, List.map_map]
  refine (List.map_id rs).symm.trans (List.map_congr_left fun r hr ↦ ?_)
  exact Prod.ext rfl (htrue (r.1, some r.2) (List.mem_map_of_mem hr) r.2 rfl)

theorem Reads.cons {s t : Slots × List LogEntry} (h : Reads d p strict s t)
    (slot : Job × Option (Except Failure RenderedDocument)) :
    Reads d p strict (slot :: s.1, s.2) (slot :: t.1, t.2) := by
  have hstep : Completes d p strict ≤
      Function.onFun (Completes d p strict) fun s : Slots × List LogEntry ↦ (slot :: s.1, s.2) := by
    intro s t hst
    cases hst with
    | read before after job h => exact .read (slot :: before) after job h
  exact Relation.ReflTransGen.lift _ hstep s t h

/-- The jobs are performed one after the other, which is one order of reading. -/
theorem reads_outcomes (d : Disk) (p : Pipeline) (strict : Bool) (jobs : List Job)
    (noted : List LogEntry) :
    ∃ rs noted', (outcomes d p strict jobs).run.run noted = (.ok rs, noted') ∧
      Reads d p strict (pending jobs, noted) (filled rs, noted') := by
  induction jobs generalizing noted with
  | nil => exact ⟨[], noted, rfl, .refl⟩
  | cons job rest ih =>
      obtain ⟨rs, noted', hrun, hreads⟩ := ih ((perform d p strict job).run.run noted).2
      refine ⟨(job, ((perform d p strict job).run.run noted).1) :: rs, noted', ?_, ?_⟩
      · rw [outcomes, Logged.run_bind, Logged.run_attempt]
        dsimp only
        rw [Logged.run_bind, hrun]
        rfl
      · exact .head (.read [] (pending rest) job rfl) (hreads.cons (job, some _))

theorem succeeds_outcomes (hp : ∀ s ∈ p.stages, s.Appends) (jobs : List Job) :
    Succeeds (outcomes d p strict jobs) (jobs.map fun job ↦ (job, performed d p strict job)) := by
  intro noted
  obtain ⟨rs, noted', hrun, hreads⟩ := reads_outcomes d p strict jobs noted
  rw [hrun, eq_performed_of_reads hp hreads]

end AnyOrder

end Site

end SafeMarkdown

namespace SafeMarkdown

namespace Disk

/-- What is found in a folder is in a file's place behind the place of the folder. -/
theorem mem_filesIn {d : Disk} {folder : Location} {deep : Bool} {names : List String} :
    names ∈ d.filesIn folder deep ↔
      names ≠ [] ∧ (deep = true ∨ names.length = 1) ∧ ∃ bytes, (folder ++ names, bytes) ∈ d.files := by
  rw [filesIn, List.mem_filterMap]
  constructor
  · rintro ⟨⟨place, bytes⟩, hfile, hnames⟩
    split at hnames
    · rename_i hprefix
      obtain ⟨rest, rfl⟩ := List.isPrefixOf_iff_prefix.mp hprefix
      rw [List.drop_left] at hnames
      split at hnames
      · cases hnames
      · cases hnames
        exact ⟨List.cons_ne_nil _ _, .inr rfl, bytes, hfile⟩
      · rename_i hne hlong
        split at hnames
        · rename_i hdeep
          cases hnames
          exact ⟨fun h ↦ hne (by rw [h]), .inl hdeep, bytes, hfile⟩
        · cases hnames
    · cases hnames
  · rintro ⟨hne, hdepth, bytes, hfile⟩
    refine ⟨(folder ++ names, bytes), hfile, ?_⟩
    dsimp only
    rw [if_pos (List.isPrefixOf_iff_prefix.mpr (List.prefix_append _ _)), List.drop_left]
    split
    · exact (hne rfl).elim
    · rfl
    · rename_i hlong
      rcases hdepth with hdeep | hlength
      · exact if_pos hdeep
      · obtain ⟨name, rfl⟩ := List.length_eq_one_iff.mp hlength
        exact (hlong name rfl).elim

end Disk

namespace Site

variable {d : Disk} {root : Path} {extensions : List String} {deep : Bool}
  {found : List (List String)} {names : List String}

theorem mem_documentNames {place : Location} :
    names ∈ documentNames d place extensions deep ↔
      names ∈ d.filesIn place deep ∧ hasExtension extensions names = true := by
  rw [documentNames, (List.mergeSort_perm _ _).mem_iff, List.mem_filter]

/-- Documents that the disk holds in the order of their paths. -/
theorem documentNames_of_pairwise {place : Location} {names : List (List String)}
    (h : (d.filesIn place deep).filter (hasExtension extensions) = names)
    (hpairwise : names.Pairwise fun ms ns ↦ Path.namesNotAfter ms ns = true) :
    documentNames d place extensions deep = names := by
  rw [documentNames, h]
  exact List.mergeSort_of_pairwise hpairwise

theorem discover_eq_ok (h : discover d root extensions deep = .ok found) :
    ∃ place, d.locate root = .ok place ∧ d.hasFolder place = true ∧
      found = documentNames d place extensions deep := by
  unfold discover at h
  split at h
  · rename_i place hplace
    split at h
    · rename_i hfolder
      cases h
      exact ⟨place, hplace, hfolder, rfl⟩
    · cases h
  · cases h

theorem discover_returns (h : d.isFolder root = true) (extensions : List String) (deep : Bool) :
    ∃ found, discover d root extensions deep = .ok found := by
  unfold Disk.isFolder at h
  unfold discover
  cases hplace : d.locate root with
  | error fault =>
      rw [hplace] at h
      cases h
  | ok place =>
      rw [hplace] at h
      exact ⟨_, if_pos h⟩

theorem ne_nil_of_discover (h : discover d root extensions deep = .ok found) (hnames : names ∈ found) :
    names ≠ [] := by
  obtain ⟨place, -, -, rfl⟩ := discover_eq_ok h
  exact (Disk.mem_filesIn.mp (mem_documentNames.mp hnames).1).1

/-- The slug of a path below a root is that of the names that lead there. -/
theorem slugFor_below (root : Path) (hnames : names ≠ []) :
    slugFor (below root names) root = .ok (slugOfNames names) := by
  rw [slugFor, Path.relativeTo, below, Path.below?_append]
  cases names with
  | nil => exact (hnames rfl).elim
  | cons name rest => rfl

end Site

end SafeMarkdown

namespace SafeMarkdown.Site

section Ordering

variable {α : Type} {metadata : α → FrontMatter}

theorem isSome_sortKey {fm : FrontMatter} {key : Option Moment} (h : fm.sortKey = .ok key) :
    key.isSome = fm.isDated := by
  rw [FrontMatter.sortKey] at h
  rw [FrontMatter.isDated]
  cases hdate : fm.date with
  | none =>
      rw [hdate] at h
      cases h
      rfl
  | some d =>
      rw [hdate] at h
      dsimp only at h
      rw [Option.any_some]
      split at h
      · rename_i hempty
        cases h
        rw [hempty]
        rfl
      · rename_i hempty
        split at h
        · cases h
          rw [Bool.not_eq_true] at hempty
          rw [hempty]
          rfl
        · cases h

/-- The dated ones of items whose instants are known. -/
theorem dated_returns {items : List α} (h : ∀ a ∈ items, (metadata a).IsOrdered) :
    ∃ keyed, dated metadata items = .ok keyed ∧
      keyed.map Prod.snd = items.filter fun a ↦ (metadata a).isDated := by
  induction items with
  | nil => exact ⟨[], rfl, rfl⟩
  | cons a rest ih =>
      rw [List.forall_mem_cons] at h
      obtain ⟨key, hkey⟩ := h.1
      obtain ⟨others, hothers, hmap⟩ := ih h.2
      rw [dated, hkey, hothers, List.filter_cons, ← isSome_sortKey hkey]
      cases key with
      | none => exact ⟨others, rfl, hmap⟩
      | some m =>
          refine ⟨(m, a) :: others, rfl, ?_⟩
          rw [List.map_cons, hmap]
          rfl

/-- Items whose instants are known can be ordered, and none of them gets lost. -/
theorem sortBy_returns {items : List α} (h : ∀ a ∈ items, (metadata a).IsOrdered) :
    ∃ sorted, sortBy metadata items = .ok sorted ∧ sorted.Perm items := by
  obtain ⟨keyed, hkeyed, hmap⟩ := dated_returns h
  rw [sortBy, hkeyed]
  refine ⟨_, rfl, ?_⟩
  have hsorted : ((keyed.mergeSort notOlder).map Prod.snd).Perm (keyed.map Prod.snd) :=
    (List.mergeSort_perm keyed notOlder).map Prod.snd
  rw [hmap] at hsorted
  exact (hsorted.append_right _).trans (List.filter_append_perm _ items)

end Ordering

/-- What becomes of a file. -/
inductive Entry where
  | document (doc : RenderedDocument)
  /-- Its slug is that of a file before it. -/
  | repeated (f : Fault)
  /-- It cannot be loaded. -/
  | failed (f : Fault)

namespace Entry

def document? : Entry → Option RenderedDocument
  | document doc => some doc
  | repeated _ | failed _ => none

def repeated? : Entry → Option Fault
  | repeated f => some f
  | document _ | failed _ => none

def failed? : Entry → Option Fault
  | failed f => some f
  | document _ | repeated _ => none

def result : Entry → RenderedDocument ⊕ Fault
  | document doc => .inl doc
  | repeated f | failed f => .inr f

/-- Whether an entry shows the slug of a job, and a fault its path. -/
def BelongsTo (job : Job) : Entry → Prop
  | document doc => doc.slug = job.slug
  | repeated f | failed f => f.slug = job.slug ∧ f.path = job.path

theorem perm_result (es : List Entry) :
    (es.map result).Perm ((es.filterMap document?).map .inl ++
      (es.filterMap repeated? ++ es.filterMap failed?).map .inr) := by
  induction es with
  | nil => exact .nil
  | cons e rest ih =>
      rw [List.map_append] at ih ⊢
      cases e with
      | document doc => exact ih.cons _
      | repeated f => exact (ih.cons _).trans List.perm_middle.symm
      | failed f =>
          -- its place is behind the documents and the repeated ones
          refine (ih.cons _).trans ?_
          rw [← List.append_assoc]
          refine List.perm_middle.symm.trans ?_
          rw [List.append_assoc]
          exact .refl _

end Entry

section Entries

variable {run : Job → Except Failure RenderedDocument}

def entryAlone (run : Job → Except Failure RenderedDocument) (job : Job) : Entry :=
  match run job with
  | .ok doc => .document doc
  | .error cause => .failed ⟨job.slug, cause, job.path⟩

/-- What becomes of a file behind other ones. -/
def entryAfter (run : Job → Except Failure RenderedDocument) (before : List Job) (job : Job) :
    Entry :=
  match before.find? fun t ↦ t.slug == job.slug with
  | some t => .repeated (duplicate job t)
  | none => entryAlone run job

def entriesAfter (run : Job → Except Failure RenderedDocument) (before : List Job) :
    List Job → List Entry
  | [] => []
  | job :: rest => entryAfter run before job :: entriesAfter run (before ++ [job]) rest

theorem belongsTo_entryAfter (hrun : ∀ job doc, run job = .ok doc → doc.slug = job.slug)
    (before : List Job) (job : Job) : (entryAfter run before job).BelongsTo job := by
  unfold entryAfter entryAlone
  split
  · exact ⟨rfl, rfl⟩
  · split
    · rename_i doc hdoc
      exact hrun job doc hdoc
    · exact ⟨rfl, rfl⟩

theorem belongsTo_entriesAfter (hrun : ∀ job doc, run job = .ok doc → doc.slug = job.slug)
    (before jobs : List Job) :
    List.Forall₂ Entry.BelongsTo jobs (entriesAfter run before jobs) := by
  induction jobs generalizing before with
  | nil => exact .nil
  | cons job rest ih => exact .cons (belongsTo_entryAfter hrun before job) (ih _)

/-- The jobs that were claimed lead from a slug to the first job before that has it. -/
def Covers (taken before : List Job) : Prop :=
  ∀ slug, taken.find? (fun t ↦ t.slug == slug) = before.find? fun t ↦ t.slug == slug

theorem Covers.skip {taken before : List Job} {job t : Job} (h : Covers taken before)
    (ht : before.find? (fun t ↦ t.slug == job.slug) = some t) : Covers taken (before ++ [job]) := by
  intro slug
  rw [List.find?_append, h slug]
  by_cases hslug : job.slug = slug
  · rw [← hslug, ht]
    rfl
  · rw [List.find?_cons_of_neg (by simpa using hslug), List.find?_nil, Option.or_none]

theorem Covers.claim {taken before : List Job} {job : Job} (h : Covers taken before)
    (hnone : before.find? (fun t ↦ t.slug == job.slug) = none) :
    Covers (job :: taken) (before ++ [job]) := by
  intro slug
  rw [List.find?_append]
  by_cases hslug : job.slug = slug
  · rw [← hslug, hnone, List.find?_cons_of_pos (by simp), List.find?_cons_of_pos (by simp)]
    rfl
  · rw [List.find?_cons_of_neg (by simpa using hslug), List.find?_cons_of_neg (by simpa using hslug),
      List.find?_nil, Option.or_none, h slug]

def resultsOf (run : Job → Except Failure RenderedDocument) (jobs : List Job) :
    List (Job × Except Failure RenderedDocument) :=
  jobs.map fun job ↦ (job, run job)

/-- Claiming slugs parts the files that are repeated from those that are loaded. -/
theorem claim_eq (run : Job → Except Failure RenderedDocument) {taken before : List Job}
    (h : Covers taken before) (jobs : List Job) :
    (claim taken jobs).2 = (entriesAfter run before jobs).filterMap Entry.repeated? ∧
    documentsOf (resultsOf run (claim taken jobs).1) =
      (entriesAfter run before jobs).filterMap Entry.document? ∧
    faultsOf (resultsOf run (claim taken jobs).1) =
      (entriesAfter run before jobs).filterMap Entry.failed? := by
  -- whether a job is repeated is asked of `taken` here and of `before` there, which `Covers` relates
  induction jobs generalizing taken before with
  | nil => exact ⟨rfl, rfl, rfl⟩
  | cons job rest ih =>
      rw [claim, entriesAfter, entryAfter, h job.slug]
      cases hfind : before.find? fun t ↦ t.slug == job.slug with
      | some t =>
          obtain ⟨hrepeated, hdocuments, hfailed⟩ := ih (h.skip hfind)
          exact ⟨congrArg _ hrepeated, hdocuments, hfailed⟩
      | none =>
          obtain ⟨hrepeated, hdocuments, hfailed⟩ := ih (h.claim hfind)
          dsimp only
          rw [entryAlone, resultsOf, List.map_cons]
          cases run job with
          | ok doc => exact ⟨hrepeated, congrArg _ hdocuments, hfailed⟩
          | error cause => exact ⟨hrepeated, hdocuments, congrArg _ hfailed⟩

/-- The slugs of the jobs that claim theirs are new, and distinct. -/
theorem nodup_claim (taken jobs : List Job) :
    ((claim taken jobs).1.map Job.slug).Nodup ∧
      ∀ job ∈ (claim taken jobs).1, ∀ t ∈ taken, t.slug ≠ job.slug := by
  induction jobs generalizing taken with
  | nil => exact ⟨List.nodup_nil, fun _ hjob ↦ (List.not_mem_nil hjob).elim⟩
  | cons job rest ih =>
      rw [claim]
      cases hfind : taken.find? fun t ↦ t.slug == job.slug with
      | some t => exact ih taken
      | none =>
          obtain ⟨hnodup, hnew⟩ := ih (job :: taken)
          dsimp only
          rw [List.map_cons, List.nodup_cons]
          refine ⟨⟨?_, hnodup⟩, ?_⟩
          · -- the jobs behind this one were claimed with its slug among those taken
            intro hmem
            obtain ⟨other, hother, hslug⟩ := List.mem_map.mp hmem
            exact hnew other hother job List.mem_cons_self hslug.symm
          · intro other hother t ht
            rcases List.mem_cons.mp hother with rfl | hother
            · have hne := List.find?_eq_none.mp hfind t ht
              simpa using hne
            · exact hnew other hother t (List.mem_cons_of_mem _ ht)

/-- A batch of jobs is known from what becomes of each of them by itself. -/
structure Accounts (run : Job → Except Failure RenderedDocument) (jobs : List Job) (b : Batch) :
    Prop where
  /-- Each job has one entry, with its slug, or with its slug and its path. -/
  belongs : List.Forall₂ Entry.BelongsTo jobs (entriesAfter run [] jobs)
  /-- The batch consists of these entries. -/
  complete : ((entriesAfter run [] jobs).map Entry.result).Perm
    (b.documents.map .inl ++ b.faults.map .inr)
  distinct : (b.documents.map RenderedDocument.slug).Nodup
  documents : sortDocuments ((entriesAfter run [] jobs).filterMap Entry.document?) = .ok b.documents
  faults : b.faults = (entriesAfter run [] jobs).filterMap Entry.repeated? ++
    (entriesAfter run [] jobs).filterMap Entry.failed?

/-- What jobs come to that claimed their slugs, in the order of the jobs. -/
def collect (faults : List Fault) (rs : List (Job × Except Failure RenderedDocument)) :
    Logged Batch := do
  reportFaults (faultsOf rs)
  return {
    documents := ← Logged.ofExcept (sortDocuments (documentsOf rs))
    faults := faults ++ faultsOf rs }

theorem performAll_eq (d : Disk) (p : Pipeline) (strict : Bool) (faults : List Fault)
    (jobs : List Job) :
    performAll d p strict faults jobs = outcomes d p strict jobs >>= collect faults :=
  rfl

theorem succeeds_reportFaults (fs : List Fault) : Succeeds (reportFaults fs) () := by
  induction fs with
  | nil => exact succeeds_pure ()
  | cons f rest ih => exact (succeeds_modify _).bind ih

theorem slugs_documentsOf (hrun : ∀ job doc, run job = .ok doc → doc.slug = job.slug)
    (jobs : List Job) :
    ((documentsOf (resultsOf run jobs)).map RenderedDocument.slug).Sublist (jobs.map Job.slug) := by
  induction jobs with
  | nil => exact .slnil
  | cons job rest ih =>
      rw [resultsOf, List.map_cons, List.map_cons]
      cases hjob : run job with
      | ok doc =>
          have hcons := ih.cons_cons job.slug
          rw [← hrun job doc hjob] at hcons ⊢
          exact hcons
      | error cause => exact ih.cons _

theorem isOrdered_of_mem_documentsOf
    (hrun : ∀ job doc, run job = .ok doc → doc.frontMatter.IsOrdered) {jobs : List Job}
    {doc : RenderedDocument} (hdoc : doc ∈ documentsOf (resultsOf run jobs)) :
    doc.frontMatter.IsOrdered := by
  obtain ⟨⟨job, r⟩, hr, hok⟩ := List.mem_filterMap.mp hdoc
  obtain ⟨_, -, heq⟩ := List.mem_map.mp hr
  cases heq
  cases hjob : run job with
  | ok found =>
      rw [hjob] at hok
      cases hok
      exact hrun job doc hjob
  | error cause =>
      rw [hjob] at hok
      cases hok

/-- The results of the jobs that claimed their slugs make up a batch that accounts for all jobs. -/
theorem collect_accounts (jobs : List Job)
    (hrun : ∀ job doc, run job = .ok doc → doc.slug = job.slug ∧ doc.frontMatter.IsOrdered) :
    ∃ b, Succeeds (collect (claim [] jobs).2 (resultsOf run (claim [] jobs).1)) b ∧
      Accounts run jobs b := by
  have hcovers : Covers [] [] := fun _ ↦ rfl
  obtain ⟨hrepeated, hdocuments, hfailed⟩ := claim_eq run hcovers jobs
  have hordered : ∀ doc ∈ documentsOf (resultsOf run (claim [] jobs).1),
      doc.frontMatter.IsOrdered :=
    fun doc ↦ isOrdered_of_mem_documentsOf fun job doc h ↦ (hrun job doc h).2
  obtain ⟨sorted, hsorted, hperm⟩ := sortBy_returns hordered
  have hslug : ∀ job doc, run job = .ok doc → doc.slug = job.slug :=
    fun job doc h ↦ (hrun job doc h).1
  refine ⟨⟨sorted, (claim [] jobs).2 ++ faultsOf (resultsOf run (claim [] jobs).1)⟩, ?_, ?_⟩
  · refine (succeeds_reportFaults _).bind ?_
    exact (Logged.succeeds_ofExcept hsorted).bind (succeeds_pure _)
  · exact {
      belongs := belongsTo_entriesAfter hslug [] jobs
      complete := by
        refine (Entry.perm_result _).trans ?_
        rw [← hrepeated, ← hfailed, ← hdocuments]
        exact (hperm.symm.map _).append_right _
      distinct := by
        refine (hperm.map _).nodup_iff.mpr ?_
        exact (nodup_claim [] jobs).1.sublist (slugs_documentsOf hslug _)
      documents := by
        rw [← hdocuments]
        exact hsorted
      faults := by rw [← hrepeated, ← hfailed] }

end Entries

section Folders

/-- Of jobs some claim their slugs, their files are read in some order, and it comes to this. -/
def Gathers (d : Disk) (p : Pipeline) (strict : Bool) (jobs : List Job)
    (r : Except Failure Batch) : Prop :=
  ∃ rs noted noted', Reads d p strict (pending (claim [] jobs).1, noted) (filled rs, noted') ∧
    ((collect (claim [] jobs).2 rs).run.run noted').1 = r

/-- In whatever order files are read, it comes to the same. -/
theorem gathers_iff {d : Disk} {p : Pipeline} {strict : Bool} (hp : ∀ s ∈ p.stages, s.Appends)
    {jobs : List Job} {b : Batch}
    (h : Succeeds
      (collect (claim [] jobs).2 (resultsOf (performed d p strict) (claim [] jobs).1)) b)
    (r : Except Failure Batch) : Gathers d p strict jobs r ↔ r = .ok b := by
  constructor
  · rintro ⟨rs, noted, noted', hreads, rfl⟩
    rw [eq_performed_of_reads hp hreads]
    exact h noted'
  · rintro rfl
    obtain ⟨rs, noted', -, hreads⟩ := reads_outcomes d p strict (claim [] jobs).1 []
    refine ⟨rs, [], noted', hreads, ?_⟩
    rw [eq_performed_of_reads hp hreads]
    exact h noted'

/-- Every folder can be loaded, and the batch accounts for each of its documents, in whatever order
they are read. -/
theorem loadAll_accounts (d : Disk) (root : Path) (config : PipelineConfig) (options : Options)
    (hroot : d.isFolder root = true)
    (hdialect : (Markdown.Dialect.ofName? config.dialect).isSome = true) :
    ∃ found p b, discover d root options.extensions options.recursive = .ok found ∧
      Succeeds (Pipeline.make config) p ∧
      (loadAll d root config options).outcome.1 = .ok b ∧
      (∀ job ∈ found.map (jobOf root), slugFor job.path root = .ok job.slug) ∧
      Accounts (performed d p options.strict) (found.map (jobOf root)) b ∧
      ∀ r, Gathers d p options.strict (found.map (jobOf root)) r ↔ r = .ok b := by
  obtain ⟨found, hfound⟩ := discover_returns hroot options.extensions options.recursive
  obtain ⟨p, hmake, hp⟩ := Pipeline.exists_succeeds_make hdialect
  obtain ⟨b, hcollect, haccounts⟩ :=
    collect_accounts (found.map (jobOf root)) fun job doc h ↦ performed_eq_ok h
  refine ⟨found, p, b, hfound, hmake, ?_, ?_, haccounts, gathers_iff hp hcollect⟩
  · have hload : Succeeds (loadAll d root config options) b := by
      refine (Logged.succeeds_ofExcept hfound).bind ?_
      refine (succeeds_modify _).bind (hmake.bind ?_)
      rw [performAll_eq]
      exact (succeeds_outcomes hp _).bind hcollect
    exact hload []
  · intro job hjob
    obtain ⟨names, hnames, rfl⟩ := List.mem_map.mp hjob
    exact slugFor_below root (ne_nil_of_discover hfound hnames)

/-- A folder with two files of one slug and a file that is no text. -/
def notesDisk : Disk where
  files := [(["notes", "A.md"], "# One".toUTF8.toList), (["notes", "a.md"], "# Two".toUTF8.toList),
    (["notes", "b.md"], [255])]
  folders := [["notes"]]

theorem loadAll_accounts_notes :
    notesDisk.isFolder ⟨0, ["notes"]⟩ = true ∧
      (Markdown.Dialect.ofName? ({} : PipelineConfig).dialect).isSome = true ∧
      ∃ b, (loadAll notesDisk ⟨0, ["notes"]⟩ {} {}).outcome.1 = .ok b ∧
        b.documents.length + b.faults.length = 3 ∧
        duplicate ⟨"a", ⟨0, ["notes", "a.md"]⟩⟩ ⟨"a", ⟨0, ["notes", "A.md"]⟩⟩ ∈ b.faults := by
  have hroot : notesDisk.isFolder ⟨0, ["notes"]⟩ = true := by decide
  have hdialect : (Markdown.Dialect.ofName? ({} : PipelineConfig).dialect).isSome = true := by decide
  obtain ⟨found, p, b, hfound, -, hload, -, haccounts, -⟩ :=
    loadAll_accounts notesDisk ⟨0, ["notes"]⟩ {} {} hroot hdialect
  have hnames : documentNames notesDisk ["notes"] standardExtensions false =
      [["A.md"], ["a.md"], ["b.md"]] :=
    documentNames_of_pairwise (by decide +kernel) (by decide)
  have hjobs : found.map (jobOf ⟨0, ["notes"]⟩) =
      [⟨"a", ⟨0, ["notes", "A.md"]⟩⟩, ⟨"a", ⟨0, ["notes", "a.md"]⟩⟩, ⟨"b", ⟨0, ["notes", "b.md"]⟩⟩] := by
    obtain ⟨place, hplace, -, rfl⟩ := discover_eq_ok hfound
    cases hplace
    rw [show documentNames notesDisk ([] ++ ["notes"]) _ _ = _ from hnames]
    rfl
  rw [hjobs] at haccounts
  refine ⟨hroot, hdialect, b, hload, ?_, ?_⟩
  · have hlength := haccounts.complete.length_eq
    rw [List.length_append, List.length_map, List.length_map, List.length_map] at hlength
    rw [← hlength]
    rfl
  · rw [haccounts.faults]
    refine List.mem_append_left _ (List.mem_filterMap.mpr ⟨_, .tail _ (.head _), rfl⟩)

end Folders

end SafeMarkdown.Site
