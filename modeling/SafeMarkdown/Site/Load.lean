import SafeMarkdown.FrontMatter.Block
import SafeMarkdown.Json.Printer
import SafeMarkdown.Payload
import SafeMarkdown.Pipeline.Run
import SafeMarkdown.Site.Lookup

/-!
# Loading documents

A document is read, its front matter is taken off, and the rest goes through a pipeline. Loading
several documents fails for none of them: what goes wrong with one is kept beside the documents that
came out. Of documents with one slug the first one counts. Dated documents come first, the newest
first; documents of the same instant and documents without a date keep their order.

Every document goes into a file of its own in the output folder, named for its slug. An index tells
the documents in order, with their metadata, and what could not be loaded.
-/

namespace SafeMarkdown.Site

/-- The dated items with their instants. -/
def dated {α : Type} (metadata : α → FrontMatter) : List α → Except Failure (List (Moment × α))
  | [] => .ok []
  | d :: rest => do
    let key ← (metadata d).sortKey
    let others ← dated metadata rest
    match key with
    | some m => return (m, d) :: others
    | none => return others

def notOlder {α : Type} (a b : Moment × α) : Bool :=
  b.1.clock ≤ a.1.clock

def sortBy {α : Type} (metadata : α → FrontMatter) (items : List α) : Except Failure (List α) := do
  let keyed ← dated metadata items
  let undated := items.filter fun d ↦ !(metadata d).isDated
  return (keyed.mergeSort notOlder).map Prod.snd ++ undated

def sortDocuments (ds : List RenderedDocument) : Except Failure (List RenderedDocument) :=
  sortBy RenderedDocument.frontMatter ds

end SafeMarkdown.Site

namespace SafeMarkdown

def Pipeline.process (p : Pipeline) (slug source : String) (strict : Bool) :
    Logged RenderedDocument := do
  let (frontMatter, body) ← FrontMatter.parse source strict
  return { slug, frontMatter, payload := ← p.render body frontMatter }

namespace Site

/-- A document to load: its slug and its path. -/
structure Job where
  slug : String
  path : Path

/-- A document that could not be loaded. -/
structure Fault where
  slug : String
  cause : Failure
  path : Path

structure Batch where
  documents : List RenderedDocument := []
  faults : List Fault := []

/-- How documents are found and rendered. -/
structure Options where
  extensions : List String := standardExtensions
  recursive : Bool := false
  strict : Bool := false

/-- The text of a document's file. -/
def source (d : Disk) (job : Job) : Except Failure String :=
  match d.readText job.path with
  | .error (.file .missing _) => .error (.notFound job.slug (some job.path.text))
  | r => r

def load (d : Disk) (root : Path) (slug : String) (config : PipelineConfig) (options : Options) :
    Logged RenderedDocument := do
  let path ← Logged.ofExcept (resolve d root slug options.extensions)
  let text ← Logged.ofExcept (source d ⟨slug, path⟩)
  (← Pipeline.make config).process slug text options.strict

def perform (d : Disk) (p : Pipeline) (strict : Bool) (job : Job) : Logged RenderedDocument := do
  p.process job.slug (← Logged.ofExcept (source d job)) strict

def outcomes (d : Disk) (p : Pipeline) (strict : Bool) :
    List Job → Logged (List (Job × Except Failure RenderedDocument))
  | [] => pure []
  | job :: rest => do
    let outcome ← (perform d p strict job).attempt
    return (job, outcome) :: (← outcomes d p strict rest)

def documentsOf (rs : List (Job × Except Failure RenderedDocument)) : List RenderedDocument :=
  rs.filterMap fun r ↦ r.2.toOption

/-- What went wrong. -/
def faultsOf (rs : List (Job × Except Failure RenderedDocument)) : List Fault :=
  rs.filterMap fun r ↦
    match r.2 with
    | .error cause => some ⟨r.1.slug, cause, r.1.path⟩
    | .ok _ => none

/-- Notes in the log what went wrong. -/
def reportFaults : List Fault → Logged Unit
  | [] => pure ()
  | f :: rest => do
    Logged.warn .loader ("Failed to load " ++ f.path.text ++ ": " ++ f.cause.message)
    reportFaults rest

/-- Performs jobs, after faults that are there already, and orders the documents. -/
def performAll (d : Disk) (p : Pipeline) (strict : Bool) (faults : List Fault) (jobs : List Job) :
    Logged Batch := do
  let rs ← outcomes d p strict jobs
  reportFaults (faultsOf rs)
  return {
    documents := ← Logged.ofExcept (sortDocuments (documentsOf rs))
    faults := faults ++ faultsOf rs }

def jobsOfSlugs (d : Disk) (root : Path) (extensions : List String) :
    List String → Except Failure (List Job)
  | [] => .ok []
  | slug :: rest => do
    let path ← resolve d root slug extensions
    return ⟨slug, path⟩ :: (← jobsOfSlugs d root extensions rest)

def loadMany (d : Disk) (root : Path) (slugs : List String) (config : PipelineConfig)
    (options : Options) : Logged Batch := do
  let jobs ← Logged.ofExcept (jobsOfSlugs d root options.extensions slugs)
  performAll d (← Pipeline.make config) options.strict [] jobs

def duplicate (job taken : Job) : Fault :=
  ⟨job.slug, .unusable ("Duplicate slug '" ++ job.slug ++ "' (already used by " ++
    taken.path.name ++ ")"), job.path⟩

/-- Parts the jobs whose slugs are new, `taken` being those before them, from the faults of the
others. -/
def claim (taken : List Job) : List Job → List Job × List Fault
  | [] => ([], [])
  | job :: rest =>
    match taken.find? fun t ↦ t.slug == job.slug with
    | some t =>
      let (jobs, faults) := claim taken rest
      (jobs, duplicate job t :: faults)
    | none =>
      let (jobs, faults) := claim (job :: taken) rest
      (job :: jobs, faults)

def jobOf (root : Path) (names : List String) : Job :=
  ⟨slugOfNames names, below root names⟩

def loadAll (d : Disk) (root : Path) (config : PipelineConfig) (options : Options) :
    Logged Batch := do
  let found ← Logged.ofExcept (discover d root options.extensions options.recursive)
  let (jobs, faults) := claim [] (found.map (jobOf root))
  Logged.debug .loader ("Loading " ++ toString jobs.length ++ " document(s) from " ++ root.text)
  performAll d (← Pipeline.make config) options.strict faults jobs

end Site

end SafeMarkdown

namespace SafeMarkdown.Site

def documentPath (output : Path) (slug : String) : Path :=
  output.join (Path.ofText (slug ++ ".json"))

def indexPath (output : Path) : Path :=
  output.child "index.json"

def writeDocument (output : Path) (d : Disk) (doc : RenderedDocument) : Except Failure Disk := do
  let p := documentPath output doc.slug
  (← d.makeFolders p.parent).writeText p doc.storedText

def documentEntry (doc : RenderedDocument) : Value :=
  .obj [("slug", .str doc.slug), ("frontmatter", .obj doc.frontMatter.toFields)]

def faultEntry (f : Fault) : Value :=
  .obj [("slug", .str f.slug), ("kind", .str f.cause.kind), ("error", .str f.cause.message)]

def indexText (b : Batch) : String :=
  Json.readableText (.obj [("documents", .arr (b.documents.map documentEntry)),
    ("errors", .arr (b.faults.map faultEntry))])

def writeIndex (output : Path) (d : Disk) (b : Batch) : Except Failure Disk := do
  (← d.makeFolders output).writeText (indexPath output) (indexText b)

end SafeMarkdown.Site
