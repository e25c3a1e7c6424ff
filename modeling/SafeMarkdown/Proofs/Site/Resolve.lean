import SafeMarkdown.Proofs.Site.Accounts

/-!
# Where slugs lead

A slug leads first to the files that it spells out with one of the suffixes, and only then to the
document that is listed under it. So a listed slug leads to its own document unless it spells out
another file, as a slug in lower case may do beside a file whose name has capitals. What a slug spells
out need not be below the root; the document that is listed is.
-/

namespace SafeMarkdown.Site

variable {d : Disk} {root : Path} {slug : String} {extensions : List String}

theorem resolve_of_namesake {p : Path} (h : namesake? d root slug extensions = some p) :
    resolve d root slug extensions =
      .ok (((spelledPaths root slug extensions).find? d.isFile).getD p) := by
  unfold resolve
  dsimp only
  rw [h]
  cases (spelledPaths root slug extensions).find? d.isFile with
  | some q => rfl
  | none => rfl

section Loading

variable {config : PipelineConfig} {options : Options} {p : Pipeline} {path : Path}

theorem outcome_load (hp : ∀ s ∈ p.stages, s.Appends) (hmake : Succeeds (Pipeline.make config) p)
    (hpath : resolve d root slug options.extensions = .ok path) :
    (load d root slug config options).outcome.1 = performed d p options.strict ⟨slug, path⟩ := by
  have hfound : Logged.ofExcept (.ok path) = (pure path : Logged Path) := rfl
  unfold load performed perform
  rw [hpath, hfound, pure_bind]
  cases hsource : source d ⟨slug, path⟩ with
  | error e => rfl
  | ok text => exact Logged.outcome_bind hmake (Pipeline.appends_process hp slug text options.strict)

theorem jobsOfSlugs_of_resolve {jobs : List Job}
    (h : ∀ job ∈ jobs, resolve d root job.slug extensions = .ok job.path) :
    jobsOfSlugs d root extensions (jobs.map Job.slug) = .ok jobs := by
  induction jobs with
  | nil => rfl
  | cons job rest ih =>
      rw [List.forall_mem_cons] at h
      rw [List.map_cons, jobsOfSlugs, h.1, ih h.2]
      rfl

end Loading

section Listed

variable {found : List (List String)}

/-- A job that claims its slug is the first that has it. -/
theorem find?_of_mem_claim {taken before jobs : List Job} (h : Covers taken before) {job : Job}
    (hjob : job ∈ (claim taken jobs).1) :
    (before ++ jobs).find? (fun t ↦ t.slug == job.slug) = some job := by
  induction jobs generalizing taken before with
  | nil => cases hjob
  | cons t rest ih =>
      have hassoc : before ++ t :: rest = (before ++ [t]) ++ rest := by
        rw [List.append_assoc, List.singleton_append]
      -- `Covers` goes along, as in parting the repeated files from the others
      rw [claim, h t.slug] at hjob
      cases hfind : before.find? fun u ↦ u.slug == t.slug with
      | some u =>
          rw [hfind] at hjob
          rw [hassoc]
          exact ih (h.skip hfind) hjob
      | none =>
          rw [hfind] at hjob
          rcases List.mem_cons.mp hjob with rfl | hjob
          · rw [List.find?_append, hfind, Option.none_or]
            exact List.find?_cons_of_pos (beq_self_eq_true _)
          · rw [hassoc]
            exact ih (h.claim hfind) hjob

theorem namesake?_of_mem_claim (hfound : discover d root extensions true = .ok found) {job : Job}
    (hjob : job ∈ (claim [] (found.map (jobOf root))).1) :
    namesake? d root job.slug extensions = some job.path := by
  have hcovers : Covers [] [] := fun _ ↦ rfl
  have hfirst := find?_of_mem_claim hcovers hjob
  rw [List.nil_append, List.find?_map] at hfirst
  obtain ⟨names, hnames, rfl⟩ := Option.map_eq_some_iff.mp hfirst
  rw [namesake?, hfound]
  exact congrArg (Option.map (below root)) hnames

/-- The job of a listed slug, with the path that the slug leads to. -/
def ledTo (d : Disk) (root : Path) (extensions : List String) (job : Job) : Job :=
  ⟨job.slug, ((spelledPaths root job.slug extensions).find? d.isFile).getD job.path⟩

theorem ledTo_eq_self_iff (job : Job) :
    ledTo d root extensions job = job ↔
      ∀ p, (spelledPaths root job.slug extensions).find? d.isFile = some p → p = job.path := by
  obtain ⟨slug, path⟩ := job
  rw [ledTo, Job.mk.injEq]
  cases (spelledPaths root slug extensions).find? d.isFile with
  | none => simp
  | some q => simp

/-- A listed slug leads to the first file that it spells out, or else to its own document, and that
is what is loaded for it. It is its own document exactly when the slug spells out no other file
first. -/
theorem resolve_listed (d : Disk) (root : Path) (config : PipelineConfig) (options : Options)
    (found : List (List String)) (hfound : discover d root options.extensions true = .ok found)
    (hdialect : (Markdown.Dialect.ofName? config.dialect).isSome = true) :
    ∃ p, Succeeds (Pipeline.make config) p ∧
      (∀ job ∈ (claim [] (found.map (jobOf root))).1,
        resolve d root job.slug options.extensions = .ok (ledTo d root options.extensions job).path ∧
        (load d root job.slug config options).outcome.1 =
          performed d p options.strict (ledTo d root options.extensions job) ∧
        (ledTo d root options.extensions job = job ↔
          ∀ q, (spelledPaths root job.slug options.extensions).find? d.isFile = some q →
            q = job.path)) ∧
      jobsOfSlugs d root options.extensions ((claim [] (found.map (jobOf root))).1.map Job.slug) =
        .ok ((claim [] (found.map (jobOf root))).1.map (ledTo d root options.extensions)) := by
  obtain ⟨p, hmake, hp⟩ := Pipeline.exists_succeeds_make hdialect
  have hresolve : ∀ job ∈ (claim [] (found.map (jobOf root))).1,
      resolve d root job.slug options.extensions =
        .ok (ledTo d root options.extensions job).path :=
    fun job hjob ↦ resolve_of_namesake (namesake?_of_mem_claim hfound hjob)
  refine ⟨p, hmake, ?_, ?_⟩
  · intro job hjob
    exact ⟨hresolve job hjob, outcome_load hp hmake (hresolve job hjob), ledTo_eq_self_iff job⟩
  · have hslugs : (claim [] (found.map (jobOf root))).1.map Job.slug =
        ((claim [] (found.map (jobOf root))).1.map (ledTo d root options.extensions)).map
          Job.slug := by
      rw [List.map_map]
      rfl
    rw [hslugs]
    apply jobsOfSlugs_of_resolve
    intro job hjob
    obtain ⟨own, hown, rfl⟩ := List.mem_map.mp hjob
    exact hresolve own hown

/-- A folder with documents whose names are no slugs, one of them in a folder below. -/
def guideDisk : Disk where
  files := [(["content", "Hello World.md"], "# Hi".toUTF8.toList),
    (["content", "guides", "Setup Guide.mdx"], "# Setup".toUTF8.toList)]
  folders := [["content"], ["content", "guides"]]

theorem resolve_listed_guide :
    ∃ found p, discover guideDisk ⟨0, ["content"]⟩ standardExtensions true = .ok found ∧
      (Markdown.Dialect.ofName? ({} : PipelineConfig).dialect).isSome = true ∧
      resolve guideDisk ⟨0, ["content"]⟩ "guides/setup-guide" standardExtensions =
        .ok ⟨0, ["content", "guides", "Setup Guide.mdx"]⟩ ∧
      (load guideDisk ⟨0, ["content"]⟩ "guides/setup-guide" {} {}).outcome.1 =
        performed guideDisk p false
          ⟨"guides/setup-guide", ⟨0, ["content", "guides", "Setup Guide.mdx"]⟩⟩ := by
  have hdialect : (Markdown.Dialect.ofName? ({} : PipelineConfig).dialect).isSome = true := by decide
  have hnames : documentNames guideDisk ["content"] standardExtensions true =
      [["Hello World.md"], ["guides", "Setup Guide.mdx"]] :=
    documentNames_of_pairwise (by decide +kernel) (by decide)
  have hfound : discover guideDisk ⟨0, ["content"]⟩ standardExtensions true =
      .ok [["Hello World.md"], ["guides", "Setup Guide.mdx"]] := by
    rw [← hnames]
    rfl
  obtain ⟨p, -, hlisted, -⟩ :=
    resolve_listed guideDisk ⟨0, ["content"]⟩ {} {} _ hfound hdialect
  obtain ⟨hresolve, hload, -⟩ := hlisted _ (.tail _ (.head _))
  exact ⟨_, p, hfound, hdialect, hresolve, hload⟩

/-- Two files whose names differ in a capital. -/
def capitalDisk : Disk where
  files := [(["A.md"], "# One".toUTF8.toList), (["a.md"], "# Two".toUTF8.toList)]

/-- The first of them is listed under the slug that spells out the other one. -/
theorem resolve_capital :
    ∃ found, discover capitalDisk Path.here standardExtensions true = .ok found ∧
      ⟨"a", ⟨0, ["A.md"]⟩⟩ ∈ (claim [] (found.map (jobOf Path.here))).1 ∧
      resolve capitalDisk Path.here "a" standardExtensions = .ok ⟨0, ["a.md"]⟩ := by
  have hnames : documentNames capitalDisk [] standardExtensions true = [["A.md"], ["a.md"]] :=
    documentNames_of_pairwise (by decide +kernel) (by decide)
  refine ⟨[["A.md"], ["a.md"]], ?_, .head _, rfl⟩
  rw [← hnames]
  rfl

end Listed

section Confined

theorem staysBelow_of_namesake (hd : d.Dotless) {p : Path}
    (h : namesake? d root slug extensions = some p) : root.staysBelow p = true := by
  unfold namesake? at h
  split at h
  · rename_i found hfound
    obtain ⟨names, hnames, rfl⟩ := Option.map_eq_some_iff.mp h
    obtain ⟨place, -, -, rfl⟩ := discover_eq_ok hfound
    have hmem := (mem_documentNames.mp (List.mem_of_find?_eq_some hnames)).1
    obtain ⟨-, -, bytes, hfile⟩ := Disk.mem_filesIn.mp hmem
    have hdots : Path.above ∉ names := fun hin ↦ hd _ hfile (List.mem_append_right place hin)
    rw [Path.staysBelow, below, Path.below?_append, Option.any_some]
    exact Path.neverClimbs_of_not_mem hdots 0
  · cases h

theorem resolve_returns (d : Disk) (root : Path) (slug : String) (hne : extensions ≠ []) :
    ∃ p, resolve d root slug extensions = .ok p ∧
      (p ∈ spelledPaths root slug extensions ∨ namesake? d root slug extensions = some p) := by
  unfold resolve
  dsimp only
  split
  · rename_i p hp
    exact ⟨p, rfl, .inl (List.mem_of_find?_eq_some hp)⟩
  · split
    · rename_i p hp
      exact ⟨p, rfl, .inr hp⟩
    · rename_i p rest _ hspelled
      rw [hspelled]
      exact ⟨p, rfl, .inl List.mem_cons_self⟩
    · rename_i hspelled
      exact (hne (List.map_eq_nil_iff.mp hspelled)).elim

/-- A slug leads to a path, and that is what is loaded for it. The path stays below the root exactly
when it is not spelled out by the slug with a suffix that leads elsewhere; what stays below the root
denotes a place below that of the root. -/
theorem resolve_staysBelow (d : Disk) (root : Path) (slug : String) (config : PipelineConfig)
    (options : Options) (hd : d.Dotless) (hne : options.extensions ≠ [])
    (hdialect : (Markdown.Dialect.ofName? config.dialect).isSome = true) :
    ∃ path p, resolve d root slug options.extensions = .ok path ∧
      Succeeds (Pipeline.make config) p ∧
      (load d root slug config options).outcome.1 = performed d p options.strict ⟨slug, path⟩ ∧
      jobsOfSlugs d root options.extensions [slug] = .ok [⟨slug, path⟩] ∧
      (root.staysBelow path = true ↔ ∀ suffix ∈ options.extensions,
        path = root.join (Path.ofText (slug ++ suffix)) →
          root.leadsBelow (Path.ofText (slug ++ suffix)) = true) ∧
      (root.staysBelow path = true → ∀ place spot, d.locate root = .ok place →
        d.locate path = .ok spot → place <+: spot) := by
  obtain ⟨p, hmake, hp⟩ := Pipeline.exists_succeeds_make hdialect
  obtain ⟨path, hpath, hchoice⟩ := resolve_returns d root slug hne
  have hjobs : jobsOfSlugs d root options.extensions ([⟨slug, path⟩].map Job.slug) =
      .ok [⟨slug, path⟩] := by
    apply jobsOfSlugs_of_resolve
    intro job hjob
    rw [List.mem_singleton.mp hjob]
    exact hpath
  refine ⟨path, p, hpath, hmake, outcome_load hp hmake hpath, hjobs, ?_, ?_⟩
  · constructor
    · rintro hstays suffix - rfl
      rwa [← Path.staysBelow_join]
    · -- the search below the root is safe, so only a path that is spelled out can lead elsewhere
      intro hspelled
      rcases hchoice with hmem | hnamesake
      · obtain ⟨suffix, hsuffix, rfl⟩ := List.mem_map.mp hmem
        rw [Path.staysBelow_join]
        exact hspelled suffix hsuffix rfl
      · exact staysBelow_of_namesake hd hnamesake
  · intro hstays place spot hplace hspot
    exact Disk.prefix_of_staysBelow hstays hplace hspot

/-- A folder with a document, and a file beside the folder. -/
def secretDisk : Disk where
  files := [(["content", "a.md"], "# A".toUTF8.toList), (["secret.md"], "# Secret".toUTF8.toList)]
  folders := [["content"]]

theorem dotless_secretDisk : secretDisk.Dotless := by
  unfold Disk.Dotless
  decide

theorem resolve_staysBelow_content :
    secretDisk.Dotless ∧ standardExtensions ≠ [] ∧
      (Markdown.Dialect.ofName? ({} : PipelineConfig).dialect).isSome = true ∧
      ∃ path, resolve secretDisk ⟨0, ["content"]⟩ "a" standardExtensions = .ok path ∧
        Path.staysBelow ⟨0, ["content"]⟩ path = true ∧
        ∀ spot, secretDisk.locate path = .ok spot → ["content"] <+: spot := by
  have hdialect : (Markdown.Dialect.ofName? ({} : PipelineConfig).dialect).isSome = true := by decide
  obtain ⟨path, p, hpath, -, -, -, hstays, hplace⟩ :=
    resolve_staysBelow secretDisk ⟨0, ["content"]⟩ "a" {} {} dotless_secretDisk (by decide) hdialect
  have hbelow : Path.staysBelow ⟨0, ["content"]⟩ path = true := by
    refine hstays.mpr fun suffix hsuffix _ ↦ ?_
    have hall : ∀ suffix ∈ standardExtensions,
        Path.leadsBelow ⟨0, ["content"]⟩ (Path.ofText ("a" ++ suffix)) = true := by
      decide
    exact hall suffix hsuffix
  exact ⟨dotless_secretDisk, by decide, hdialect, path, hpath, hbelow,
    fun spot ↦ hplace hbelow ["content"] spot rfl⟩

/-- A slug with double dots leads to the file beside the folder, which is read. -/
theorem resolve_secret :
    secretDisk.Dotless ∧
      resolve secretDisk ⟨0, ["content"]⟩ "../secret" standardExtensions =
        .ok ⟨0, ["content", "..", "secret.md"]⟩ ∧
      Path.staysBelow ⟨0, ["content"]⟩ ⟨0, ["content", "..", "secret.md"]⟩ = false ∧
      secretDisk.locate ⟨0, ["content", "..", "secret.md"]⟩ = .ok ["secret.md"] ∧
      (source secretDisk ⟨"../secret", ⟨0, ["content", "..", "secret.md"]⟩⟩).toOption =
        some "# Secret" :=
  ⟨dotless_secretDisk, rfl, by decide, rfl, by decide +kernel⟩

end Confined

end SafeMarkdown.Site
