import SafeMarkdown.Proofs.Storage.Writing
import SafeMarkdown.Proofs.Text.Scanning
import SafeMarkdown.Site.Load
import SafeMarkdown.Site.Lookup

/-!
# The files of slugs

Files are put below one folder, one after the other, with the folders that they need. If only the
names of files have dots, no file takes the place of a folder that another one needs, so the last
file that was put under some names is the one that is there in the end.

The slug of a document consists of segments between slashes, and no segment has a dot. So a slug
with the suffix of a file is the path of a file, its segments are read back from that path, and
different slugs are the paths of different files.
-/

namespace SafeMarkdown.Site

variable {d d' : Disk} {output : Path} {place : Location} {names other : List String}
  {text : String}

/-- Names that may lead from a folder to a file of a site: the last one has a dot, and is not that
of the folder above, and the others have none. -/
structure LeadsToFile (names : List String) : Prop where
  folders : ∀ f ∈ names.dropLast, '.' ∉ f.toList
  file : ∃ name, names.getLast? = some name ∧ '.' ∈ name.toList ∧ name ≠ Path.above

namespace LeadsToFile

theorem ne_nil (h : LeadsToFile names) : names ≠ [] := by
  rintro rfl
  obtain ⟨_, hlast, -⟩ := h.file
  cases hlast

theorem above_not_mem_dropLast (h : LeadsToFile names) : Path.above ∉ names.dropLast := by
  intro hmem
  exact h.folders _ hmem (by decide)

theorem above_not_mem (h : LeadsToFile names) : Path.above ∉ names := by
  obtain ⟨name, hlast, -, hname⟩ := h.file
  obtain ⟨init, rfl⟩ := List.getLast?_eq_some_iff.mp hlast
  have hinit := h.above_not_mem_dropLast
  rw [List.dropLast_concat] at hinit
  rw [List.mem_append, List.mem_singleton, not_or]
  exact ⟨hinit, Ne.symm hname⟩

/-- A file has no name that a folder of the site may have. -/
theorem not_prefix_dropLast (h : LeadsToFile names) (hother : LeadsToFile other) :
    ¬ other <+: names.dropLast := by
  intro hbelow
  obtain ⟨name, hlast, hdot, -⟩ := hother.file
  exact h.folders name (hbelow.subset (List.mem_of_getLast? hlast)) hdot

end LeadsToFile

/-- Puts a file at a path and makes the folders on the way. -/
def placeFile (d : Disk) (p : Path) (text : String) : Except Failure Disk := do
  (← d.makeFolders p.parent).writeText p text

/-- What putting a file below a folder changes. -/
structure Placed (output : Path) (place : Location) (names : List String) (text : String)
    (d d' : Disk) : Prop where
  located : d'.locate output = .ok place
  folder : d'.hasFolder place = true
  grows : d.Grows d'
  files : ∀ l, l ≠ place ++ names → d'.file? l = d.file? l
  made : ∀ l, d'.hasFolder l = true → d.hasFolder l = true ∨
    ∃ ns, ns <+: output.names ++ names.dropLast ∧ d'.locate ⟨output.slashes, ns⟩ = .ok l
  readable : d'.readBytes (below output names) = .ok text.toUTF8.toList

theorem parent_below (hnames : names ≠ []) :
    (below output names).parent = below output names.dropLast := by
  rw [Path.parent, below, List.dropLast_append_of_ne_nil hnames]
  rfl

theorem placed_of_placeFile (hnames : LeadsToFile names)
    (h : placeFile d (below output names) text = .ok d') :
    ∃ place, Placed output place names text d d' := by
  obtain ⟨mid, hmid, h⟩ := bind_eq_ok.mp h
  obtain ⟨hnameable, spot, hspot, hfree, rfl⟩ := Disk.writeText_eq_ok h
  have hpaved := Disk.paved_makeFolders hmid
  rw [parent_below hnames.ne_nil] at hpaved
  obtain ⟨place, hplace, rfl⟩ := Disk.locate_append hnames.above_not_mem hspot
  have hgrows : mid.Grows (mid.putFile (place ++ names) text.toUTF8.toList) := .refl _
  have hfolder : mid.hasFolder place = true := Disk.hasFolder_of_append hnames.ne_nil hspot hplace
  refine ⟨place, hgrows.locate hplace, hfolder, hpaved.grows.trans hgrows, fun l hl ↦ ?_,
    fun l hl ↦ ?_, ?_⟩
  · rw [Disk.file?_putFile, if_neg hl, Disk.file?, hpaved.files]
    rfl
  · rcases hpaved.made l hl with hl | ⟨ns, hns, hlocate⟩
    · exact .inl hl
    · exact .inr ⟨ns, hns, hgrows.locate hlocate⟩
  · refine Disk.readBytes_eq_ok_iff.mpr ⟨hnameable, _, hgrows.locate hspot, hfree, ?_⟩
    rw [Disk.file?_putFile, if_pos rfl]

/-- A file stays as it is when another one is put below the same folder. -/
theorem Placed.readBytes {bytes : List UInt8} (h : Placed output place names text d d')
    (hnames : LeadsToFile names) (hother : LeadsToFile other) (hne : other ≠ names)
    (hread : d.readBytes (below output other) = .ok bytes) :
    d'.readBytes (below output other) = .ok bytes := by
  obtain ⟨hnameable, spot, hspot, hfree, hfile⟩ := Disk.readBytes_eq_ok_iff.mp hread
  obtain ⟨home, hhome, rfl⟩ := Disk.locate_append hother.above_not_mem hspot
  have hfolder := Disk.hasFolder_of_append hother.ne_nil hspot hhome
  obtain rfl : home = place := Except.ok.inj ((h.grows.locate hhome).symm.trans h.located)
  refine Disk.readBytes_eq_ok_iff.mpr ⟨hnameable, _, h.grows.locate hspot, ?_, ?_⟩
  · -- a folder that is new is on the way to the other file, where no name has a dot
    refine Bool.eq_false_iff.mpr fun hmade ↦ ?_
    rcases h.made _ hmade with hold | ⟨ns, hns, hlocate⟩
    · rw [hold] at hfree
      cases hfree
    · rcases List.prefix_or_prefix_of_prefix hns (List.prefix_append output.names _) with
        hup | ⟨deep, rfl⟩
      · obtain ⟨mid, hmid, hthere⟩ := Disk.exists_folder_of_prefix hup hhome hfolder
        rw [h.grows.locate hmid] at hlocate
        cases hlocate
        rw [hthere] at hfree
        cases hfree
      · rw [List.prefix_append_right_inj] at hns
        have hdeep : Path.above ∉ deep :=
          fun hmem ↦ hnames.above_not_mem_dropLast (hns.subset hmem)
        obtain ⟨mid, hmid, heq⟩ := Disk.locate_append hdeep hlocate
        rw [h.located] at hmid
        cases hmid
        rw [← List.append_cancel_left heq] at hns
        exact hnames.not_prefix_dropLast hother hns
  · rw [h.files _ fun heq ↦ hne (List.append_cancel_left heq), hfile]

section Sequence

variable {entries : List (List String × String)}

/-- Puts several files below a folder. -/
def placeAll (output : Path) (d : Disk) : List (List String × String) → Except Failure Disk
  | [] => .ok d
  | (names, text) :: rest => do placeAll output (← placeFile d (below output names) text) rest

theorem placeAll_append {before : List (List String × String)} :
    placeAll output d (before ++ entries) = .ok d' ↔
      ∃ mid, placeAll output d before = .ok mid ∧ placeAll output mid entries = .ok d' := by
  induction before generalizing d with
  | nil => simp [placeAll]
  | cons e rest ih =>
      rw [List.cons_append, placeAll, placeAll, bind_eq_ok]
      simp only [ih, bind_eq_ok]
      constructor
      · rintro ⟨next, hnext, mid, hmid, h⟩
        exact ⟨mid, ⟨next, hnext, hmid⟩, h⟩
      · rintro ⟨mid, ⟨next, hnext, hmid⟩, h⟩
        exact ⟨next, hnext, mid, hmid, h⟩

theorem readBytes_placeAll {bytes : List UInt8} (h : placeAll output d entries = .ok d')
    (hentries : ∀ e ∈ entries, LeadsToFile e.1) (hother : LeadsToFile other)
    (hnew : other ∉ entries.map Prod.fst) (hread : d.readBytes (below output other) = .ok bytes) :
    d'.readBytes (below output other) = .ok bytes := by
  induction entries generalizing d with
  | nil =>
      cases h
      exact hread
  | cons e rest ih =>
      rw [List.forall_mem_cons] at hentries
      rw [List.map_cons, List.mem_cons, not_or] at hnew
      obtain ⟨next, hnext, h⟩ := bind_eq_ok.mp h
      obtain ⟨place, hplaced⟩ := placed_of_placeFile hentries.1 hnext
      exact ih h hentries.2 hnew.2 (hplaced.readBytes hentries.1 hother hnew.1 hread)

/-- The last file that was put under some names is there in the end. -/
theorem readBytes_of_placeAll {before after : List (List String × String)}
    (h : placeAll output d (before ++ (names, text) :: after) = .ok d')
    (hentries : ∀ e ∈ before ++ (names, text) :: after, LeadsToFile e.1)
    (hlast : names ∉ after.map Prod.fst) :
    d'.readBytes (below output names) = .ok text.toUTF8.toList := by
  rw [List.forall_mem_append, List.forall_mem_cons] at hentries
  obtain ⟨mid, -, h⟩ := placeAll_append.mp h
  obtain ⟨next, hnext, h⟩ := bind_eq_ok.mp h
  obtain ⟨place, hplaced⟩ := placed_of_placeFile hentries.2.1 hnext
  exact readBytes_placeAll h hentries.2.2 hentries.2.1 hlast hplaced.readable

theorem grows_placeAll (h : placeAll output d entries = .ok d')
    (hentries : ∀ e ∈ entries, LeadsToFile e.1) : d.Grows d' := by
  induction entries generalizing d with
  | nil =>
      cases h
      exact .refl _
  | cons e rest ih =>
      rw [List.forall_mem_cons] at hentries
      obtain ⟨next, hnext, h⟩ := bind_eq_ok.mp h
      obtain ⟨_, hplaced⟩ := placed_of_placeFile hentries.1 hnext
      exact hplaced.grows.trans (ih h hentries.2)

theorem exists_locate_of_placeAll (h : placeAll output d entries = .ok d')
    (hentries : ∀ e ∈ entries, LeadsToFile e.1) (hne : entries ≠ []) :
    ∃ place, d'.locate output = .ok place := by
  cases entries with
  | nil => exact (hne rfl).elim
  | cons e rest =>
      rw [List.forall_mem_cons] at hentries
      obtain ⟨next, hnext, h⟩ := bind_eq_ok.mp h
      obtain ⟨place, hplaced⟩ := placed_of_placeFile hentries.1 hnext
      exact ⟨place, (grows_placeAll h hentries.2).locate hplaced.located⟩

/-- Only files below the folder change. -/
theorem prefix_of_placeAll (h : placeAll output d entries = .ok d')
    (hentries : ∀ e ∈ entries, LeadsToFile e.1) (hplace : d'.locate output = .ok place)
    (l : Location) (hl : d'.file? l ≠ d.file? l) : place <+: l := by
  induction entries generalizing d with
  | nil =>
      cases h
      exact (hl rfl).elim
  | cons e rest ih =>
      rw [List.forall_mem_cons] at hentries
      obtain ⟨next, hnext, h⟩ := bind_eq_ok.mp h
      obtain ⟨home, hplaced⟩ := placed_of_placeFile hentries.1 hnext
      obtain rfl : home = place := Except.ok.inj
        (((grows_placeAll h hentries.2).locate hplaced.located).symm.trans hplace)
      by_cases hnow : l = home ++ e.1
      · rw [hnow]
        exact List.prefix_append _ _
      · refine ih h hentries.2 ?_
        rwa [hplaced.files l hnow]

end Sequence

end SafeMarkdown.Site

namespace SafeMarkdown

theorem Slug.of_mem_hyphenate {c : Char} {inRun : Bool} {s : List Char}
    (h : c ∈ hyphenate inRun s) : Text.isAlphanumeric c = true ∨ c = '-' := by
  induction s generalizing inRun with
  | nil => cases h
  | cons d rest ih =>
      rw [hyphenate] at h
      split at h
      · rename_i hd
        rcases List.mem_cons.mp h with rfl | h
        · exact .inl hd
        · exact ih h
      · split at h
        · exact ih h
        · rcases List.mem_cons.mp h with rfl | h
          · exact .inr rfl
          · exact ih h

theorem Slug.of_mem_ofText {c : Char} {s : String} (h : c ∈ (ofText s).toList) :
    Text.isAlphanumeric c = true ∨ c = '-' := by
  rw [ofText, String.toList_ofList] at h
  exact of_mem_hyphenate (Text.mem_of_mem_trimWhile h)

namespace Site

/-- A part of a slug between slashes. -/
structure IsSegment (s : String) : Prop where
  ne_empty : s ≠ ""
  plain : ∀ c ∈ s.toList, c ≠ '.' ∧ c ≠ '/'

theorem isSegment_segment (name : String) : IsSegment (segment name) := by
  unfold segment
  dsimp only
  split
  · exact ⟨by decide, by simp⟩
  · rename_i hne
    refine ⟨by simpa using hne, fun c hc ↦ ?_⟩
    have hplain := Slug.of_mem_ofText hc
    constructor
    · rintro rfl
      revert hplain
      decide
    · rintro rfl
      revert hplain
      decide

/-- The names of the file of a slug that consists of segments. -/
def fileNames : List String → List String
  | [] => []
  | [s] => [s ++ ".json"]
  | s :: rest => s :: fileNames rest

theorem fileNames_cons_cons (s t : String) (rest : List String) :
    fileNames (s :: t :: rest) = s :: fileNames (t :: rest) :=
  rfl

theorem fileNames_concat (segments : List String) (s : String) :
    fileNames (segments ++ [s]) = segments ++ [s ++ ".json"] := by
  induction segments with
  | nil => rfl
  | cons t rest ih =>
      cases rest with
      | nil => rfl
      | cons u more =>
          rw [List.cons_append, List.cons_append, fileNames_cons_cons, ← List.cons_append, ih]
          rfl

theorem exists_concat {α : Type} {as : List α} (h : as ≠ []) : ∃ init last, as = init ++ [last] :=
  ⟨as.dropLast, as.getLast h, (List.dropLast_concat_getLast h).symm⟩

theorem ne_of_length_lt {s other : String} (h : other.length < 5) : s ++ ".json" ≠ other := by
  rintro rfl
  rw [String.length_append] at h
  exact absurd h (Nat.not_lt.mpr (Nat.le_add_left _ _))

theorem leadsToFile_fileNames {segments : List String} (hne : segments ≠ [])
    (h : ∀ s ∈ segments, IsSegment s) : LeadsToFile (fileNames segments) := by
  obtain ⟨init, last, rfl⟩ := exists_concat hne
  rw [List.forall_mem_append, List.forall_mem_singleton] at h
  rw [fileNames_concat]
  refine ⟨fun f hf ↦ ?_, last ++ ".json", List.getLast?_concat, ?_, fun heq ↦ ?_⟩
  · rw [List.dropLast_concat] at hf
    exact fun hdot ↦ ((h.1 f hf).plain '.' hdot).1 rfl
  · rw [String.toList_append]
    exact List.mem_append_right _ (by decide)
  · exact ne_of_length_lt (by decide) heq

theorem fileNames_injective {ss ts : List String} (hs : ss ≠ []) (ht : ts ≠ [])
    (h : fileNames ss = fileNames ts) : ss = ts := by
  obtain ⟨init, last, rfl⟩ := exists_concat hs
  obtain ⟨init', last', rfl⟩ := exists_concat ht
  rw [fileNames_concat, fileNames_concat] at h
  obtain ⟨rfl, hlast⟩ := List.append_inj' h rfl
  rw [List.cons.injEq, String.append_left_inj] at hlast
  rw [hlast.1]

section Segments

variable {init : List String} {last ext : String}

/-- A segment, with anything behind it, is a name that counts. -/
theorem IsSegment.counts (h : IsSegment last) (ext : String) :
    (!(last ++ ext).toList.isEmpty && (last ++ ext).toList != ['.']) = true := by
  rw [String.toList_append]
  cases hchars : last.toList with
  | nil => exact (h.ne_empty (String.toList_inj.mp hchars)).elim
  | cons c cs =>
      have hc := (h.plain c (by rw [hchars]; exact List.mem_cons_self)).1
      rw [Bool.and_eq_true, bne_iff_ne]
      exact ⟨rfl, fun heq ↦ hc (List.cons.inj heq).1⟩

/-- The names in the path of a slug with an ending are its segments, the last one with the ending. -/
theorem splitAtEach_segments (hinit : ∀ s ∈ init, IsSegment s) (hlast : IsSegment last)
    (hext : '/' ∉ ext.toList) :
    Text.splitAtEach (· == '/') ("/".intercalate (init ++ [last]) ++ ext).toList =
      (init ++ [last ++ ext]).map String.toList := by
  have hplain {s : String} (hs : IsSegment s) : ∀ c ∈ s.toList, (c == '/') = false :=
    fun c hc ↦ beq_eq_false_iff_ne.mpr (hs.plain c hc).2
  induction init with
  | nil =>
      rw [List.nil_append, String.intercalate_singleton, Text.splitAtEach_of_forall]
      · rfl
      · rw [String.toList_append, List.forall_mem_append]
        exact ⟨hplain hlast, fun c hc ↦ beq_eq_false_iff_ne.mpr fun heq ↦ hext (heq ▸ hc)⟩
  | cons s rest ih =>
      rw [List.forall_mem_cons] at hinit
      have hslash : ("/" : String).toList = ['/'] := rfl
      rw [List.cons_append, String.intercalate_cons_of_ne_nil (by simp), String.append_assoc,
        String.append_assoc, String.toList_append, String.toList_append, hslash,
        List.singleton_append, Text.splitAtEach_append (hplain hinit.1) rfl, ih hinit.2,
        List.cons_append, List.map_cons]

theorem rootSlashes_of_append {s : String} (hs : IsSegment s) (rest : List Char) :
    Path.rootSlashes (s.toList ++ rest) = 0 := by
  cases hchars : s.toList with
  | nil => exact (hs.ne_empty (String.toList_inj.mp hchars)).elim
  | cons c cs =>
      have hc := (hs.plain c (by rw [hchars]; exact List.mem_cons_self)).2
      rw [Path.rootSlashes, List.cons_append, List.takeWhile_cons_of_neg (by simpa using hc)]
      rfl

theorem path_of_concat (hinit : ∀ s ∈ init, IsSegment s) (hlast : IsSegment last)
    (hext : '/' ∉ ext.toList) :
    Path.ofText ("/".intercalate (init ++ [last]) ++ ext) = ⟨0, init ++ [last ++ ext]⟩ := by
  rw [Path.ofText, Path.mk.injEq]
  constructor
  · -- the text starts with the first segment
    cases init with
    | nil =>
        rw [List.nil_append, String.intercalate_singleton, String.toList_append]
        exact rootSlashes_of_append hlast _
    | cons s rest =>
        rw [List.cons_append, String.intercalate_cons_of_ne_nil (by simp), String.append_assoc,
          String.append_assoc, String.toList_append]
        exact rootSlashes_of_append (hinit s List.mem_cons_self) _
  · have hcount : ∀ s ∈ init, (!s.toList.isEmpty && s.toList != ['.']) = true := by
      intro s hs
      have hself := (hinit s hs).counts ""
      rwa [String.append_empty] at hself
    rw [Path.namesOf, splitAtEach_segments hinit hlast hext, List.filter_eq_self.mpr]
    · rw [List.map_map, Function.comp_def]
      simp only [String.ofList_toList, List.map_id']
    · rw [List.forall_mem_map, List.forall_mem_append, List.forall_mem_singleton]
      exact ⟨hcount, hlast.counts ext⟩

end Segments

theorem path_of_segments {segments : List String} (hne : segments ≠ [])
    (h : ∀ s ∈ segments, IsSegment s) :
    Path.ofText ("/".intercalate segments ++ ".json") = ⟨0, fileNames segments⟩ := by
  obtain ⟨init, last, rfl⟩ := exists_concat hne
  rw [List.forall_mem_append, List.forall_mem_singleton] at h
  rw [path_of_concat h.1 h.2 (by decide), fileNames_concat]

/-- What a slug of a document is made of. -/
def IsSlug (slug : String) : Prop :=
  ∃ segments, segments ≠ [] ∧ (∀ s ∈ segments, IsSegment s) ∧ slug = "/".intercalate segments

theorem isSlug_slugOfNames {names : List String} (h : names ≠ []) : IsSlug (slugOfNames names) := by
  refine ⟨_, ?_, ?_, rfl⟩
  · match names with
    | [name] => exact List.cons_ne_nil _ _
    | name :: next :: rest => exact List.cons_ne_nil _ _
  · rw [List.forall_mem_map]
    exact fun name _ ↦ isSegment_segment name

/-- The names that lead from the output folder to the file of a slug. -/
def namesOfSlug (slug : String) : List String :=
  (Path.ofText (slug ++ ".json")).names

namespace IsSlug

variable {slug other : String}

theorem documentPath_eq (h : IsSlug slug) (output : Path) :
    documentPath output slug = below output (namesOfSlug slug) := by
  obtain ⟨segments, hne, hsegments, rfl⟩ := h
  rw [documentPath, namesOfSlug, path_of_segments hne hsegments]
  rfl

theorem leadsToFile (h : IsSlug slug) : LeadsToFile (namesOfSlug slug) := by
  obtain ⟨segments, hne, hsegments, rfl⟩ := h
  rw [namesOfSlug, path_of_segments hne hsegments]
  exact leadsToFile_fileNames hne hsegments

theorem namesOfSlug_injective (h : IsSlug slug) (hother : IsSlug other)
    (heq : namesOfSlug slug = namesOfSlug other) : slug = other := by
  obtain ⟨segments, hne, hsegments, rfl⟩ := h
  obtain ⟨segments', hne', hsegments', rfl⟩ := hother
  rw [namesOfSlug, namesOfSlug, path_of_segments hne hsegments, path_of_segments hne' hsegments']
    at heq
  rw [fileNames_injective hne hne' heq]

end IsSlug

/-- The index has the file of a slug of its own. -/
theorem isSlug_index : IsSlug "index" :=
  ⟨["index"], List.cons_ne_nil _ _, List.forall_mem_singleton.mpr ⟨by decide, by simp⟩, rfl⟩

theorem indexPath_eq (output : Path) : indexPath output = below output (namesOfSlug "index") :=
  rfl

end Site

end SafeMarkdown
