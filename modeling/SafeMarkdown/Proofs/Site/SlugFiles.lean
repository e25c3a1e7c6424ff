import SafeMarkdown.Proofs.Site.Accounts
import SafeMarkdown.Proofs.Site.SlugNames
import SafeMarkdown.Proofs.Slug.Normal

/-!
# The slugs of files that slugs spell out

The slug of a file has one segment for each name that leads to it, and each segment is a slug of its
own. So a file that is named for a slug, with any suffix, goes by that slug again.
-/

namespace SafeMarkdown.Slug

/-- A full stop behind a slug is dropped again. -/
theorem ofText_append_dot {s : String} (h : ofText s = s) : ofText (s ++ ".") = s := by
  have hlower : ∀ c ∈ s.toList, Text.IsLower c := fun c hc ↦
    isLower_of_mem_ofText (s := s) (by rwa [h])
  have hdot : Text.IsLower '.' := Text.isLower_toLower (c := '.') (by decide)
  have hruns : runs (s ++ ".") = runs s := by
    have hall : ∀ c ∈ s.toList ++ ['.'], Text.IsLower c :=
      List.forall_mem_append.mpr ⟨hlower, List.forall_mem_singleton.mpr hdot⟩
    have hchars : (s ++ ".").toList = s.toList ++ ['.'] := String.toList_append
    have hself : Text.lower s.toList = s.toList := Text.lowerAfter_eq_self hlower
    have hmore : Text.lower (s.toList ++ ['.']) = s.toList ++ ['.'] := Text.lowerAfter_eq_self hall
    rw [runs, runs, hchars, hmore, hself, Text.splitRuns_concat (by decide)]
  rw [ofText_eq_intercalate_runs, hruns, ← ofText_eq_intercalate_runs, h]

end SafeMarkdown.Slug

namespace SafeMarkdown.Path

theorem stemNames_concat (init : List String) (last : String) :
    stemNames (init ++ [last]) = init ++ [stem last] := by
  induction init with
  | nil => rfl
  | cons name rest ih =>
      cases rest with
      | nil => rfl
      | cons next more =>
          rw [List.cons_append, List.cons_append, stemNames, ← List.cons_append, ih]
          · rfl
          · exact List.cons_ne_nil _ _

theorem stemNames_length (names : List String) : (stemNames names).length = names.length := by
  rcases List.eq_nil_or_concat names with rfl | ⟨init, last, rfl⟩
  · rfl
  · rw [List.concat_eq_append, stemNames_concat, List.length_append, List.length_append]
    rfl

/-- The suffix of a name is taken off, unless it is nothing but a full stop. -/
theorem stem_append {name ending : String} (hname : name ≠ "") (hdot : '.' ∉ ending.toList) :
    stem (name ++ "." ++ ending) = if ending = "" then name ++ "." else name := by
  have hback : (name ++ "." ++ ending).toList.reverse =
      ending.toList.reverse ++ '.' :: name.toList.reverse := by
    simp
  have hscan : (ending.toList.reverse ++ '.' :: name.toList.reverse).takeWhile (· != '.') =
      ending.toList.reverse := by
    rw [List.takeWhile_append_of_pos, List.takeWhile_cons_of_neg (by simp), List.append_nil]
    intro c hc
    exact bne_iff_ne.mpr fun heq ↦ hdot (heq ▸ List.mem_reverse.mp hc)
  have hrest : ((ending.toList.reverse ++ '.' :: name.toList.reverse).drop
      (ending.toList.reverse.length + 1)).reverse = name.toList := by
    rw [← List.drop_drop, List.drop_left, List.drop_one, List.tail_cons, List.reverse_reverse]
  have hkept : name.toList.isEmpty = false :=
    List.isEmpty_eq_false_iff.mpr fun hnil ↦ hname (String.toList_inj.mp hnil)
  rw [stem, splitSuffix, hback, hscan, hrest, hkept, Bool.or_false]
  by_cases hending : ending = ""
  · rw [if_pos hending, hending]
    simp
  · have hchars : ending.toList.reverse.isEmpty = false := by
      simpa [List.isEmpty_eq_false_iff] using hending
    rw [if_neg hending, hchars, if_neg Bool.false_ne_true]
    exact String.ofList_toList

end SafeMarkdown.Path

namespace SafeMarkdown.Site

variable {p root : Path} {names : List String}

theorem ofText_segment (name : String) : Slug.ofText (segment name) = segment name := by
  unfold segment
  dsimp only
  split
  · decide +kernel
  · exact Slug.ofText_ofText name

/-- A name that is spelled like a segment, with any suffix, has that segment. -/
theorem segment_stem (name : String) {ending : String} (hdot : '.' ∉ ending.toList) :
    segment (Path.stem (segment name ++ "." ++ ending)) = segment name := by
  have hself := ofText_segment name
  have hne := (isSegment_segment name).ne_empty
  rw [Path.stem_append hne hdot]
  split
  · rw [segment, Slug.ofText_append_dot hself, if_neg (by simpa using hne)]
  · rw [segment, hself, if_neg (by simpa using hne)]

theorem isNormal_segment (name : String) : Slug.IsNormal (segment name) := by
  rw [← ofText_segment]
  exact Slug.isNormal_ofText _

theorem segment_segment (name : String) : segment (segment name) = segment name := by
  rw [segment, ofText_segment, if_neg (by simpa using (isSegment_segment name).ne_empty)]

/-- The segments of the names that lead to a file. -/
def segments (names : List String) : List String :=
  (Path.stemNames names).map segment

theorem isSegment_of_mem_segments {s : String} (h : s ∈ segments names) :
    IsSegment s ∧ Slug.IsNormal s := by
  obtain ⟨name, -, rfl⟩ := List.mem_map.mp h
  exact ⟨isSegment_segment name, isNormal_segment name⟩

/-- A file that is named for a slug goes by that slug. -/
theorem segments_spelled (init : List String) (last : String) {ending : String}
    (hdot : '.' ∉ ending.toList) :
    segments (init.map segment ++ [segment last ++ "." ++ ending]) =
      init.map segment ++ [segment last] := by
  have hself : init.map (segment ∘ segment) = init.map segment :=
    List.map_congr_left fun name _ ↦ by rw [Function.comp_apply, segment_segment]
  rw [segments, Path.stemNames_concat, List.map_append, List.map_singleton,
    segment_stem last hdot, List.map_map, hself]

theorem slugFor_join (root : Path) (hne : names ≠ []) {ending : String}
    (hdot : '.' ∉ ending.toList) (hslash : '/' ∉ ending.toList) :
    slugFor (root.join (Path.ofText (slugOfNames names ++ "." ++ ending))) root =
      .ok (slugOfNames names) := by
  obtain ⟨init, last, rfl⟩ := exists_concat hne
  have hsegments : (Path.stemNames (init ++ [last])).map segment =
      init.map segment ++ [segment (Path.stem last)] := by
    rw [Path.stemNames_concat, List.map_append, List.map_singleton]
  have hinit : ∀ s ∈ init.map segment, IsSegment s :=
    List.forall_mem_map.mpr fun name _ ↦ isSegment_segment name
  have hsuffix : '/' ∉ ("." ++ ending).toList := by simpa using hslash
  rw [slugOfNames, hsegments, String.append_assoc,
    path_of_concat hinit (isSegment_segment _) hsuffix, ← String.append_assoc, Path.join,
    if_pos rfl]
  change slugFor (below root _) root = _
  rw [slugFor_below root (by simp)]
  exact congrArg (fun s ↦ Except.ok ("/".intercalate s)) (segments_spelled init (Path.stem last) hdot)

/-- A text has a slug in normal form that is its own slug. The slug of a file below a root has one
such segment for each name that leads to the file, and a file that is named for it, with any suffix,
goes by it again. -/
theorem slug_normalForm :
    (∀ text, Slug.ofText text = "-".intercalate (Slug.runs text) ∧ Slug.IsNormal (Slug.ofText text) ∧
      (Slug.ofText text).toList.head? ≠ some '-' ∧ (Slug.ofText text).toList.getLast? ≠ some '-' ∧
      Slug.ofText (Slug.ofText text) = Slug.ofText text) ∧
    ∀ p root names, Path.relativeTo p root = .ok names → names ≠ [] →
      ∃ segments, slugFor p root = .ok ("/".intercalate segments) ∧
        segments.length = names.length ∧
        (∀ s ∈ segments, s ≠ "" ∧ Slug.IsNormal s ∧ '.' ∉ s.toList ∧ '/' ∉ s.toList) ∧
        ∀ ending : String, '.' ∉ ending.toList → '/' ∉ ending.toList →
          slugFor (root.join (Path.ofText ("/".intercalate segments ++ "." ++ ending))) root =
            .ok ("/".intercalate segments) := by
  refine ⟨fun text ↦ ?_, fun p root names hnames hne ↦ ?_⟩
  · have hnormal := Slug.isNormal_ofText text
    exact ⟨Slug.ofText_eq_intercalate_runs text, hnormal, hnormal.not_hyphen.1,
      hnormal.not_hyphen.2, Slug.ofText_ofText text⟩
  · obtain rfl : p = below root names := by
      unfold Path.relativeTo at hnames
      split at hnames
      · rename_i hbelow
        cases hnames
        exact Path.below?_eq_some hbelow
      · cases hnames
    refine ⟨segments names, slugFor_below root hne, ?_, fun s hs ↦ ?_,
      fun ending hdot hslash ↦ slugFor_join root hne hdot hslash⟩
    · rw [segments, List.length_map, Path.stemNames_length]
    · obtain ⟨hsegment, hnormal⟩ := isSegment_of_mem_segments hs
      exact ⟨hsegment.ne_empty, hnormal, fun hmem ↦ (hsegment.plain _ hmem).1 rfl,
        fun hmem ↦ (hsegment.plain _ hmem).2 rfl⟩

/-- A file without a word in its name, in a folder with letters from beyond ASCII. -/
theorem slug_normalForm_unnamed :
    Path.relativeTo ⟨1, ["content", "Été 2024!", "___.md"]⟩ ⟨1, ["content"]⟩ =
      .ok ["Été 2024!", "___.md"] ∧
    slugFor ⟨1, ["content", "Été 2024!", "___.md"]⟩ ⟨1, ["content"]⟩ = .ok "été-2024/doc" ∧
    slugFor (Path.join ⟨1, ["content"]⟩ (Path.ofText "été-2024/doc.mdx")) ⟨1, ["content"]⟩ =
      .ok "été-2024/doc" := by
  have hnames : Path.relativeTo ⟨1, ["content", "Été 2024!", "___.md"]⟩ ⟨1, ["content"]⟩ =
      .ok ["Été 2024!", "___.md"] := rfl
  have hcomputed : (slugFor ⟨1, ["content", "Été 2024!", "___.md"]⟩ ⟨1, ["content"]⟩).toOption =
      some "été-2024/doc" := by
    decide +kernel
  obtain ⟨segments, hslug, -, -, hspelled⟩ := slug_normalForm.2 _ _ _ hnames (List.cons_ne_nil _ _)
  rw [hslug] at hcomputed
  have hsegments : "/".intercalate segments = "été-2024/doc" := Option.some.inj hcomputed
  rw [hsegments] at hslug hspelled
  exact ⟨hnames, hslug, hspelled "mdx" (by decide) (by decide)⟩

end SafeMarkdown.Site
