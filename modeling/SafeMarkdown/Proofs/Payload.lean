import SafeMarkdown.Proofs.Json.ReadBack
import SafeMarkdown.Proofs.Outline
import SafeMarkdown.Proofs.Tree.Stored
import SafeMarkdown.Proofs.Tree.Storable

/-!
# Payloads and their digests

The body of a payload is the text of the tree. A tree of JSON values has a payload when the ids of
its headings are texts, since an outline lists these ids; the tree is then read back from the body
but for the order of fields, and the body is the canonical text of the value that is read from it.

The text of which a digest is taken has the canonical text of the tree in front, and that ends with
the brace of the tree's object. So both halves can be read off it, and two such texts are equal
exactly when the trees and the metadata are the same but for the order of fields.
-/

namespace SafeMarkdown

open Value

namespace Json

/-- A canonical text is the canonical text of the value that it holds. -/
theorem canonical_sorted {v : Value} (h : v.IsJson) :
    canonical (sorted v) = .ok (canonicalText v) := by
  rw [canonical_of_isPlain (isPlain_of_isJson _ (isJson_sorted v h)), canonicalText, canonicalText,
    sorted_sorted v h]

theorem parse?_canonicalText {v : Value} (h : v.IsJson) :
    parse? (canonicalText v).toList = some (sorted v) := by
  rw [canonicalText, String.toList_ofList]
  exact parse?_compact (isJson_sorted v h)

end Json

namespace Payload

open Node

/-- Whether the id under which an outline would list a node is a text. -/
def IsListable (n : Node) : Prop :=
  n.isNamedHeading = true → ((n.attrs.get? "id").bind str?).isSome = true

instance (n : Node) : Decidable (IsListable n) :=
  inferInstanceAs (Decidable (_ → _))

theorem headingRef_returns {n : Node} (h : IsListable n) : ∃ entry, headingRef n = .ok entry := by
  cases hnamed : n.isNamedHeading with
  | false => exact ⟨none, headingRef_of_not_named hnamed⟩
  | true =>
      have hid := h hnamed
      rw [isNamedHeading, Bool.and_eq_true, Option.isSome_iff_exists] at hnamed
      obtain ⟨⟨level, hlevel⟩, htruthy⟩ := hnamed
      cases hget : n.attrs.get? "id" with
      | none =>
          rw [hget] at htruthy
          cases htruthy
      | some v =>
          rw [hget, Option.any_some] at htruthy
          rw [hget, Option.bind_some] at hid
          cases v with
          | str slug =>
              rw [headingRef, hlevel, hget]
              exact ⟨_, if_pos htruthy⟩
          | null | bool _ | int _ | float _ | bytes _ | date _ | moment _ | arr _ | obj _ =>
              cases hid

theorem headingRefs_returns {ns : List Node} (h : ∀ n ∈ ns, IsListable n) :
    ∃ entries, headingRefs ns = .ok entries := by
  induction ns with
  | nil => exact ⟨[], rfl⟩
  | cons n rest ih =>
      rw [List.forall_mem_cons] at h
      obtain ⟨entry, hentry⟩ := headingRef_returns h.1
      obtain ⟨others, hothers⟩ := ih h.2
      refine ⟨entry.toList ++ others, ?_⟩
      rw [headingRefs, hentry, hothers]
      rfl

theorem digestOf_returns {fm : FrontMatter} (h : Json.unwritable (.obj fm.toFields) = none)
    (body : String) : ∃ digest, digestOf body fm = .ok digest := by
  rw [digestOf, digestInput, Json.canonical, h]
  exact ⟨_, rfl⟩

section RoundTrip

variable {tree : Node} {fm : FrontMatter} {p : Payload}

theorem body_of_ofTree {warnings : List String} (h : ofTree tree fm warnings = .ok p) :
    p.body = tree.canonicalText := by
  obtain ⟨headings, -, h⟩ := bind_eq_ok.mp h
  obtain ⟨digest, -, h⟩ := bind_eq_ok.mp h
  cases h
  rfl

theorem ofTree_returns (hlist : tree.All IsListable)
    (hfm : Json.unwritable (.obj fm.toFields) = none) (warnings : List String) :
    ∃ p, ofTree tree fm warnings = .ok p := by
  obtain ⟨headings, hheadings⟩ := headingRefs_returns hlist
  obtain ⟨digest, hdigest⟩ := digestOf_returns hfm tree.canonicalText
  refine ⟨⟨1, tree.canonicalText, headings, warnings, digest⟩, ?_⟩
  rw [ofTree, outline, hheadings, hdigest]
  rfl

/-- From the canonical text of a tree of JSON values its tree is read. -/
theorem tree_of_body (hbody : p.body = tree.canonicalText) (hjson : tree.All Node.IsJson) :
    Json.parse? p.body.toList = some (Json.sorted tree.toValue) ∧
      ∃ out, p.tree = .ok out ∧ tree.Alike out := by
  have hparse : Json.parse? p.body.toList = some (Json.sorted tree.toValue) := by
    rw [hbody]
    exact Json.parse?_canonicalText (isJson_toValue tree hjson)
  obtain ⟨out, hout, halike⟩ := ofValue_sorted tree hjson
  refine ⟨hparse, out, ?_, halike⟩
  rw [Payload.tree, hparse]
  dsimp only
  rw [hout]

/-- A tree of JSON values whose listed ids are texts has a payload, which holds that tree but for the
order of fields. Its body leaves out what is the default and is canonical. -/
theorem ofTree_read_back (tree : Node) (fm : FrontMatter) (warnings : List String)
    (hjson : tree.All Node.IsJson) (hlist : tree.All IsListable)
    (hfm : Json.unwritable (.obj fm.toFields) = none) :
    ∃ p out v, ofTree tree fm warnings = .ok p ∧ p.tree = .ok out ∧ tree.Alike out ∧
      Json.parse? p.body.toList = some v ∧ tree.IsWritten v ∧ Json.canonical v = .ok p.body := by
  obtain ⟨p, hp⟩ := ofTree_returns hlist hfm warnings
  have hbody : p.body = Json.canonicalText tree.toValue := body_of_ofTree hp
  obtain ⟨hparse, out, hout, halike⟩ := tree_of_body hbody hjson
  refine ⟨p, out, _, hp, hout, halike, hparse, isWritten_sorted tree, ?_⟩
  rw [hbody]
  exact Json.canonical_sorted (isJson_toValue tree hjson)

/-- The payload of a tree whose values are stored as values of JSON holds the tree as it is stored,
but for the order of fields. -/
theorem ofTree_stored (warnings : List String) (hjson : tree.All Node.StoresJson)
    (hlist : tree.All IsListable) (hfm : Json.unwritable (.obj fm.toFields) = none) :
    ∃ p out, ofTree tree fm warnings = .ok p ∧ p.tree = .ok out ∧ tree.asStored.Alike out := by
  obtain ⟨p, hp⟩ := ofTree_returns hlist hfm warnings
  have hbody : p.body = tree.asStored.canonicalText := by
    rw [canonicalText_asStored]
    exact body_of_ofTree hp
  obtain ⟨-, out, hout, halike⟩ := tree_of_body hbody (isJson_asStored tree hjson)
  exact ⟨p, out, hp, hout, halike⟩

end RoundTrip

section Samples

/-- The double nearest to a tenth. -/
def tenth : Double :=
  .finite false ⟨4591870180066957722, by decide⟩

/-- A heading and a chart; the fields of the heading are not in the order of their names. -/
def chartPage : Node :=
  root [
    element "h2"
      [("id", .str "intro"), ("data", .obj [("width", .int (-12)), ("scale", .arr [.null, .float tenth])])]
      [ofText "Intro"],
    component "Chart" [] [] [("inner", .str "")]]

theorem isJson_chartPage : chartPage.All Node.IsJson := by
  have hempty : Fields.IsJson [] := ⟨List.nodup_nil, trivial⟩
  have hscale : Value.IsJson (.arr [.null, .float tenth]) := ⟨trivial, ⟨_, _, rfl⟩, trivial⟩
  have hwidth : Value.IsJson (.int (-12)) := by
    rw [Value.IsJson]
    decide
  intro m hm
  simp only [chartPage, root, element, component, ofText, walk_mk, walk.walkAll] at hm
  simp only [List.mem_cons, List.mem_append, List.not_mem_nil, or_false] at hm
  rcases hm with rfl | (rfl | rfl) | rfl
  · exact ⟨hempty, hempty⟩
  · exact ⟨⟨by decide, trivial, ⟨by decide, hwidth, hscale, trivial⟩, trivial⟩, hempty⟩
  · exact ⟨hempty, hempty⟩
  · exact ⟨hempty, by decide, trivial, trivial⟩

theorem ofTree_read_back_chartPage :
    chartPage.All Node.IsJson ∧ chartPage.All IsListable ∧
      Json.unwritable (.obj ({} : FrontMatter).toFields) = none ∧
      ∃ p out v, ofTree chartPage {} [] = .ok p ∧ p.tree = .ok out ∧ chartPage.Alike out ∧
        Json.parse? p.body.toList = some v ∧ chartPage.IsWritten v ∧
        Json.canonical v = .ok p.body :=
  ⟨isJson_chartPage, by decide, rfl,
    ofTree_read_back chartPage {} [] isJson_chartPage (by decide) rfl⟩

/-- A heading whose id is a number cannot be listed, so its tree has no payload. -/
theorem ofTree_numbered_heading :
    (root [element "h1" [("id", .int 5)] []]).All Node.IsJson ∧
      ofTree (root [element "h1" [("id", .int 5)] []]) {} [] =
        .error (.invalid [("slug", "string_type")]) := by
  refine ⟨?_, rfl⟩
  intro m hm
  simp only [root, element, walk_mk, walk.walkAll] at hm
  simp only [List.mem_cons, List.append_nil, List.not_mem_nil, or_false] at hm
  rcases hm with rfl | rfl
  · exact ⟨⟨List.nodup_nil, trivial⟩, ⟨List.nodup_nil, trivial⟩⟩
  · exact ⟨⟨by decide, by rw [Value.IsJson]; decide, trivial⟩, ⟨List.nodup_nil, trivial⟩⟩

end Samples

end Payload

end SafeMarkdown

namespace SafeMarkdown.Payload

open Node Value

/-- Metadata that can be told from its text; its numbers may be infinite or none. -/
abbrev IsPlainMetadata (fm : FrontMatter) : Prop :=
  fm.toFields.IsPlain fun _ ↦ True

section Digests

variable {t u : Node} {fm gm : FrontMatter}

theorem digestInput_of_isPlain (body : String) (h : IsPlainMetadata fm) :
    digestInput body fm = .ok (body ++ "\n" ++ Json.canonicalText (.obj fm.toFields)) := by
  rw [digestInput, Json.canonical_of_isPlain (by rwa [Value.IsPlain])]
  rfl

theorem canonicalText_toFields_eq_iff (hfm : IsPlainMetadata fm) (hgm : IsPlainMetadata gm) :
    Json.canonicalText (.obj fm.toFields) = Json.canonicalText (.obj gm.toFields) ↔
      fm.toFields.Alike gm.toFields := by
  rw [Json.canonicalText_eq_iff (by rwa [Value.IsPlain]) (by rwa [Value.IsPlain]), alike_obj_iff]

theorem canonicalText_append_inj (ht : t.All Node.IsPlain) (hu : u.All Node.IsPlain)
    {r r' : String} (h : t.canonicalText ++ r = u.canonicalText ++ r') :
    t.canonicalText = u.canonicalText ∧ r = r' := by
  obtain ⟨fs, hfs, hfsplain⟩ := toValue_eq_obj ht
  obtain ⟨gs, hgs, hgsplain⟩ := toValue_eq_obj hu
  rw [canonicalText, canonicalText, hfs, hgs] at h ⊢
  exact Json.canonicalText_append_inj hfsplain hgsplain h

/-- The digests of two rendered documents are taken of equal texts exactly when the trees and the
metadata are the same but for the order of fields. -/
theorem digestInput_eq_iff (t u : Node) (fm gm : FrontMatter) (ht : t.All Node.IsPlain)
    (hu : u.All Node.IsPlain) (hfm : IsPlainMetadata fm) (hgm : IsPlainMetadata gm) :
    ∃ s r, digestInput t.canonicalText fm = .ok s ∧ digestInput u.canonicalText gm = .ok r ∧
      digestOf t.canonicalText fm = .ok (Sha256.hex s.toUTF8.toList) ∧
      digestOf u.canonicalText gm = .ok (Sha256.hex r.toUTF8.toList) ∧
      (s = r ↔ t.Alike u ∧ fm.toFields.Alike gm.toFields) := by
  have hs := digestInput_of_isPlain t.canonicalText hfm
  have hr := digestInput_of_isPlain u.canonicalText hgm
  refine ⟨_, _, hs, hr, ?_, ?_, ?_⟩
  · rw [digestOf, hs]
    rfl
  · rw [digestOf, hr]
    rfl
  · rw [← canonicalText_eq_iff ht hu, ← canonicalText_toFields_eq_iff hfm hgm]
    constructor
    · intro htext
      rw [String.append_assoc, String.append_assoc] at htext
      -- the text of the tree ends by itself, whatever the metadata are
      obtain ⟨htree, hrest⟩ := canonicalText_append_inj ht hu htext
      exact ⟨htree, (String.append_right_inj "\n").mp hrest⟩
    · rintro ⟨htree, hrest⟩
      rw [htree, hrest]

/-- A page with one chart, whose width and kind are given in some order. -/
def chartPageOf (attrs : Fields) : Node :=
  root [component "Chart" attrs [] []]

theorem isPlain_chartPageOf {attrs : Fields} (h : attrs.IsPlain Double.IsFinite) :
    (chartPageOf attrs).All Node.IsPlain := by
  have hempty : Fields.IsPlain Double.IsFinite [] := ⟨List.nodup_nil, trivial⟩
  intro m hm
  simp only [chartPageOf, root, component, walk_mk, walk.walkAll, List.mem_cons, List.append_nil,
    List.not_mem_nil, or_false] at hm
  rcases hm with rfl | rfl
  · exact ⟨hempty, hempty⟩
  · exact ⟨h, hempty⟩

def rankedDraft (rank : Value) : FrontMatter :=
  { title := some "A", extra := [("draft", .bool true), ("rank", rank)] }

def draftRanked (rank : Value) : FrontMatter :=
  { title := some "A", extra := [("rank", rank), ("draft", .bool true)] }

/-- The order of fields is not covered, and a whole number is told from the double of its size. -/
theorem digestInput_eq_iff_reordered :
    let t := chartPageOf [("width", .int 1), ("kind", .str "bar")]
    let u := chartPageOf [("kind", .str "bar"), ("width", .int 1)]
    let fm := rankedDraft (.int 1)
    let gm := draftRanked (.int 1)
    let hm := rankedDraft (.float (.ofDecimal false 1 0))
    t.All Node.IsPlain ∧ u.All Node.IsPlain ∧
      IsPlainMetadata fm ∧ IsPlainMetadata gm ∧ IsPlainMetadata hm ∧
      (∃ s r, digestInput t.canonicalText fm = .ok s ∧ digestInput u.canonicalText gm = .ok r ∧
        s = r) ∧
      ∃ s r, digestInput t.canonicalText fm = .ok s ∧ digestInput t.canonicalText hm = .ok r ∧
        s ≠ r := by
  intro t u fm gm hm
  have ht : t.All Node.IsPlain := isPlain_chartPageOf ⟨by decide, trivial, trivial, trivial⟩
  have hu : u.All Node.IsPlain := isPlain_chartPageOf ⟨by decide, trivial, trivial, trivial⟩
  have hfm : IsPlainMetadata fm := ⟨by decide, trivial, trivial, trivial, trivial⟩
  have hgm : IsPlainMetadata gm := ⟨by decide, trivial, trivial, trivial, trivial⟩
  have hhm : IsPlainMetadata hm := ⟨by decide, trivial, trivial, trivial, trivial⟩
  refine ⟨ht, hu, hfm, hgm, hhm, ?_, ?_⟩
  · obtain ⟨s, r, hs, hr, -, -, hiff⟩ := digestInput_eq_iff t u fm gm ht hu hfm hgm
    have hattrs : Fields.Alike [("width", .int 1), ("kind", .str "bar")]
        [("kind", .str "bar"), ("width", .int 1)] :=
      Fields.alike_of_perm (List.Perm.swap _ _ _)
    have htu : t.Alike u := .mk (.refl _) (.cons (.mk hattrs .nil (.refl _)) .nil) (.refl _)
    have hmetadata : fm.toFields.Alike gm.toFields :=
      Fields.alike_of_perm ((List.Perm.swap _ _ _).cons _)
    exact ⟨s, r, hs, hr, hiff.mpr ⟨htu, hmetadata⟩⟩
  · obtain ⟨s, r, hs, hr, -, -, hiff⟩ := digestInput_eq_iff t t fm hm ht ht hfm hhm
    refine ⟨s, r, hs, hr, fun heq ↦ ?_⟩
    obtain ⟨fields, hfields, hperm⟩ := (hiff.mp heq).2
    cases hfields with
    | cons _ _ hrest =>
      cases hrest with
      | cons _ _ hrest =>
        cases hrest with
        | cons _ hone hrest =>
          cases hone
          cases hrest
          have hmem := hperm.mem_iff.mp (.tail _ (.tail _ (.head _)))
          simp [hm, rankedDraft, FrontMatter.toFields, FrontMatter.fieldOfOption] at hmem

end Digests

end SafeMarkdown.Payload
