import Mathlib.Data.List.Nodup
import SafeMarkdown.Proofs.Footnote.Documents
import SafeMarkdown.Proofs.Footnote.Ids
import SafeMarkdown.Proofs.Footnote.Stages
import SafeMarkdown.Proofs.Pipeline.Anchors

/-!
# Footnotes and their links

The default pipeline over any document without raw markup: each link of a reference leads to one
element, the item of a footnote, unless a heading has taken its id; and each link back to a reference
leads to that reference, unless a heading has taken its id or the reference is not in the tree.
-/

namespace SafeMarkdown

open Node Markdown

namespace Node

/-- A node and the nodes below it, but for components that are going to be dropped and what is in
them. -/
def kept : Node → List Node
  | ⟨kind, tag, attrs, children, value, data⟩ =>
    if kind == .component && isDropped tag then []
    else ⟨kind, tag, attrs, children, value, data⟩ :: keptAll children
where
  keptAll : List Node → List Node
    | [] => []
    | n :: rest => kept n ++ keptAll rest

/-- Whether the link of a reference in a tree has an id. -/
def HasReference (tree : Node) (id : String) : Prop :=
  ∃ sup ∈ tree.kept, sup.isClassed "sup" "footnote-ref" = true ∧
    ∃ link ∈ sup.children, link.elementId? = some id

/-- How the footnotes of a document are linked in what has become of it. -/
structure FootnotesLinked (parsed out : Node) : Prop where
  references : ∀ sup ∈ out.walk, sup.isClassed "sup" "footnote-ref" = true →
    ∀ link ∈ sup.children, ∃ k : String,
      link.attrs.get? "href" = some (.str ("#fn-" ++ k)) ∧
      (elementIds [out]).count ("fn-" ++ k) = 1 ∧
      ∀ n ∈ out.walk, n.elementId? = some ("fn-" ++ k) →
        n.isClassed "li" "footnote-item" = true ∨ n.headingLevel.isSome = true
  backlinks : ∀ link ∈ out.walk, link.isClassed "a" "footnote-backref" = true →
    ∃ label : String,
      link.attrs.get? "href" = some (.str ("#fnref-" ++ label)) ∧
      (elementIds [out]).count ("fnref-" ++ label) ≤ 1 ∧
      (parsed.HasReference ("fnref-" ++ label) →
        (elementIds [out]).count ("fnref-" ++ label) = 1) ∧
      ∀ n ∈ out.walk, n.elementId? = some ("fnref-" ++ label) →
        n.isElement ["a"] = true ∧
          (∃ sup ∈ out.walk, sup.isClassed "sup" "footnote-ref" = true ∧ n ∈ sup.children) ∨
        n.headingLevel.isSome = true

variable {grade : Grade} {n : Node} {ns : List Node} {ps : List NotePart}

theorem mem_kept {m : Node} (h : m ∈ n.kept) :
    (n.kind = .component → isDropped n.tag = false) ∧ (m = n ∨ m ∈ kept.keptAll n.children) := by
  obtain ⟨kind, tag, attrs, children, value, data⟩ := n
  rw [kept] at h
  split at h
  · cases h
  · rename_i hkept
    refine ⟨fun hkind ↦ ?_, List.mem_cons.mp h⟩
    dsimp only at hkind
    simpa [hkind] using hkept

/-- Whether the superscripts of references among some nodes are parts of footnotes. -/
def KeepsReferences (ns : List Node) (ps : List NotePart) : Prop :=
  ∀ sup ∈ ns, sup.isClassed "sup" "footnote-ref" = true →
    ∃ k label, sup = footnoteReference k label ∧ .reference k label ∈ ps

theorem keepsReferences_of_children (h : Holds grade n ps)
    (hbelow : KeepsReferences (kept.keptAll n.children) ps) : KeepsReferences n.kept ps := by
  intro sup hsup hn
  rcases (mem_kept hsup).2 with rfl | hsup
  · obtain ⟨k, label, rfl, rfl⟩ := h.of_sup hn
    exact ⟨k, label, rfl, List.mem_singleton.mpr rfl⟩
  · exact hbelow sup hsup hn

theorem KeepsReferences.mono {qs : List NotePart} (h : KeepsReferences ns qs) (hsub : qs ⊆ ps) :
    KeepsReferences ns ps := by
  intro sup hsup hn
  obtain ⟨k, label, heq, hmem⟩ := h sup hsup hn
  exact ⟨k, label, heq, hsub hmem⟩

theorem keepsReferences_of_tag_ne (h : ∀ n ∈ ns, n.tag ≠ some "sup") : KeepsReferences ns ps := by
  intro sup hsup hn
  obtain ⟨htag, -⟩ := Bool.and_eq_true_iff.mp hn
  refine (h sup hsup ?_).elim
  have htag : sup.kind = .element ∧ sup.tag = some "sup" := by
    simpa [isElement, Option.any_eq_true] using htag
  exact htag.2

mutual

theorem Holds.keepsReferences : {n : Node} → {ps : List NotePart} → Holds grade n ps →
    KeepsReferences n.kept ps
  | _, _, .text value => keepsReferences_of_children (.text value : Holds grade _ _) nofun
  | _, _, .raw h value => keepsReferences_of_children (.raw h value) nofun
  | _, _, .reference k label => by
      refine keepsReferences_of_children (.reference k label : Holds grade _ _) ?_
      exact keepsReferences_of_tag_ne (by simp [footnoteReference, element, kept, kept.keptAll, ofText])
  | _, _, .backlink label => by
      refine keepsReferences_of_children (.backlink label : Holds grade _ _) ?_
      exact keepsReferences_of_tag_ne (by simp [footnoteBacklink, element, kept, kept.keptAll, ofText])
  | _, _, .item k classes h =>
      keepsReferences_of_children (.item k classes h)
        (h.keepsReferences.mono (List.subset_cons_self _ _))
  | _, _, .element hhead hcode h =>
      keepsReferences_of_children (.element hhead hcode h) h.keepsReferences
  | _, _, .component hdata hsafe h =>
      keepsReferences_of_children (.component hdata hsafe h) h.keepsReferences
  | _, _, .dropped hgrade hdata hdropped h => by
      intro sup hsup
      have hkept := (mem_kept hsup).1 rfl
      rw [hdropped] at hkept
      cases hkept
  | _, _, .root h => keepsReferences_of_children (.root h) h.keepsReferences

theorem HoldsAll.keepsReferences : {ns : List Node} → {ps : List NotePart} →
    HoldsAll grade ns ps → KeepsReferences (kept.keptAll ns) ps
  | _, _, .nil => List.forall_mem_nil _
  | _, _, .cons h hrest => by
      rw [kept.keptAll]
      exact List.forall_mem_append.mpr ⟨h.keepsReferences.mono (List.subset_append_left _ _),
        hrest.keepsReferences.mono (List.subset_append_right _ _)⟩

end

end Node

theorem fn_ne_fnref (k label : String) : "fn-" ++ k ≠ "fnref-" ++ label := by
  intro heq
  have hchars := congrArg String.toList heq
  simp [String.toList_append] at hchars

namespace Sanitizer

open Node

variable {n : Node} {ps : List NotePart} {reserved : List String} {parsed : Node}

/-- Once the ids of a tree are distinct, the links of the footnotes in it lead to their ends. -/
theorem footnotesLinked_distinctIds (h : Holds .clean n ps) (hanswered : Answered 0 ps)
    (hreserved : reservedIds n.walk = .ok reserved)
    (hparsed : ∀ id, parsed.HasReference id → ∃ p ∈ ps, p.id? = some id) :
    FootnotesLinked parsed (distinctIds reserved [] n).1 := by
  have htraced := traced_distinctIds reserved h []
  have hnodup := (allots_distinctIds reserved [] n).nodup
  have hpresent (id : String) (hpart : ∃ p ∈ ps, p.id? = some id) :
      (elementIds [(distinctIds reserved [] n).1]).count id = 1 := by
    have hmem := mem_elementIds_distinctIds hreserved h.all_flagged (h.mem_elementIds hpart)
    exact List.count_eq_one_of_mem hnodup hmem
  constructor
  · intro sup hsup hn link hlink
    obtain ⟨k, label, hmem, hlinks⟩ := (htraced sup hsup).reference hn
    have hitem : .item k ∈ ps := by
      rcases hanswered k label hmem with hitem | ⟨j, hj, -⟩
      · exact hitem
      · exact absurd hj (Nat.not_lt_zero j)
    refine ⟨k, hlinks link hlink, hpresent _ ⟨.item k, hitem, rfl⟩, fun x hx hid ↦ ?_⟩
    rcases (htraced x hx).id _ hid with hlevel | ⟨hitem, -⟩ | ⟨⟨-, label', heq⟩, -⟩
    · exact .inr hlevel
    · exact .inl hitem
    · exact (fn_ne_fnref k label' heq).elim
  · intro link hlink hn
    obtain ⟨label, -, hhref⟩ := (htraced link hlink).backlink hn
    refine ⟨label, hhref, List.nodup_iff_count_le_one.mp hnodup _, ?_, fun x hx hid ↦ ?_⟩
    · intro hreference
      exact hpresent _ (hparsed _ hreference)
    · rcases (htraced x hx).id _ hid with hlevel | ⟨-, k, heq⟩ | ⟨⟨ha, -⟩, hsup⟩
      · exact .inr hlevel
      · exact (fn_ne_fnref k label heq.symm).elim
      · exact .inl ⟨ha, hsup⟩

end Sanitizer

namespace Pipeline

/-- A document parsed and run through the default pipeline: the parsed tree and the result. -/
def parsedAndRun (body : String) : Logged (Node × Node × Notes) := do
  let parsed ← Pipeline.parse ⟨{}, Dialect.gfmLike, Stage.registered⟩ body
  let result ← Pipeline.run ⟨{}, Dialect.gfmLike, Stage.registered⟩ parsed
  return (parsed, result)

theorem returns_parsedAndRun {body : String} {parsed out : Node} {notes : Notes}
    (h : (parsedAndRun body).Returns (parsed, out, notes)) :
    ∃ p, (make {}).Returns p ∧ (p.parse body).Returns parsed ∧ (p.run parsed).Returns (out, notes) := by
  obtain ⟨parsed', hparse, h⟩ := Logged.returns_bind h
  obtain ⟨result, hrun, h⟩ := Logged.returns_bind h
  cases Logged.returns_pure h
  exact ⟨_, Logged.returns_of_outcome rfl, hparse, hrun⟩

theorem exists_run {body : String} {q : Node → Node → Prop} [∀ t u, Decidable (q t u)]
    (h : ((parsedAndRun body).outcome.1.toOption.map fun r ↦ decide (q r.1 r.2.1)) = some true) :
    ∃ p parsed out notes, (make {}).Returns p ∧ (p.parse body).Returns parsed ∧
      (p.run parsed).Returns (out, notes) ∧ q parsed out := by
  obtain ⟨⟨parsed, out, notes⟩, hboth, hr⟩ := Logged.exists_returns h
  obtain ⟨p, hmake, hparse, hrun⟩ := returns_parsedAndRun hboth
  exact ⟨p, parsed, out, notes, hmake, hparse, hrun, of_decide_eq_true hr⟩

end Pipeline

end SafeMarkdown
