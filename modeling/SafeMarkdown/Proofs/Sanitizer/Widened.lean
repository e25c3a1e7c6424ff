import SafeMarkdown.Proofs.Sanitizer.AllowList
import SafeMarkdown.Proofs.Sanitizer.Audit

/-!
# Schemas that allow more tags

The text of a sanitized tree is the text of what was admitted outside of all that is dropped:
elements that give way leave their text behind, joining texts keeps their letters, and removing ids
does not concern them. No element with an allowed tag is dropped, so a schema that allows more tags
drops less, and its result has all the letters that the result under the other schema has, in their
order.
-/

namespace SafeMarkdown.Sanitizer

open Node

variable {s t : Schema} {n tree : Node} {ns : List Node}

section Text

theorem textOfAll_append (ns ms : List Node) :
    textContent.textOfAll (ns ++ ms) = textContent.textOfAll ns ++ textContent.textOfAll ms := by
  induction ns with
  | nil => exact String.empty_append.symm
  | cons n ns ih => rw [List.cons_append, textContent.textOfAll, ih, textContent.textOfAll,
      String.append_assoc]

theorem textOfAll_singleton (n : Node) : textContent.textOfAll [n] = n.textContent := by
  rw [textContent.textOfAll, textContent.textOfAll, String.append_empty]

theorem textOfAll_mergeText (ns : List Node) :
    textContent.textOfAll (mergeText ns) = textContent.textOfAll ns := by
  rw [← String.toList_inj, ← letters_marksAll, marksAll_mergeText, letters_marksAll]

theorem isText_cut (n : Node) : (cut s n).isText = n.isText := by
  rw [cut_eq]
  rfl

theorem textContent_cut_of_isText (h : n.isText = true) :
    (cut s n).textContent = n.textContent := by
  rw [textContent_of_isText ((isText_cut n).trans h), textContent_of_isText h, cut_eq]
  rfl

theorem textContent_cut_of_not_isText (h : n.isText = false) :
    (cut s n).textContent = textContent.textOfAll (cutAll s n.children) := by
  rw [textContent_of_not_isText ((isText_cut n).trans h), cut_eq]

mutual

/-- Filtering keeps the text outside of what is dropped. -/
theorem text_filterNode : (n : Node) → Rawless n →
    textContent.textOfAll (filterNode s n).1 = textContent.textOfAll (cutAll s [n])
  | ⟨kind, tag, attrs, children, value, data⟩, hraw => by
      rw [Rawless, all_iff] at hraw
      have hbelow := text_filterAll children hraw.2
      cases htext : isText ⟨kind, tag, attrs, children, value, data⟩ with
      | true =>
          obtain rfl : kind = .text := kind_of_isText htext
          have hfate : fate s ⟨.text, tag, attrs, children, value, data⟩ = .stays := rfl
          rw [filterNode_of_isText htext, cutAll_singleton (by rw [hfate]; decide),
            textOfAll_singleton, textOfAll_singleton, textContent_cut_of_isText htext]
      | false =>
          cases hfate : fate s ⟨kind, tag, attrs, children, value, data⟩ with
          | dropped =>
              rw [filterNode_of_dropped hfate, cutAll, if_pos hfate, cutAll]
          | givesWay =>
              rw [filterNode_of_givesWay hfate, textOfAll_mergeText, hbelow,
                cutAll_singleton (by rw [hfate]; decide), textOfAll_singleton,
                textContent_cut_of_not_isText htext]
          | stays =>
              have hkept : isText { filtered s ⟨kind, tag, attrs, children, value, data⟩ with
                  children := mergeText (filterAll s children).1 } = false := by
                rw [isText, kind_filtered]
                exact htext
              rw [filterNode_of_stays hfate htext hraw.1, textOfAll_singleton,
                textContent_of_not_isText hkept, textOfAll_mergeText, hbelow,
                cutAll_singleton (by rw [hfate]; decide), textOfAll_singleton,
                textContent_cut_of_not_isText htext]

theorem text_filterAll : (ns : List Node) → (∀ n ∈ ns, Rawless n) →
    textContent.textOfAll (filterAll s ns).1 = textContent.textOfAll (cutAll s ns)
  | [], _ => by rw [filterAll, cutAll]
  | n :: rest, hraw => by
      rw [List.forall_mem_cons] at hraw
      rw [cutAll_cons, textOfAll_append, ← text_filterNode n hraw.1,
        ← text_filterAll rest hraw.2, ← textOfAll_append, filterAll]

end

mutual

theorem textContent_distinctIds (reserved kept : List String) : (n : Node) →
    (distinctIds reserved kept n).1.textContent = n.textContent
  | ⟨kind, tag, attrs, children, value, data⟩ => by
      obtain ⟨attrs', kept', -, heq⟩ :=
        distinctIds_eq reserved kept ⟨kind, tag, attrs, children, value, data⟩
      rw [heq, textContent, textContent, textOfAll_distinctIdsAll reserved kept' children]

theorem textOfAll_distinctIdsAll (reserved kept : List String) : (ns : List Node) →
    textContent.textOfAll (distinctIdsAll reserved kept ns).1 = textContent.textOfAll ns
  | [] => by rw [distinctIdsAll]
  | n :: rest => by
      rw [distinctIdsAll, textContent.textOfAll, textContent.textOfAll,
        textContent_distinctIds reserved kept n, textOfAll_distinctIdsAll reserved _ rest]

end

/-- The text of a sanitized tree. -/
theorem textContent_sanitize {out : Node} {removals : List Removal}
    (h : sanitize s tree = .ok (out, removals)) :
    ∃ nodes markup, admission tree.children = .ok (nodes, markup) ∧
      out.textContent = (cut s { tree with children := nodes }).textContent := by
  obtain ⟨nodes, markup, reserved, hadmission, -, rfl⟩ := sanitize_eq_ok h
  refine ⟨nodes, markup, hadmission, ?_⟩
  rw [textContent_distinctIds]
  cases htext : tree.isText with
  | true =>
      have hbefore : isText { tree with children := nodes } = true := htext
      have hafter : isText { tree with children := (filterChildren s nodes).1 } = true := htext
      rw [textContent_cut_of_isText hbefore, textContent_of_isText hbefore,
        textContent_of_isText hafter]
      rfl
  | false =>
      have hbefore : isText { tree with children := nodes } = false := htext
      have hafter : isText { tree with children := (filterChildren s nodes).1 } = false := htext
      rw [textContent_cut_of_not_isText hbefore, textContent_of_not_isText hafter,
        ← text_filterAll nodes (rawless_admission hadmission)]
      exact textOfAll_mergeText _

end Text

section Widened

theorem allowsTag_of_subset (h : s.tags ⊆ t.tags) {tag : String} (hs : s.allowsTag tag = true) :
    t.allowsTag tag = true :=
  List.contains_iff_mem.mpr (h (List.contains_iff_mem.mp hs))

/-- What a schema drops is dropped by a schema that allows fewer tags. -/
theorem dropped_of_subset (h : s.tags ⊆ t.tags) (ht : fate t n = .dropped) :
    fate s n = .dropped := by
  unfold fate at ht ⊢
  split at ht
  · split at ht
    · cases ht
    · rename_i hnot
      rw [if_neg fun hs ↦ hnot (allowsTag_of_subset h hs)]
      split at ht
      · rename_i hunsafe
        exact if_pos hunsafe
      · cases ht
  · exact ht
  · cases ht

mutual

theorem sublist_cut (h : s.tags ⊆ t.tags) : (n : Node) →
    (cut s n).textContent.toList.Sublist (cut t n).textContent.toList
  | ⟨kind, tag, attrs, children, value, data⟩ => by
      rw [cut, cut, textContent, textContent]
      split
      · exact .refl _
      · exact sublist_cutAll h children

/-- Where more tags are allowed, more text is outside of what is dropped. -/
theorem sublist_cutAll (h : s.tags ⊆ t.tags) : (ns : List Node) →
    (textContent.textOfAll (cutAll s ns)).toList.Sublist
      (textContent.textOfAll (cutAll t ns)).toList
  | [] => .refl _
  | n :: rest => by
      have hrest := sublist_cutAll h rest
      by_cases ht : fate t n = .dropped
      · rw [cutAll, cutAll, if_pos ht, if_pos (dropped_of_subset h ht)]
        exact hrest
      · rw [cutAll, cutAll, if_neg ht, textContent.textOfAll, String.toList_append]
        split
        · exact hrest.trans (List.sublist_append_right _ _)
        · rw [textContent.textOfAll, String.toList_append]
          exact (sublist_cut h n).append hrest

end

/-- The standard schema with one more tag. -/
def fontSchema : Schema :=
  { Schema.standard with tags := "font" :: Schema.standard.tags }

/-- Markup around a text, whose element handles events, beside a program. -/
def lettering : Node :=
  .root [.ofMarkup "<p>a<font onclick=x>b", .ofText "c", .ofMarkup "</font>d</p>",
    .element "script" [] [.ofText "e"]]

end Widened

end SafeMarkdown.Sanitizer
