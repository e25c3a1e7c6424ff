import SafeMarkdown.Proofs.Sanitizer.Audit
import SafeMarkdown.Proofs.Sanitizer.Resolved

/-!
# When sanitizing returns

A tree whose ids are texts is sanitized unless some siblings in it spell, together with the raw
markup among them, a marked section of an unknown kind. Then reading the markup is given up, and
sanitizing with it.
-/

namespace SafeMarkdown.Sanitizer

open Node

variable {n tree : Node} {ns : List Node}

mutual

/-- The lists of siblings below a node that are resolved, none of them below raw markup. -/
def runsBelow : Node → List (List Node)
  | ⟨kind, _, _, children, _, _⟩ =>
    if kind == .raw then [] else children :: runsAmong children

def runsAmong : List Node → List (List Node)
  | [] => []
  | n :: rest => runsBelow n ++ runsAmong rest

end

/-- Whether the text that siblings are written as can be read, if there is raw markup among them. -/
def IsReadableRun (siblings : List Node) : Prop :=
  siblings.any Node.isRaw = true → Html.IsReadable (siblingsText 0 siblings)

instance (siblings : List Node) : Decidable (IsReadableRun siblings) :=
  inferInstanceAs (Decidable (siblings.any Node.isRaw = true →
    Html.IsReadable (siblingsText 0 siblings)))

/-- A step that goes well exactly under a condition, and is given up as unreadable otherwise. -/
def Settles {α : Type} (r : Except Failure α) (readable : Prop) : Prop :=
  (∃ a, r = .ok a) ∧ readable ∨ r = .error Html.rejected ∧ ¬ readable

section Settles

variable {α β : Type} {r : Except Failure α} {p q : Prop}

theorem Settles.congr (h : Settles r p) (hiff : p ↔ q) : Settles r q := by
  rwa [Settles, ← hiff]

theorem Settles.bind {f : α → Except Failure β} (hr : Settles r p)
    (hf : ∀ a, r = .ok a → Settles (f a) q) : Settles (r >>= f) (p ∧ q) := by
  rcases hr with ⟨⟨a, rfl⟩, hp⟩ | ⟨rfl, hp⟩
  · rcases hf a rfl with ⟨⟨b, hb⟩, hq⟩ | ⟨hb, hq⟩
    · exact .inl ⟨⟨b, hb⟩, hp, hq⟩
    · exact .inr ⟨hb, fun h ↦ hq h.2⟩
  · exact .inr ⟨rfl, fun h ↦ hp h.1⟩

theorem Settles.map (f : α → β) (hr : Settles r p) : Settles (r.map f) p := by
  rcases hr with ⟨⟨a, rfl⟩, hp⟩ | ⟨rfl, hp⟩
  · exact .inl ⟨⟨f a, rfl⟩, hp⟩
  · exact .inr ⟨rfl, hp⟩

end Settles

section Admission

theorem isReadableRun_bare (ns : List Node) : IsReadableRun (ns.map bare) ↔ IsReadableRun ns := by
  rw [IsReadableRun, IsReadableRun, any_isRaw_bare, siblingsText_bare]

theorem settles_resolve (ns : List Node) : Settles (resolve ns) (IsReadableRun ns) := by
  rw [resolve]
  split
  · rename_i hraw
    have htokens : Settles (Html.tokens (siblingsText 0 ns)) (IsReadableRun ns) := by
      refine Settles.congr (Html.tokens_cases (siblingsText 0 ns)) ?_
      exact ⟨fun h _ ↦ h, fun h ↦ h hraw⟩
    exact (htokens.map _).map _
  · rename_i hraw
    exact .inl ⟨⟨_, rfl⟩, fun h ↦ absurd h hraw⟩

/-- Resolving the markup below siblings changes nothing in the text that they are written as. -/
theorem settles_resolve_admitted {ms : List Node} {removals : List Removal}
    (h : admitEach ns = .ok (ms, removals)) : Settles (resolve ms) (IsReadableRun ns) := by
  apply (settles_resolve ms).congr
  rw [← isReadableRun_bare, bare_admitEach h, isReadableRun_bare]

mutual

theorem settles_admitBelow : (n : Node) →
    Settles (admitBelow n) (∀ run ∈ runsBelow n, IsReadableRun run)
  | ⟨kind, tag, attrs, children, value, data⟩ => by
      rw [admitBelow, runsBelow]
      split
      · exact .inl ⟨⟨_, rfl⟩, List.forall_mem_nil _⟩
      · have hbelow := (settles_admitEach children).bind fun r hr ↦
          (settles_resolve_admitted hr).map fun s ↦
            ((⟨kind, tag, attrs, s.1, value, data⟩ : Node), r.2 ++ s.2)
        refine Settles.congr hbelow ?_
        rw [List.forall_mem_cons]
        exact And.comm

theorem settles_admitEach : (ns : List Node) →
    Settles (admitEach ns) (∀ run ∈ runsAmong ns, IsReadableRun run)
  | [] => .inl ⟨⟨_, rfl⟩, List.forall_mem_nil _⟩
  | n :: rest => by
      rw [admitEach, runsAmong]
      have hboth := (settles_admitBelow n).bind fun r _ ↦
        (settles_admitEach rest).map fun s ↦ (r.1 :: s.1, r.2 ++ s.2)
      refine Settles.congr hboth ?_
      rw [List.forall_mem_append]

end

theorem settles_admission (ns : List Node) :
    Settles (admission ns) (∀ run ∈ ns :: runsAmong ns, IsReadableRun run) := by
  rw [admission]
  have hboth := (settles_admitEach ns).bind fun r hr ↦
    (settles_resolve_admitted hr).map fun s ↦ (s.1, r.2 ++ s.2)
  refine Settles.congr hboth ?_
  rw [List.forall_mem_cons]
  exact And.comm

end Admission

section Sanitize

variable {s : Schema} {markup : List Removal}

theorem holdsOfMarkup_hasTextIds : HoldsOfMarkup HasTextIds where
  text _ := List.forall_mem_nil _
  element := by
    intro name attrs children f hf hname
    obtain ⟨⟨n, v⟩, -, rfl⟩ := List.mem_map.mp hf
    have hid : Text.lowercase n = "id" := hname
    obtain ⟨t, ht⟩ := exists_attributeOf_eq_str name v hid
    change (attributeOf name n v).str?.isSome = true
    rw [ht]
    rfl

/-- Once the markup is resolved, nothing is in the way of sanitizing. -/
theorem sanitize_of_admission (hids : tree.All HasTextIds)
    (h : admission tree.children = .ok (ns, markup)) :
    ∃ out removals, sanitize s tree = .ok (out, removals) := by
  obtain ⟨hself, hbelow⟩ := all_iff.mp hids
  have hadmitted : ∀ n ∈ ns, n.All HasTextIds :=
    all_admission holdsOfMarkup_hasTextIds (fun h _ ↦ h) hbelow h
  have hkept : ∀ n ∈ mergeText (filterAll s ns).1, n.All HasTextIds :=
    all_mergeText (all_filterAll (fun _ ↦ List.forall_mem_nil _)
      (fun n hn _ children ↦ hasTextIds_filtered hn children) ns (rawless_admission h) hadmitted)
      fun _ ↦ List.forall_mem_nil _
  have hfiltered : All HasTextIds { tree with children := mergeText (filterAll s ns).1 } :=
    all_iff.mpr ⟨hself, hkept⟩
  obtain ⟨reserved, hreserved⟩ := exists_reservedIds
    fun n hn ↦ hasTextId_of_hasTextIds (hfiltered n hn)
  have hdistinct : dedupeIds { tree with children := mergeText (filterAll s ns).1 } =
      .ok ((distinctIds reserved [] { tree with children := mergeText (filterAll s ns).1 }).1,
        (distinctIds reserved [] { tree with children := mergeText (filterAll s ns).1 }).2.2) := by
    rw [dedupeIds, hreserved]
    rfl
  exact ⟨_, _, sanitize_of_steps h rfl hdistinct⟩

theorem sanitize_of_rejected (h : admission tree.children = .error Html.rejected) :
    sanitize s tree = .error Html.rejected := by
  rw [sanitize, h]
  rfl

/-- Declarations and sections of many kinds: known ones, one inside a comment, one that the text
ends in, and one that is cut at a paragraph. -/
def declarations : Node :=
  root [ofMarkup "<!x><![CDATA[y]]>", element "p" [] [ofMarkup "<!--<![x[y]]>-->"],
    ofMarkup "<![if z]>", element "p" [] [ofMarkup "a<![x"]]

def unknownSection : Node :=
  root [ofMarkup "<![x[y]]>"]

end Sanitize

end SafeMarkdown.Sanitizer
