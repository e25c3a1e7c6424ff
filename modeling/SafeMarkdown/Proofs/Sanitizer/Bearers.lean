import SafeMarkdown.Proofs.Sanitizer.Idempotent
import SafeMarkdown.Proofs.Tree.Joined

/-!
# The bearers of ids

Making ids distinct passes over the nodes of a tree in document order, so that what happens to a
node is told by the nodes before it. Each id stays with one element: with the first heading that has
it or, where there is none, with the first element.
-/

namespace SafeMarkdown

namespace Node

@[simp] theorem elementId?_head (n : Node) : n.head.elementId? = n.elementId? := rfl

/-- Whether the id of a node, if it has one, is a text. -/
def HasTextId (n : Node) : Prop :=
  (n.attrs.get? "id").all fun v ↦ v.str?.isSome

instance : DecidablePred HasTextId :=
  fun n ↦ inferInstanceAs (Decidable ((n.attrs.get? "id").all (fun v ↦ v.str?.isSome) = true))

theorem HasTextId.exists_eq_str {n : Node} (h : n.HasTextId) {v : Value}
    (hget : n.attrs.get? "id" = some v) : ∃ id, v = .str id := by
  rw [HasTextId, hget, Option.all_some] at h
  cases v with
  | str id => exact ⟨id, rfl⟩
  | _ => cases h

/-- The place in document order of the element that an id belongs to: the first heading with this
id, else the first element. An empty id is not reserved for a heading, and a level that is zero or
null makes no heading. -/
def bearer? (ns : List Node) (id : String) : Option Nat :=
  let heading := if id = "" then none
    else ns.findIdx? fun n ↦ n.elementId? == some id && n.flagged "level"
  heading.or (ns.findIdx? fun n ↦ n.elementId? == some id)

mutual

/-- A tree without the ids of its elements. -/
def withoutIds : Node → Node
  | ⟨kind, tag, attrs, children, value, data⟩ =>
    ⟨kind, tag, if kind = .element then Fields.erase attrs "id" else attrs,
      withoutIdsAll children, value, data⟩

def withoutIdsAll : List Node → List Node
  | [] => []
  | n :: rest => n.withoutIds :: withoutIdsAll rest

end

end Node

namespace Sanitizer

open Node

variable {reserved kept : List String} {n tree : Node} {ns ms : List Node}

section Passing

/-- What becomes of a node, without what is below it, given the ids that were kept before it. -/
def pass (reserved kept : List String) (n : Node) : Node × List String × List Removal :=
  match n.elementId? with
  | none => (n.head, kept, [])
  | some id =>
    if keepsId reserved kept (n.flagged "level") id then (n.head, id :: kept, [])
    else ({ n.head with attrs := n.attrs.erase "id" }, kept, [.stripAttribute n.tag "id"])

def passAll (reserved kept : List String) : List Node → List Node × List String × List Removal
  | [] => ([], kept, [])
  | n :: rest =>
    let (m, kept, removals) := pass reserved kept n
    let (ms, kept, more) := passAll reserved kept rest
    (m :: ms, kept, removals ++ more)

theorem passAll_append (reserved kept : List String) (ns ms : List Node) :
    passAll reserved kept (ns ++ ms) =
      let (before, kept, removals) := passAll reserved kept ns
      let (after, kept, more) := passAll reserved kept ms
      (before ++ after, kept, removals ++ more) := by
  induction ns generalizing kept with
  | nil => rfl
  | cons n ns ih => simp [passAll, ih]

mutual

/-- Making ids distinct in a tree is one pass over its nodes in document order. -/
theorem distinctIds_eq_passAll (reserved kept : List String) : (n : Node) →
    ((distinctIds reserved kept n).1.walk.map head, (distinctIds reserved kept n).2) =
      passAll reserved kept n.walk
  | ⟨kind, tag, attrs, children, value, data⟩ => by
      rw [walk_mk, passAll, pass]
      cases hid : elementId? ⟨kind, tag, attrs, children, value, data⟩ with
      | none =>
          rw [distinctIds_of_elementId?_eq_none hid]
          dsimp only
          rw [← distinctIdsAll_eq_passAll reserved kept children, walk_mk]
          rfl
      | some id =>
          dsimp only
          cases h : keepsId reserved kept
              (flagged ⟨kind, tag, attrs, children, value, data⟩ "level") id with
          | true =>
              rw [distinctIds_of_keeps hid h, if_pos rfl]
              dsimp only
              rw [← distinctIdsAll_eq_passAll reserved (id :: kept) children, walk_mk]
              rfl
          | false =>
              rw [distinctIds_of_loses hid h, if_neg Bool.false_ne_true]
              dsimp only
              rw [← distinctIdsAll_eq_passAll reserved kept children, walk_mk]
              rfl

theorem distinctIdsAll_eq_passAll (reserved kept : List String) : (ns : List Node) →
    ((walk.walkAll (distinctIdsAll reserved kept ns).1).map head,
      (distinctIdsAll reserved kept ns).2) = passAll reserved kept (walk.walkAll ns)
  | [] => by
      rw [distinctIdsAll]
      rfl
  | n :: rest => by
      have hnodes : walk.walkAll (n :: rest) = n.walk ++ walk.walkAll rest := by rw [walk.walkAll]
      rw [hnodes, passAll_append, ← distinctIds_eq_passAll reserved kept n, distinctIdsAll]
      dsimp only
      rw [← distinctIdsAll_eq_passAll reserved _ rest, walk.walkAll, List.map_append]

end

end Passing

section Bearers

instance (id : String) (n : Node) : Decidable (MayKeep reserved id n) :=
  inferInstanceAs (Decidable (_ ∧ _))

theorem elementId?_erase (n : Node) :
    elementId? { n.head with attrs := n.attrs.erase "id" } = none := by
  simp [elementId?, idText?, Fields.get?_erase]

/-- What a node keeps is an id that it may keep and that was not kept before. -/
theorem elementId?_pass {id : String} :
    (pass reserved kept n).1.elementId? = some id ↔ id ∉ kept ∧ MayKeep reserved id n := by
  rw [pass, MayKeep]
  cases hid : n.elementId? with
  | none => simp [hid]
  | some own =>
      dsimp only
      split
      · rename_i h
        have hkeeps := keepsId_iff.mp h
        constructor
        · intro hown
          obtain rfl : own = id := by simpa [hid] using hown
          exact ⟨hkeeps.1, rfl, hkeeps.2⟩
        · rintro ⟨-, hown, -⟩
          rw [elementId?_head, hid, hown]
      · rename_i h
        rw [elementId?_erase]
        constructor
        · intro hnone
          cases hnone
        · rintro ⟨hfree, hown, hmay⟩
          obtain rfl : own = id := Option.some.inj hown
          exact (h (keepsId_iff.mpr ⟨hfree, hmay⟩)).elim

theorem mem_kept_pass {id : String} :
    id ∈ (pass reserved kept n).2.1 ↔ id ∈ kept ∨ MayKeep reserved id n := by
  rw [pass, MayKeep]
  cases hid : n.elementId? with
  | none => simp
  | some own =>
      dsimp only
      split
      · rename_i h
        have hkeeps := keepsId_iff.mp h
        constructor
        · intro hmem
          rcases List.mem_cons.mp hmem with rfl | hmem
          · exact .inr ⟨rfl, hkeeps.2⟩
          · exact .inl hmem
        · rintro (hmem | ⟨hown, -⟩)
          · exact List.mem_cons_of_mem _ hmem
          · rw [Option.some.inj hown]
            exact List.mem_cons_self
      · rename_i h
        constructor
        · exact .inl
        · rintro (hmem | ⟨hown, hmay⟩)
          · exact hmem
          · obtain rfl : own = id := Option.some.inj hown
            by_contra hfree
            exact h (keepsId_iff.mpr ⟨hfree, hmay⟩)

/-- An id that was not kept before stays with the first node that may keep it. -/
theorem elementId?_passAll (reserved kept : List String) (ns : List Node) (id : String)
    (place : Nat) :
    (passAll reserved kept ns).1[place]?.bind elementId? = some id ↔
      id ∉ kept ∧ ns.findIdx? (fun n ↦ decide (MayKeep reserved id n)) = some place := by
  induction ns generalizing kept place with
  | nil => simp [passAll]
  | cons n ns ih =>
      rw [List.findIdx?_cons, passAll]
      dsimp only
      cases place with
      | zero =>
          by_cases hmay : MayKeep reserved id n <;> simp [elementId?_pass, hmay]
      | succ place =>
          by_cases hmay : MayKeep reserved id n <;> simp [ih, mem_kept_pass, hmay]

variable {id : String}

theorem ne_empty_of_reservedId (h : reservedId n = .ok (some id)) : id ≠ "" := by
  have hget := (flagged_of_reservedId h).2
  simp only [reservedId, hget] at h
  split at h
  · rename_i hcounts
    cases h
    simpa using (Bool.and_eq_true_iff.mp hcounts).2
  · cases h

/-- The ids that are reserved where only elements carry levels. -/
theorem mem_reservedIds_iff (h : reservedIds ns = .ok reserved)
    (hlevel : ∀ n ∈ ns, n.flagged "level" = true → n.kind = .element) :
    id ∈ reserved ↔ ∃ n ∈ ns, n.Reserves id := by
  constructor
  · intro hid
    obtain ⟨n, hn, hreserved⟩ := exists_of_mem_reservedIds h hid
    obtain ⟨hflag, hget⟩ := flagged_of_reservedId hreserved
    refine ⟨n, hn, hflag, ?_, ne_empty_of_reservedId hreserved⟩
    simp [elementId?, idText?, hlevel n hn hflag, hget, Value.str?]
  · rintro ⟨n, hn, hreserves⟩
    exact mem_reservedIds h hn (reservedId_eq hreserves)

theorem bearer?_eq_findIdx? (h : reservedIds ns = .ok reserved)
    (hlevel : ∀ n ∈ ns, n.flagged "level" = true → n.kind = .element) :
    bearer? ns id = ns.findIdx? fun n ↦ decide (MayKeep reserved id n) := by
  have hiff : id ∈ reserved ↔ ∃ n ∈ ns, n.Reserves id := mem_reservedIds_iff h hlevel
  unfold bearer?
  by_cases hid : id ∈ reserved
  · obtain ⟨n, hn, hreserves⟩ := hiff.mp hid
    have hsame : (fun n ↦ decide (MayKeep reserved id n)) =
        fun n : Node ↦ n.elementId? == some id && n.flagged "level" := by
      funext m
      rw [Bool.eq_iff_iff]
      simp [MayKeep, hid]
    have hfound : (ns.findIdx? fun n ↦ n.elementId? == some id && n.flagged "level").isSome := by
      rw [List.findIdx?_isSome, List.any_eq_true]
      exact ⟨n, hn, by simp [hreserves.elementId?, hreserves.flagged]⟩
    obtain ⟨place, hplace⟩ := Option.isSome_iff_exists.mp hfound
    simp [hsame, hreserves.ne_empty, hplace]
  · have hsame : (fun n ↦ decide (MayKeep reserved id n)) =
        fun n : Node ↦ n.elementId? == some id := by
      funext m
      rw [Bool.eq_iff_iff]
      simp [MayKeep, hid]
    by_cases hempty : id = ""
    · rw [hsame, if_pos hempty]
      rfl
    · have hnone : (ns.findIdx? fun n ↦ n.elementId? == some id && n.flagged "level") = none := by
        rw [List.findIdx?_eq_none_iff]
        intro m hm
        by_contra hheading
        rw [Bool.not_eq_false, Bool.and_eq_true, beq_iff_eq] at hheading
        exact hid (hiff.mpr ⟨m, hm, hheading.2, hheading.1, hempty⟩)
      simp [hsame, hempty, hnone]

theorem bearer?_isSome_iff : (∃ place, bearer? ns id = some place) ↔
    ∃ n ∈ ns, n.elementId? = some id := by
  rw [← Option.isSome_iff_exists, bearer?]
  constructor
  · intro h
    by_cases hempty : id = ""
    · simpa [hempty, List.findIdx?_isSome] using h
    · simp only [hempty, if_false, Option.isSome_or, List.findIdx?_isSome, Bool.or_eq_true,
        List.any_eq_true, Bool.and_eq_true, beq_iff_eq] at h
      rcases h with ⟨n, hn, hid, -⟩ | h
      · exact ⟨n, hn, hid⟩
      · exact h
  · rintro ⟨n, hn, hid⟩
    rw [Option.isSome_or, Bool.or_eq_true]
    right
    rw [List.findIdx?_isSome, List.any_eq_true]
    exact ⟨n, hn, by simp [hid]⟩

theorem mem_elementIds_singleton : id ∈ elementIds [n] ↔ ∃ m ∈ n.walk, m.elementId? = some id := by
  simp [elementIds, walk.walkAll]

theorem exists_place_iff : (∃ place : Nat, ns[place]?.bind elementId? = some id) ↔
    ∃ n ∈ ns, n.elementId? = some id := by
  simp only [Option.bind_eq_some_iff]
  constructor
  · rintro ⟨place, n, hn, hid⟩
    exact ⟨n, List.mem_of_getElem? hn, hid⟩
  · rintro ⟨n, hn, hid⟩
    obtain ⟨place, hplace⟩ := List.getElem?_of_mem hn
    exact ⟨place, n, hplace, hid⟩

/-- Where an id is after ids were made distinct. -/
theorem elementId?_distinctIds (reserved kept : List String) (n : Node) (id : String)
    (place : Nat) :
    (distinctIds reserved kept n).1.walk[place]?.bind elementId? = some id ↔
      id ∉ kept ∧ n.walk.findIdx? (fun m ↦ decide (MayKeep reserved id m)) = some place := by
  rw [← elementId?_passAll, ← distinctIds_eq_passAll reserved kept n]
  simp only [List.getElem?_map]
  cases (distinctIds reserved kept n).1.walk[place]? <;> rfl

mutual

/-- Making ids distinct changes nothing but ids of elements. -/
theorem withoutIds_distinctIds (reserved kept : List String) : (n : Node) →
    (distinctIds reserved kept n).1.withoutIds = n.withoutIds
  | ⟨kind, tag, attrs, children, value, data⟩ => by
      obtain ⟨attrs', kept', hstep, heq, -⟩ :=
        exists_idStep reserved kept ⟨kind, tag, attrs, children, value, data⟩
      rw [heq]
      dsimp only [withoutIds]
      rw [withoutIdsAll_distinctIdsAll reserved kept' children]
      cases hstep with
      | keeps hid h => rfl
      | loses hid h =>
          obtain rfl : kind = .element := kind_of_elementId? hid
          simp [Fields.erase]
      | none hid => rfl

theorem withoutIdsAll_distinctIdsAll (reserved kept : List String) : (ns : List Node) →
    withoutIdsAll (distinctIdsAll reserved kept ns).1 = withoutIdsAll ns
  | [] => by
      rw [distinctIdsAll]
  | n :: rest => by
      rw [distinctIdsAll]
      dsimp only [withoutIdsAll]
      rw [withoutIds_distinctIds, withoutIdsAll_distinctIdsAll]

end

theorem exists_reservedIds (h : tree.All HasTextId) : ∃ ids, reservedIds tree.walk = .ok ids := by
  refine reservedIds_isOk_iff.mpr fun n hn ↦ ?_
  rw [reservedId]
  cases hget : n.attrs.get? "id" with
  | none => exact ⟨none, rfl⟩
  | some v =>
      obtain ⟨id, rfl⟩ := (h n hn).exists_eq_str hget
      exact ⟨_, rfl⟩

/-- Where all ids are texts and only elements carry levels, each id is left with one element, its
bearer, and nothing but ids of elements changes. -/
theorem dedupeIds_bearers (htext : tree.All HasTextId)
    (hlevel : tree.All fun n ↦ n.flagged "level" = true → n.kind = .element) :
    ∃ out removals, dedupeIds tree = .ok (out, removals) ∧
      out.withoutIds = tree.withoutIds ∧
      (elementIds [out]).Nodup ∧
      (∀ id, id ∈ elementIds [out] ↔ id ∈ elementIds [tree]) ∧
      ∀ id place,
        out.walk[place]?.bind elementId? = some id ↔ bearer? tree.walk id = some place := by
  obtain ⟨reserved, hreserved⟩ := exists_reservedIds htext
  have hplace (id : String) (place : Nat) :
      (distinctIds reserved [] tree).1.walk[place]?.bind elementId? = some id ↔
        bearer? tree.walk id = some place := by
    rw [elementId?_distinctIds, bearer?_eq_findIdx? hreserved hlevel]
    simp
  refine ⟨(distinctIds reserved [] tree).1, (distinctIds reserved [] tree).2.2, ?_,
    withoutIds_distinctIds reserved [] tree, (allots_distinctIds reserved [] tree).nodup, ?_,
    hplace⟩
  · rw [dedupeIds, hreserved]
    rfl
  · intro id
    rw [mem_elementIds_singleton, mem_elementIds_singleton, ← exists_place_iff,
      ← bearer?_isSome_iff]
    simp only [hplace]

/-- A paragraph that has taken the id of a heading, and two elements with an empty id. -/
def contested : Node :=
  .root [.element "p" [("id", .str "x")] [.element "b" [("id", .str "")] []],
    .element "h2" [("id", .str "x")] [] [("level", .int 2)],
    .element "h3" [("id", .str "")] [] [("level", .int 3)]]

/-- The heading gets its id back; an empty id stays where it is first. -/
theorem dedupeIds_bearers_contested : ∃ out removals,
    dedupeIds contested = .ok (out, removals) ∧ (elementIds [out]).Nodup ∧
      out.walk[3]?.bind elementId? = some "x" ∧ out.walk[2]?.bind elementId? = some "" := by
  obtain ⟨out, removals, hrun, -, hnodup, -, hplace⟩ :=
    @dedupeIds_bearers contested (by decide +kernel) (by decide +kernel)
  exact ⟨out, removals, hrun, hnodup, (hplace "x" 3).mpr (by decide +kernel),
    (hplace "" 2).mpr (by decide +kernel)⟩

end Bearers

end Sanitizer

end SafeMarkdown
