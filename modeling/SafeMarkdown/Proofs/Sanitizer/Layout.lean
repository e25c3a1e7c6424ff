import SafeMarkdown.Sanitizer.Admission

/-!
# The layout of admitted markup

What admission makes of a fragment is a layout of places that the waiting nodes fill: which places
there are, and in which order, depends on the fragment and on the indices that wait, not on the
nodes. A place is taken at the first slot of its index, so no node is ever placed twice.
-/

namespace SafeMarkdown.Sanitizer

/-- A tree of nodes with places for the nodes that wait. -/
inductive Layout where
  | place (index : String)
  | leaf (n : Node)
  | element (tag : String) (attrs : Fields) (children : List Layout)

namespace Layout

/-- The nodes of a layout, its places filled. -/
def fill (slots : Slots) : Layout → List Node
  | place index => (slots.lookup index).toList
  | leaf n => [n]
  | element tag attrs children => [Node.element tag attrs (fillAll children)]
where
  fillAll : List Layout → List Node
    | [] => []
    | l :: rest => fill slots l ++ fillAll rest

/-- The places of a layout in document order. -/
def places : Layout → List String
  | place index => [index]
  | leaf _ => []
  | element _ _ children => placesAll children
where
  placesAll : List Layout → List String
    | [] => []
    | l :: rest => places l ++ placesAll rest

theorem fillAll_append (slots : Slots) (ls ms : List Layout) :
    fill.fillAll slots (ls ++ ms) = fill.fillAll slots ls ++ fill.fillAll slots ms := by
  induction ls with
  | nil => rfl
  | cons l ls ih => simp [fill.fillAll, ih]

theorem placesAll_append (ls ms : List Layout) :
    places.placesAll (ls ++ ms) = places.placesAll ls ++ places.placesAll ms := by
  induction ls with
  | nil => rfl
  | cons l ls ih => simp [places.placesAll, ih]

end Layout

mutual

/-- The indices of the slots of an item in document order. What a slot encloses does not count. -/
def slotNames : Html.Item → List String
  | .text _ => []
  | .markup => []
  | .element name attrs children =>
    if name == slotTag then (attrs.lookup slotAttribute).toList else slotNamesAll children

def slotNamesAll : List Html.Item → List String
  | [] => []
  | i :: rest => slotNames i ++ slotNamesAll rest

end

mutual

/-- The layout of an item, given the indices that wait, and the indices that still wait after it. -/
def layoutOf (waiting : List String) : Html.Item → List Layout × List String
  | .text s => ([.leaf (Node.ofText s)], waiting)
  | .markup => ([], waiting)
  | .element name attrs children =>
    if name == slotTag then
      match attrs.lookup slotAttribute with
      | none => ([], waiting)
      | some index =>
        if waiting.contains index then ([.place index], waiting.filter (· != index))
        else ([], waiting)
    else
      let (inner, waiting) := layoutOfAll waiting children
      ([.element name (attrs.map fun (n, v) ↦ (n, attributeOf name n v)) inner], waiting)

def layoutOfAll (waiting : List String) : List Html.Item → List Layout × List String
  | [] => ([], waiting)
  | i :: rest =>
    let (first, waiting) := layoutOf waiting i
    let (others, waiting) := layoutOfAll waiting rest
    (first ++ others, waiting)

end

/-- The slots whose indices still wait. -/
def Slots.among (slots : Slots) (waiting : List String) : Slots :=
  slots.filter fun s ↦ waiting.contains s.1

theorem lookup_among (slots : Slots) (waiting : List String) (index : String) :
    (slots.among waiting).lookup index =
      if waiting.contains index then slots.lookup index else none := by
  induction slots with
  | nil => simp [Slots.among]
  | cons s slots ih =>
      obtain ⟨k, n⟩ := s
      rw [Slots.among, List.filter_cons]
      by_cases heq : index = k
      · subst heq
        cases hwaits : waiting.contains index with
        | true => simp
        | false =>
            simp only [hwaits, Bool.false_eq_true, if_false] at ih ⊢
            exact ih
      · have hne : (index == k) = false := beq_eq_false_iff_ne.mpr heq
        rw [List.lookup_cons, hne, ← ih, Slots.among]
        split
        · rw [List.lookup_cons, hne]
        · rfl

theorem among_filter (slots : Slots) (waiting : List String) (index : String) :
    slots.among (waiting.filter (· != index)) =
      (slots.among waiting).filter fun s ↦ s.1 != index := by
  simp only [Slots.among, List.filter_filter]
  refine List.filter_congr fun s _ ↦ ?_
  rw [Bool.eq_iff_iff]
  simp [and_comm]

mutual

/-- Admission fills the layout of an item and leaves the nodes whose indices still wait. -/
theorem ofItem_run (slots : Slots) (waiting : List String) (removals : List Removal) :
    (i : Html.Item) → ∃ more, (ofItem i).run ⟨slots.among waiting, removals⟩ =
      (Layout.fill.fillAll slots (layoutOf waiting i).1,
        ⟨slots.among (layoutOf waiting i).2, more⟩)
  | .text s => ⟨removals, by rfl⟩
  | .markup => ⟨.stripMarkup :: removals, by rfl⟩
  | .element name attrs children => by
      by_cases hname : (name == slotTag) = true
      · refine ⟨removals, ?_⟩
        rw [ofItem, layoutOf, if_pos hname, if_pos hname]
        cases hindex : attrs.lookup slotAttribute with
        | none => rfl
        | some index =>
            have hlookup := lookup_among slots waiting index
            by_cases hwaits : index ∈ waiting
            · rw [if_pos (List.contains_iff_mem.mpr hwaits)] at hlookup
              cases hslot : slots.lookup index with
              | none =>
                  have hsame : (slots.among waiting).filter (fun s ↦ s.1 != index) =
                      slots.among waiting := by
                    refine List.filter_eq_self.mpr fun s hs ↦ bne_iff_ne.mpr ?_
                    have hnone := List.lookup_eq_none_iff.mp (hlookup.trans hslot) s hs
                    exact fun heq ↦ by simp [heq] at hnone
                  simp [hlookup, hslot, hwaits, among_filter, hsame, Layout.fill.fillAll,
                    Layout.fill]
                  rfl
              | some n =>
                  simp [hlookup, hslot, hwaits, among_filter, Layout.fill.fillAll, Layout.fill]
                  rfl
            · rw [if_neg (by simpa using hwaits)] at hlookup
              simp [hlookup, hwaits, Layout.fill.fillAll]
              rfl
      · rw [ofItem, layoutOf, if_neg hname, if_neg hname]
        obtain ⟨more, hinner⟩ := ofItems_run slots waiting removals children
        refine ⟨more, ?_⟩
        rw [StateT.run_bind, hinner]
        rfl

theorem ofItems_run (slots : Slots) (waiting : List String) (removals : List Removal) :
    (items : List Html.Item) → ∃ more, (ofItems items).run ⟨slots.among waiting, removals⟩ =
      (Layout.fill.fillAll slots (layoutOfAll waiting items).1,
        ⟨slots.among (layoutOfAll waiting items).2, more⟩)
  | [] => ⟨removals, by rfl⟩
  | i :: rest => by
      obtain ⟨mid, hfirst⟩ := ofItem_run slots waiting removals i
      obtain ⟨more, hrest⟩ := ofItems_run slots (layoutOf waiting i).2 mid rest
      refine ⟨more, ?_⟩
      rw [layoutOfAll, Layout.fillAll_append, ofItems, StateT.run_bind, hfirst]
      change ((ofItems rest >>= fun others ↦ pure (_ ++ others)).run _ : Id _) = _
      rw [StateT.run_bind, hrest]
      rfl

end

theorem filter_eraseDups (p : String → Bool) : (names : List String) →
    names.eraseDups.filter p = (names.filter p).eraseDups
  | [] => rfl
  | name :: names => by
      rw [List.eraseDups_cons, List.filter_cons, List.filter_cons, filter_eraseDups]
      split
      · rw [List.eraseDups_cons, List.filter_filter, List.filter_filter]
        simp only [Bool.and_comm]
      · rename_i hp
        rw [List.filter_filter]
        congr 1
        refine List.filter_congr fun n _ ↦ ?_
        cases hn : p n with
        | false => rfl
        | true =>
            have hne : n ≠ name := fun heq ↦ hp (heq ▸ hn)
            simp [hne]
termination_by names => names.length
decreasing_by
  exact Nat.lt_succ_of_le (List.length_filter_le _ _)

theorem nodup_eraseDups : (names : List String) → names.eraseDups.Nodup
  | [] => List.nodup_nil
  | name :: names => by
      rw [List.eraseDups_cons, List.nodup_cons]
      exact ⟨by simp, nodup_eraseDups _⟩
termination_by names => names.length
decreasing_by
  exact Nat.lt_succ_of_le (List.length_filter_le _ _)

theorem eraseDups_eq_self {names : List String} (h : names.Nodup) : names.eraseDups = names := by
  induction names with
  | nil => rfl
  | cons name names ih =>
      obtain ⟨hfresh, hrest⟩ := List.nodup_cons.mp h
      have hself : (names.filter fun n ↦ !n == name) = names := by
        refine List.filter_eq_self.mpr fun n hn ↦ ?_
        have hne : n ≠ name := fun heq ↦ hfresh (heq ▸ hn)
        simp [hne]
      rw [List.eraseDups_cons, hself, ih hrest]

/-- Of two lists, the second adds what still waits after the first. -/
theorem eraseDups_filter_append (waiting first second : List String) :
    ((first ++ second).filter waiting.contains).eraseDups =
      (first.filter waiting.contains).eraseDups ++
        (second.filter (waiting.filter fun k ↦ !first.contains k).contains).eraseDups := by
  rw [List.filter_append, List.eraseDups_append, List.removeAll, List.filter_filter]
  congr 2
  refine List.filter_congr fun k _ ↦ ?_
  rw [Bool.eq_iff_iff]
  simp only [List.contains_eq_mem, List.mem_filter, Bool.and_eq_true,
    Bool.not_eq_true', decide_eq_true_eq, decide_eq_false_iff_not]
  exact ⟨fun h ↦ ⟨h.2, fun hk ↦ h.1 ⟨hk, h.2⟩⟩, fun h ↦ ⟨fun hk ↦ h.2 hk.1, h.1⟩⟩

mutual

/-- The places of an item are the first slots of the indices that wait, in document order. -/
theorem places_layoutOf (waiting : List String) : (i : Html.Item) →
    Layout.places.placesAll (layoutOf waiting i).1 =
        ((slotNames i).filter waiting.contains).eraseDups ∧
      (layoutOf waiting i).2 = waiting.filter fun k ↦ !(slotNames i).contains k
  | .text s => ⟨by rfl, (List.filter_eq_self.mpr fun _ _ ↦ by rfl).symm⟩
  | .markup => ⟨by rfl, (List.filter_eq_self.mpr fun _ _ ↦ by rfl).symm⟩
  | .element name attrs children => by
      by_cases hname : (name == slotTag) = true
      · rw [layoutOf, slotNames, if_pos hname, if_pos hname]
        cases hindex : attrs.lookup slotAttribute with
        | none => exact ⟨by rfl, (List.filter_eq_self.mpr fun _ _ ↦ by rfl).symm⟩
        | some index =>
            dsimp only
            by_cases hwaits : index ∈ waiting
            · refine ⟨by simp [hwaits, Layout.places.placesAll, Layout.places, List.eraseDups_cons],
                ?_⟩
              rw [if_pos (by simpa using hwaits)]
              refine List.filter_congr fun k _ ↦ ?_
              rw [Bool.eq_iff_iff]
              simp
            · refine ⟨by simp [hwaits, Layout.places.placesAll], ?_⟩
              rw [if_neg (by simpa using hwaits)]
              refine (List.filter_eq_self.mpr fun k hk ↦ ?_).symm
              have hne : k ≠ index := fun heq ↦ hwaits (heq ▸ hk)
              simp [hne]
      · rw [layoutOf, slotNames, if_neg hname, if_neg hname]
        obtain ⟨hplaces, hrest⟩ := places_layoutOfAll waiting children
        exact ⟨by simpa [Layout.places.placesAll, Layout.places] using hplaces, hrest⟩

theorem places_layoutOfAll (waiting : List String) : (items : List Html.Item) →
    Layout.places.placesAll (layoutOfAll waiting items).1 =
        ((slotNamesAll items).filter waiting.contains).eraseDups ∧
      (layoutOfAll waiting items).2 = waiting.filter fun k ↦ !(slotNamesAll items).contains k
  | [] => ⟨by rfl, (List.filter_eq_self.mpr fun _ _ ↦ by rfl).symm⟩
  | i :: rest => by
      obtain ⟨hplaces, hwaiting⟩ := places_layoutOf waiting i
      obtain ⟨hothers, hrest⟩ := places_layoutOfAll (layoutOf waiting i).2 rest
      rw [layoutOfAll, slotNamesAll, Layout.placesAll_append]
      refine ⟨?_, ?_⟩
      · rw [hplaces, hothers, hwaiting, eraseDups_filter_append]
      · rw [hrest, hwaiting, List.filter_filter]
        refine List.filter_congr fun k _ ↦ ?_
        simp [Bool.and_comm]

end

end SafeMarkdown.Sanitizer
