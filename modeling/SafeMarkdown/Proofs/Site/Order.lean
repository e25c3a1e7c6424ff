import SafeMarkdown.Proofs.Site.Accounts
import SafeMarkdown.Proofs.Time.IsoTexts

/-!
# The order of documents

What a date tells is an instant, in whatever way it is spelled and with whatever offset. Validated
front matter has a date of which the instant can be read, or none.

Documents are ordered by these instants, the newest first, with the ones that have no date behind
them. Documents of one instant, and documents without a date, keep their order. There is only one
list like that, so ordering documents again changes nothing.
-/

namespace SafeMarkdown

namespace Iso

/-- The moment that a text tells, with the offset that it has there; a date tells its midnight. -/
def told? (s : String) : Option Moment :=
  match readMoment s with
  | some m => some m
  | none => (readDateOnly s).toOption.map .midnight

theorem told_of_readInstant {s : String} {r : Moment} (h : readInstant s = .ok r) :
    ∃ m, told? s = some m ∧ r.clock = m.instant := by
  rw [readInstant] at h
  rw [told?]
  cases hmoment : readMoment s with
  | some m =>
      rw [hmoment] at h
      dsimp only at h
      by_cases hcalendar : Moment.InCalendar m.instant
      · obtain ⟨told, htold, -, hclock⟩ := Moment.toUtc_of_inCalendar hcalendar
        rw [htold] at h
        cases h
        exact ⟨m, rfl, hclock⟩
      · rw [Moment.toUtc_of_not_inCalendar hcalendar] at h
        cases h
  | none =>
      rw [hmoment] at h
      cases hdate : readDateOnly s with
      | ok d =>
          rw [hdate] at h
          cases h
          exact ⟨.midnight d, rfl, (Moment.instant_of_offset_none rfl).symm⟩
      | error fault =>
          rw [hdate] at h
          cases h

end Iso

namespace FrontMatter

variable {fm : FrontMatter} {key : Option Moment}

/-- The instant that the date of a document tells, in microseconds; no instant for no date. -/
def instant? (fm : FrontMatter) : Option Int :=
  match fm.date with
  | none => none
  | some s => if s.isEmpty then none else (Iso.told? s).map Moment.instant

theorem clock_of_sortKey (h : fm.sortKey = .ok key) : key.map Moment.clock = fm.instant? := by
  rw [sortKey] at h
  rw [instant?]
  cases hdate : fm.date with
  | none =>
      rw [hdate] at h
      cases h
      rfl
  | some s =>
      rw [hdate] at h
      dsimp only at h ⊢
      split at h
      · rename_i hempty
        cases h
        rw [if_pos hempty]
        rfl
      · rename_i hempty
        rw [if_neg hempty]
        cases hread : Iso.readInstant s with
        | ok r =>
            rw [hread] at h
            cases h
            obtain ⟨m, htold, hclock⟩ := Iso.told_of_readInstant hread
            rw [htold, Option.map_some, Option.map_some, hclock]
        | error fault =>
            rw [hread] at h
            cases h

theorem isSome_instant (h : fm.IsOrdered) : fm.instant?.isSome = fm.isDated := by
  obtain ⟨key, hkey⟩ := h
  rw [← clock_of_sortKey hkey, Option.isSome_map, Site.isSome_sortKey hkey]

/-- Whether front matter is what validation makes of some fields. A text for a date is read by
validation itself. A moment is only written down, so it must be one that its text names, of an
instant that is in the calendar. -/
def IsValidated (fm : FrontMatter) : Prop :=
  ∃ fields, (∀ m, fields.get? "date" = some (.moment m) →
    (∀ o ∈ m.offset, Iso.IsTold o) ∧ Moment.InCalendar m.instant) ∧ ofFields fields = .ok fm

theorem IsValidated.isOrdered (h : fm.IsValidated) : fm.IsOrdered := by
  obtain ⟨fields, hmoment, hvalid⟩ := h
  refine isOrdered_of_date fun s hs ↦ ?_
  have hdate := (ofFields_eq_ok_iff.mp hvalid).2.2.1
  rw [Checked.field, hs] at hdate
  split at hdate
  · cases hdate
  · rename_i v hget
    cases v with
    | date d =>
        have htext : Iso.dateText d = s := Option.some.inj (Except.ok.inj (Except.ok.inj hdate))
        exact ⟨.midnight d, htext ▸ Iso.readInstant_dateText d⟩
    | moment m =>
        have htext : Iso.momentText m = s := Option.some.inj (Except.ok.inj (Except.ok.inj hdate))
        obtain ⟨htold, hcalendar⟩ := hmoment m hget
        obtain ⟨r, hr, -⟩ := Moment.toUtc_of_inCalendar hcalendar
        refine ⟨r, ?_⟩
        rw [← htext, Iso.readInstant, Iso.readMoment_momentText htold]
        exact hr
    | null | bool _ | int _ | float _ | str _ | bytes _ | arr _ | obj _ =>
        refine readInstant_of_readDate ?_ hdate rfl
        trivial

/-- Every document that is loaded has validated front matter. -/
theorem isValidated_of_parse {text body : String} {strict : Bool}
    (h : (parse text strict).Returns (fm, body)) : fm.IsValidated := by
  obtain ⟨fields, hloaded, hfields⟩ := fields_of_parse h
  refine ⟨fields, fun m hm ↦ ?_, hfields⟩
  exact (isTimeless_of_isLoaded (hloaded _ (Fields.mem_of_get? hm))).elim

/-- Front matter of nothing but a date that can be read. -/
theorem isValidated_of_date {date : Option String}
    (h : ∀ s ∈ date, ∃ m, Iso.readInstant s = .ok m) : IsValidated { date := date } := by
  refine ⟨fieldOfOption "date" (date.map .str), fun m hm ↦ ?_, ofFields_eq_ok_iff.mpr ?_⟩
  · cases date <;> cases hm
  · cases date with
    | none => exact ⟨rfl, rfl, rfl, rfl, rfl⟩
    | some s =>
        obtain ⟨m, hm⟩ := h s rfl
        exact ⟨rfl, rfl, readDate_str hm, rfl, rfl⟩

end FrontMatter

namespace Site

variable {α : Type} {metadata : α → FrontMatter} {items sorted other : List α}

/-- Whether an item may stand in front of another one: not if only the other one is dated, and not
if it is older. -/
def Precedes (metadata : α → FrontMatter) (a b : α) : Prop :=
  ((metadata b).isDated → (metadata a).isDated) ∧
    ∀ s ∈ (metadata a).instant?, ∀ t ∈ (metadata b).instant?, t ≤ s

/-- Whether items are sorted by what their metadata tell of their instants. -/
structure Ordered (metadata : α → FrontMatter) (items sorted : List α) : Prop where
  perm : sorted.Perm items
  pairwise : sorted.Pairwise (Precedes metadata)
  /-- Items of one instant keep their order, and so do those without any. -/
  stable : ∀ key, sorted.filter (fun a ↦ (metadata a).instant? = key) =
    items.filter fun a ↦ (metadata a).instant? = key

section Unique

/-- Items that each may stand in front of the other have the same instant. -/
theorem instant_eq {a b : α} (ha : (metadata a).IsOrdered) (hb : (metadata b).IsOrdered)
    (hab : Precedes metadata a b) (hba : Precedes metadata b a) :
    (metadata a).instant? = (metadata b).instant? := by
  rw [Precedes, ← FrontMatter.isSome_instant ha, ← FrontMatter.isSome_instant hb] at hab hba
  cases hs : (metadata a).instant? with
  | none =>
      cases ht : (metadata b).instant? with
      | none => rfl
      | some t =>
          rw [hs, ht] at hab
          exact (Bool.false_ne_true (hab.1 rfl)).elim
  | some s =>
      cases ht : (metadata b).instant? with
      | none =>
          rw [hs, ht] at hba
          exact (Bool.false_ne_true (hba.1 rfl)).elim
      | some t => rw [le_antisymm (hba.2 t ht s hs) (hab.2 s hs t ht)]

theorem eq_of_pairwise (h : ∀ a ∈ sorted, (metadata a).IsOrdered) (hperm : sorted.Perm other)
    (hsorted : sorted.Pairwise (Precedes metadata)) (hother : other.Pairwise (Precedes metadata))
    (hstable : ∀ key, sorted.filter (fun a ↦ (metadata a).instant? = key) =
      other.filter fun a ↦ (metadata a).instant? = key) : sorted = other := by
  induction sorted generalizing other with
  | nil => exact hperm.nil_eq
  | cons a rest ih =>
      cases other with
      | nil => exact hperm.eq_nil
      | cons b more =>
          -- Each head is in the other list, behind its head or as its head.
          have hkey : (metadata a).instant? = (metadata b).instant? := by
            rcases List.mem_cons.mp (hperm.mem_iff.mp List.mem_cons_self) with rfl | ha
            · rfl
            · rcases List.mem_cons.mp (hperm.mem_iff.mpr List.mem_cons_self) with rfl | hb
              · rfl
              · exact instant_eq (h a List.mem_cons_self) (h b (List.mem_cons_of_mem a hb))
                  (List.rel_of_pairwise_cons hsorted hb) (List.rel_of_pairwise_cons hother ha)
          have hheads := hstable (metadata a).instant?
          rw [List.filter_cons, List.filter_cons, if_pos (decide_eq_true rfl),
            if_pos (decide_eq_true hkey.symm)] at hheads
          obtain ⟨rfl, -⟩ := List.cons.inj hheads
          congr 1
          refine ih (fun c hc ↦ h c (List.mem_cons_of_mem a hc)) hperm.cons_inv hsorted.of_cons
            hother.of_cons fun key ↦ ?_
          have hrest := hstable key
          rw [List.filter_cons, List.filter_cons] at hrest
          split at hrest
          · exact (List.cons.inj hrest).2
          · exact hrest

/-- There is only one way to sort items whose instants are known. -/
theorem Ordered.eq (h : ∀ a ∈ items, (metadata a).IsOrdered)
    (hsorted : Ordered metadata items sorted) (hother : Ordered metadata items other) :
    sorted = other :=
  eq_of_pairwise (fun a ha ↦ h a (hsorted.perm.mem_iff.mp ha))
    (hsorted.perm.trans hother.perm.symm) hsorted.pairwise hother.pairwise
    fun key ↦ (hsorted.stable key).trans (hother.stable key).symm

end Unique

section Sorting

/-- A stable sort leaves those members as they are that are in order already. -/
theorem filter_mergeSort {β : Type} {le : β → β → Bool} {xs : List β} {p : β → Bool}
    (htrans : ∀ a b c, le a b = true → le b c = true → le a c = true)
    (htotal : ∀ a b, (le a b || le b a) = true)
    (h : (xs.filter p).Pairwise fun a b ↦ le a b = true) :
    (xs.mergeSort le).filter p = xs.filter p := by
  have hsublist : (xs.filter p).Sublist ((xs.mergeSort le).filter p) := by
    have hfiltered := (List.sublist_mergeSort htrans htotal h List.filter_sublist).filter p
    simpa only [List.filter_filter, Bool.and_self] using hfiltered
  have hperm := (List.mergeSort_perm xs le).filter p
  exact (hsublist.eq_of_length hperm.length_eq.symm).symm

theorem notOlder_trans (a b c : Moment × α) (hab : notOlder a b = true)
    (hbc : notOlder b c = true) : notOlder a c = true := by
  rw [notOlder, decide_eq_true_iff] at hab hbc ⊢
  exact hbc.trans hab

theorem notOlder_total (a b : Moment × α) : (notOlder a b || notOlder b a) = true := by
  rw [Bool.or_eq_true, notOlder, notOlder, decide_eq_true_iff, decide_eq_true_iff]
  exact le_total _ _

/-- The instants that dated items are sorted by are their own. -/
theorem instant_of_mem_dated {keyed : List (Moment × α)} (h : dated metadata items = .ok keyed)
    {p : Moment × α} (hp : p ∈ keyed) : (metadata p.2).instant? = some p.1.clock := by
  induction items generalizing keyed with
  | nil =>
      cases h
      cases hp
  | cons a rest ih =>
      rw [dated] at h
      obtain ⟨key, hkey, h⟩ := bind_eq_ok.mp h
      obtain ⟨others, hothers, h⟩ := bind_eq_ok.mp h
      cases key with
      | none =>
          cases h
          exact ih hothers hp
      | some m =>
          cases h
          rcases List.mem_cons.mp hp with rfl | hp
          · exact (FrontMatter.clock_of_sortKey hkey).symm
          · exact ih hothers hp

theorem pairwise_newest {keyed : List (Moment × α)}
    (hdated : ∀ p ∈ keyed, (metadata p.2).isDated = true)
    (hinstant : ∀ p ∈ keyed, (metadata p.2).instant? = some p.1.clock) :
    ((keyed.mergeSort notOlder).map Prod.snd).Pairwise (Precedes metadata) := by
  rw [List.pairwise_map]
  refine (List.pairwise_mergeSort notOlder_trans notOlder_total keyed).imp_of_mem ?_
  intro p q hp hq hle
  rw [List.mem_mergeSort] at hp hq
  refine ⟨fun _ ↦ hdated p hp, fun s hs t ht ↦ ?_⟩
  rw [hinstant p hp, Option.mem_some_iff] at hs
  rw [hinstant q hq, Option.mem_some_iff] at ht
  rw [← hs, ← ht]
  exact of_decide_eq_true hle

theorem filter_newest {keyed : List (Moment × α)}
    (hinstant : ∀ p ∈ keyed, (metadata p.2).instant? = some p.1.clock) (key : Option Int) :
    ((keyed.mergeSort notOlder).map Prod.snd).filter (fun a ↦ (metadata a).instant? = key) =
      (keyed.map Prod.snd).filter fun a ↦ (metadata a).instant? = key := by
  rw [List.filter_map, List.filter_map, filter_mergeSort notOlder_trans notOlder_total]
  refine List.pairwise_of_forall_mem_list fun p hp q hq ↦ ?_
  obtain ⟨hp, hpkey⟩ := List.mem_filter.mp hp
  obtain ⟨hq, hqkey⟩ := List.mem_filter.mp hq
  have hclock : some p.1.clock = some q.1.clock := by
    rw [← hinstant p hp, ← hinstant q hq]
    exact (of_decide_eq_true hpkey).trans (of_decide_eq_true hqkey).symm
  exact decide_eq_true (Option.some.inj hclock).ge

/-- Members that all belong to one of two parts are found there in their order. -/
theorem filter_parted {β : Type} {p q : β → Bool} {xs : List β} (c : Bool)
    (h : ∀ a ∈ xs, p a = true → q a = c) :
    (xs.filter q).filter p ++ (xs.filter fun a ↦ !q a).filter p = xs.filter p := by
  have hpart (f : Bool → Bool) : xs.filter (fun a ↦ p a && f (q a)) =
      xs.filter fun a ↦ p a && f c := by
    refine List.filter_congr fun a ha ↦ ?_
    cases hp : p a with
    | false => rfl
    | true => rw [h a ha hp]
  rw [List.filter_filter, List.filter_filter, hpart not, hpart fun b ↦ b]
  cases c <;> simp

theorem precedes_of_undated {a b : α} (hb : (metadata b).IsOrdered)
    (hundated : (metadata b).isDated = false) : Precedes metadata a b := by
  have hnone := FrontMatter.isSome_instant hb
  rw [hundated, Option.isSome_eq_false_iff, Option.isNone_iff_eq_none] at hnone
  refine ⟨fun hdated ↦ ?_, fun s _ t ht ↦ ?_⟩
  · rw [hundated] at hdated
    cases hdated
  · rw [hnone] at ht
    cases ht

/-- Items whose instants are known get sorted by them. -/
theorem sortBy_ordered (h : ∀ a ∈ items, (metadata a).IsOrdered) :
    ∃ sorted, sortBy metadata items = .ok sorted ∧ Ordered metadata items sorted := by
  obtain ⟨sorted, hsorted, hperm⟩ := sortBy_returns h
  obtain ⟨keyed, hkeyed, hmap⟩ := dated_returns h
  have hinstant (p : Moment × α) (hp : p ∈ keyed) := instant_of_mem_dated hkeyed hp
  have hdated : ∀ p ∈ keyed, (metadata p.2).isDated = true := by
    intro p hp
    have hmem : p.2 ∈ keyed.map Prod.snd := List.mem_map_of_mem hp
    rw [hmap] at hmem
    exact (List.mem_filter.mp hmem).2
  refine ⟨sorted, hsorted, hperm, ?_, fun key ↦ ?_⟩
  · rw [sortBy, hkeyed] at hsorted
    cases hsorted
    have hundated (a : α) {b : α} (hb : b ∈ items.filter fun d ↦ !(metadata d).isDated) :
        Precedes metadata a b := by
      obtain ⟨hb, hundated⟩ := List.mem_filter.mp hb
      rw [Bool.not_eq_true'] at hundated
      exact precedes_of_undated (h b hb) hundated
    exact List.pairwise_append.mpr ⟨pairwise_newest hdated hinstant,
      List.pairwise_of_forall_mem_list fun a _ b ↦ hundated a, fun a _ b ↦ hundated a⟩
  · rw [sortBy, hkeyed] at hsorted
    cases hsorted
    rw [List.filter_append, filter_newest hinstant, hmap]
    refine filter_parted key.isSome fun a ha hkey ↦ ?_
    rw [← of_decide_eq_true hkey]
    exact (FrontMatter.isSome_instant (h a ha)).symm

end Sorting

/-- Documents with validated front matter are sorted by the instants of their dates, the newest
first, and the ones without a date stand behind those with one. No document gets lost, and those
that have one instant, or no date, keep their order. Sorting them again changes nothing. -/
theorem sortDocuments_ordered {ds : List RenderedDocument}
    (h : ∀ d ∈ ds, d.frontMatter.IsValidated) :
    ∃ sorted, sortDocuments ds = .ok sorted ∧ Ordered RenderedDocument.frontMatter ds sorted ∧
      (∀ d ∈ ds, d.frontMatter.instant?.isSome = d.frontMatter.isDated) ∧
      sortDocuments sorted = .ok sorted := by
  have hknown (d : RenderedDocument) (hd : d ∈ ds) : d.frontMatter.IsOrdered := (h d hd).isOrdered
  obtain ⟨sorted, hsorted, hordered⟩ := sortBy_ordered hknown
  have hagain (d : RenderedDocument) (hd : d ∈ sorted) : d.frontMatter.IsOrdered :=
    hknown d (hordered.perm.mem_iff.mp hd)
  obtain ⟨twice, htwice, htwiceOrdered⟩ := sortBy_ordered hagain
  have hself : Ordered RenderedDocument.frontMatter sorted sorted :=
    ⟨.refl _, hordered.pairwise, fun _ ↦ rfl⟩
  rw [htwiceOrdered.eq hagain hself] at htwice
  exact ⟨sorted, hsorted, hordered, fun d hd ↦ FrontMatter.isSome_instant (hknown d hd), htwice⟩

/-- Notes without a date, of one instant that is spelled in two ways, and of a later one. -/
def dayNotes : List RenderedDocument :=
  [("plain", none), ("west", some "2024-03-01T11:00:00+01:00"), ("zulu", some "2024-03-01 10:00Z"),
    ("later", some "20240302")].map fun n ↦ ⟨n.1, { date := n.2 }, { body := "", digest := "" }⟩

theorem sortDocuments_ordered_dayNotes :
    (∀ d ∈ dayNotes, d.frontMatter.IsValidated) ∧
      ∃ sorted, sortDocuments dayNotes = .ok sorted ∧ sorted.length = 4 ∧
        (sorted.filter fun d ↦ d.frontMatter.instant? = some 63844970400000000).map
          RenderedDocument.slug = ["west", "zulu"] := by
  have hvalid : ∀ d ∈ dayNotes, d.frontMatter.IsValidated := by
    have hdates : ∀ d ∈ dayNotes, ∀ s ∈ d.frontMatter.date,
        (Iso.readInstant s).toOption.isSome = true := by
      decide +kernel
    intro d hd
    have hread := hdates d hd
    obtain ⟨n, -, rfl⟩ := List.mem_map.mp hd
    refine FrontMatter.isValidated_of_date fun s hs ↦ ?_
    cases hinstant : Iso.readInstant s with
    | ok m => exact ⟨m, rfl⟩
    | error fault =>
        have hsome := hread s hs
        rw [hinstant] at hsome
        cases hsome
  obtain ⟨sorted, hsorted, hordered, -, -⟩ := sortDocuments_ordered hvalid
  refine ⟨hvalid, sorted, hsorted, hordered.perm.length_eq, ?_⟩
  rw [hordered.stable]
  decide +kernel

end Site

end SafeMarkdown
