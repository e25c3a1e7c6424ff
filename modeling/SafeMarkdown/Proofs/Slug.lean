import Mathlib.Data.Finset.Card
import Mathlib.Data.Nat.Find
import SafeMarkdown.Slug

/-!
# The search for a new slug

The spellings of a base with their suffixes are all different, so among one more spelling than there
are slugs taken one is new. The search that looks at one spelling after the other, with no bound of
its own, therefore ends, and it ends with the first spelling that is new.

Slugs that are found one after the other, each of them taken for the searches after it, are all
different and none of them was taken before, also when one base is spelled like another one with a
suffix.
-/

namespace SafeMarkdown

/-- Names are given one after the other, each of them new, and what is taken grows by them. -/
structure Allots (taken taken' names : List String) : Prop where
  subset : taken ⊆ taken'
  nodup : names.Nodup
  fresh : ∀ s ∈ names, s ∉ taken ∧ s ∈ taken'

namespace Allots

variable {name : String} {taken taken' last names more : List String}

theorem nil : Allots taken taken [] where
  subset := List.Subset.refl _
  nodup := List.nodup_nil
  fresh := List.forall_mem_nil _

theorem append (h : Allots taken taken' names) (hmore : Allots taken' last more) :
    Allots taken last (names ++ more) where
  subset := List.Subset.trans h.subset hmore.subset
  nodup := by
    refine List.nodup_append.mpr ⟨h.nodup, hmore.nodup, ?_⟩
    intro s hs t ht heq
    exact (hmore.fresh t ht).1 (heq ▸ (h.fresh s hs).2)
  fresh := by
    intro s hs
    rcases List.mem_append.mp hs with hs | hs
    · exact ⟨(h.fresh s hs).1, hmore.subset (h.fresh s hs).2⟩
    · exact ⟨fun htaken ↦ (hmore.fresh s hs).1 (h.subset htaken), (hmore.fresh s hs).2⟩

theorem of_cons (h : Allots (name :: taken) taken' names) : Allots taken taken' names where
  subset := fun _ hs ↦ h.subset (List.mem_cons_of_mem name hs)
  nodup := h.nodup
  fresh := fun s hs ↦
    ⟨fun htaken ↦ (h.fresh s hs).1 (List.mem_cons_of_mem name htaken), (h.fresh s hs).2⟩

theorem cons (hname : name ∉ taken) (h : Allots (name :: taken) taken' names) :
    Allots taken taken' (name :: names) where
  subset := h.of_cons.subset
  nodup := List.nodup_cons.mpr ⟨fun hmem ↦ (h.fresh name hmem).1 List.mem_cons_self, h.nodup⟩
  fresh := List.forall_mem_cons.mpr ⟨⟨hname, h.subset List.mem_cons_self⟩, h.of_cons.fresh⟩

end Allots

namespace Slug

variable {base slug : String} {taken taken' bases slugs : List String} {m n k : Nat}

section Spellings

theorem toList_numbered (base : String) (n : Nat) :
    (numbered base n).toList =
      base.toList ++ if n = 0 then [] else '-' :: Nat.toDigits 10 n := by
  unfold numbered
  split
  · simp
  · simp [String.toList_append]

theorem numbered_zero (base : String) : numbered base 0 = base :=
  rfl

theorem numbered_of_pos (base : String) (hn : 1 ≤ n) :
    numbered base n = base ++ "-" ++ toString n := by
  rw [numbered, if_neg (Nat.ne_of_gt hn), Nat.toString_eq_ofList_toDigits]

theorem numbered_injective {base : String} {m n : Nat} (h : numbered base m = numbered base n) :
    m = n := by
  have hlist := congrArg String.toList h
  rw [toList_numbered, toList_numbered] at hlist
  have hsuffix := List.append_cancel_left hlist
  by_cases hm : m = 0
  · by_cases hn : n = 0
    · rw [hm, hn]
    · simp [hm, hn] at hsuffix
  · by_cases hn : n = 0
    · simp [hm, hn] at hsuffix
    · rw [if_neg hm, if_neg hn] at hsuffix
      have hdigits := congrArg (Nat.ofDigitChars 10 · 0) (List.cons.inj hsuffix).2
      simpa using hdigits

end Spellings

section FirstFree

/-- Whether a suffix is the first one that makes a base new. -/
structure IsFirstFree (taken : List String) (base : String) (n : Nat) : Prop where
  free : numbered base n ∉ taken
  before : ∀ m < n, numbered base m ∈ taken

theorem IsFirstFree.eq (h : IsFirstFree taken base m) (h' : IsFirstFree taken base n) : m = n := by
  rcases Nat.lt_trichotomy m n with hlt | heq | hlt
  · exact (h.free (h'.before m hlt)).elim
  · exact heq
  · exact (h'.free (h.before n hlt)).elim

/-- Among one more spelling than there are slugs taken one is new. -/
theorem exists_free (base : String) (taken : List String) :
    ∃ n ≤ taken.toFinset.card, numbered base n ∉ taken := by
  by_contra! hall
  have hsubset : (Finset.range (taken.toFinset.card + 1)).image (numbered base) ⊆
      taken.toFinset := by
    intro s hs
    obtain ⟨n, hn, rfl⟩ := Finset.mem_image.mp hs
    exact List.mem_toFinset.mpr (hall n (Nat.lt_succ_iff.mp (Finset.mem_range.mp hn)))
  have hcard := Finset.card_le_card hsubset
  rw [Finset.card_image_of_injective _ fun _ _ ↦ numbered_injective, Finset.card_range] at hcard
  exact Nat.not_succ_le_self _ hcard

theorem exists_isFirstFree (base : String) (taken : List String) :
    ∃ n ≤ taken.toFinset.card, IsFirstFree taken base n := by
  obtain ⟨n, hn, hfree⟩ := exists_free base taken
  have hex : ∃ n, numbered base n ∉ taken := ⟨n, hfree⟩
  exact ⟨Nat.find hex, (Nat.find_min' hex hfree).trans hn, Nat.find_spec hex,
    fun m hm ↦ not_not.mp (Nat.find_min hex hm)⟩

theorem firstFree_eq {fuel i : Nat} (h : IsFirstFree taken base n) (hi : i ≤ n)
    (hfuel : n ≤ i + fuel) : firstFree base taken fuel i = numbered base n := by
  induction fuel generalizing i with
  | zero =>
      obtain rfl : i = n := Nat.le_antisymm hi hfuel
      rfl
  | succ fuel ih =>
      rw [firstFree]
      rcases Nat.lt_or_eq_of_le hi with hlt | rfl
      · rw [if_pos (List.contains_iff_mem.mpr (h.before i hlt))]
        exact ih hlt (by omega)
      · rw [if_neg fun hmem ↦ h.free (List.contains_iff_mem.mp hmem)]

/-- The search has enough spellings to find the first new one. -/
theorem unique_eq (h : IsFirstFree taken base n) : unique base taken = numbered base n := by
  obtain ⟨m, hm, hfirst⟩ := exists_isFirstFree base taken
  obtain rfl := h.eq hfirst
  have hfuel : n ≤ taken.length := hm.trans (List.toFinset_card_le taken)
  exact firstFree_eq h n.zero_le (by omega)

theorem unique_not_mem (base : String) (taken : List String) : unique base taken ∉ taken := by
  obtain ⟨n, -, h⟩ := exists_isFirstFree base taken
  rw [unique_eq h]
  exact h.free

theorem unique_ne_empty (hbase : base ≠ "") (taken : List String) : unique base taken ≠ "" := by
  obtain ⟨n, -, h⟩ := exists_isFirstFree base taken
  rw [unique_eq h]
  intro hempty
  have hlist := congrArg String.toList hempty
  rw [toList_numbered] at hlist
  have hnil : base.toList = [] := (List.append_eq_nil_iff.mp hlist).1
  exact hbase (String.toList_inj.mp hnil)

end FirstFree

section Search

/-- The search without a bound: from a suffix on, one spelling after the other is looked at until
one is new. It ends with that one, after so many spellings. -/
inductive Search (taken : List String) (base : String) : Nat → String → Nat → Prop where
  | found {n : Nat} (h : numbered base n ∉ taken) : Search taken base n (numbered base n) 1
  | next {n tries : Nat} {slug : String} (h : numbered base n ∈ taken)
      (rest : Search taken base (n + 1) slug tries) : Search taken base n slug (tries + 1)

theorem Search.eq {tries tries' : Nat} {slug' : String} (h : Search taken base n slug tries)
    (h' : Search taken base n slug' tries') : slug' = slug ∧ tries' = tries := by
  induction h generalizing slug' tries' with
  | found hfree =>
      cases h' with
      | found _ => exact ⟨rfl, rfl⟩
      | next htaken _ => exact (hfree htaken).elim
  | next htaken _ ih =>
      cases h' with
      | found hfree => exact (hfree htaken).elim
      | next _ hrest =>
          obtain ⟨rfl, rfl⟩ := ih hrest
          exact ⟨rfl, rfl⟩

theorem IsFirstFree.search {i : Nat} (h : IsFirstFree taken base n) (hi : i + k = n) :
    Search taken base i (numbered base n) (k + 1) := by
  induction k generalizing i with
  | zero =>
      obtain rfl : i = n := hi
      exact .found h.free
  | succ k ih => exact .next (h.before i (by omega)) (ih (by omega))

/-- What the search for a new slug comes to. -/
structure Finds (taken : List String) (base slug : String) : Prop where
  kept : base ∉ taken → slug = base
  suffixed : base ∈ taken → ∃ n, 1 ≤ n ∧ slug = base ++ "-" ++ toString n ∧ slug ∉ taken ∧
    ∀ m, 1 ≤ m → m < n → base ++ "-" ++ toString m ∈ taken
  /-- The search ends, and looks at no more than one spelling more than there are slugs taken. -/
  ends : ∃ tries ≤ taken.toFinset.card + 1, ∀ slug' tries',
    Search taken base 0 slug' tries' ↔ slug' = slug ∧ tries' = tries

theorem Finds.not_mem (h : Finds taken base slug) : slug ∉ taken := by
  by_cases hbase : base ∈ taken
  · obtain ⟨n, -, -, hfree, -⟩ := h.suffixed hbase
    exact hfree
  · rwa [h.kept hbase]

theorem unique_finds (taken : List String) (base : String) :
    Finds taken base (unique base taken) := by
  obtain ⟨n, hn, h⟩ := exists_isFirstFree base taken
  rw [unique_eq h]
  refine ⟨fun hfree ↦ ?_, fun htaken ↦ ?_, n + 1, Nat.succ_le_succ hn, fun slug' tries' ↦ ?_⟩
  · have hzero : IsFirstFree taken base 0 := ⟨hfree, fun m hm ↦ absurd hm m.not_lt_zero⟩
    rw [h.eq hzero, numbered_zero]
  · have hpos : 1 ≤ n := by
      by_contra hzero
      obtain rfl : n = 0 := by omega
      exact h.free htaken
    refine ⟨n, hpos, numbered_of_pos base hpos, h.free, fun m hm hlt ↦ ?_⟩
    rw [← numbered_of_pos base hm]
    exact h.before m hlt
  · have hsearch := h.search n.zero_add
    exact ⟨hsearch.eq, fun ⟨hslug, htries⟩ ↦ hslug ▸ htries ▸ hsearch⟩

end Search

section Runs

/-- The slugs of bases that are searched one after the other, and what is taken then, last first. -/
def uniqueAll (taken : List String) : List String → List String × List String
  | [] => ([], taken)
  | base :: rest =>
    let slug := unique base taken
    let (slugs, taken) := uniqueAll (slug :: taken) rest
    (slug :: slugs, taken)

/-- A run of searches. What each of them finds, and nothing else, is taken for those after it. -/
inductive Run : List String → List String → List String → List String → Prop where
  | nil {taken : List String} : Run taken [] [] taken
  | cons {taken taken' bases slugs : List String} {base slug : String}
      (h : Finds taken base slug) (rest : Run (slug :: taken) bases slugs taken') :
      Run taken (base :: bases) (slug :: slugs) taken'

theorem run_uniqueAll (taken bases : List String) :
    Run taken bases (uniqueAll taken bases).1 (uniqueAll taken bases).2 := by
  induction bases generalizing taken with
  | nil => exact .nil
  | cons base rest ih => exact .cons (unique_finds taken base) (ih _)

theorem Run.allots (h : Run taken bases slugs taken') : Allots taken taken' slugs := by
  induction h with
  | nil => exact .nil
  | cons h _ ih => exact ih.cons h.not_mem

/-- What is taken after a run was taken before, or was found. -/
theorem Run.mem_iff (h : Run taken bases slugs taken') (s : String) :
    s ∈ taken' ↔ s ∈ taken ∨ s ∈ slugs := by
  induction h with
  | nil => simp
  | cons _ _ ih =>
      rw [ih, List.mem_cons, List.mem_cons]
      tauto

theorem uniqueAll_append (taken bases more : List String) :
    uniqueAll taken (bases ++ more) =
      ((uniqueAll taken bases).1 ++ (uniqueAll (uniqueAll taken bases).2 more).1,
        (uniqueAll (uniqueAll taken bases).2 more).2) := by
  induction bases generalizing taken with
  | nil => rfl
  | cons base rest ih =>
      rw [List.cons_append, uniqueAll, ih]
      rfl

end Runs

end Slug

end SafeMarkdown
