import SafeMarkdown.Value

/-!
# Fields

What setting a field changes.
-/

namespace SafeMarkdown.Fields

theorem mem_of_get? {fs : Fields} {name : String} {v : Value} (h : fs.get? name = some v) :
    (name, v) ∈ fs := by
  obtain ⟨before, after, rfl, -⟩ := List.lookup_eq_some_iff.mp h
  exact List.mem_append_right before List.mem_cons_self

theorem mem_set {fs : Fields} {name : String} {v : Value} {f : String × Value}
    (h : f ∈ fs.set name v) : f ∈ fs ∨ f = (name, v) := by
  induction fs with
  | nil => simpa [set] using h
  | cons g fs ih =>
      obtain ⟨n, w⟩ := g
      rw [set] at h
      split at h
      · rename_i hname
        rcases List.mem_cons.mp h with rfl | h
        · exact .inr (by rw [beq_iff_eq.mp hname])
        · exact .inl (List.mem_cons_of_mem _ h)
      · rcases List.mem_cons.mp h with rfl | h
        · exact .inl List.mem_cons_self
        · exact (ih h).imp_left (List.mem_cons_of_mem _)

theorem mem_foldl_set {fs start : Fields} {f : String × Value}
    (h : f ∈ fs.foldl (fun acc f ↦ acc.set f.1 f.2) start) : f ∈ start ∨ f ∈ fs := by
  induction fs generalizing start with
  | nil => exact .inl h
  | cons g rest ih =>
      rcases ih h with h | h
      · rcases mem_set h with h | rfl
        · exact .inl h
        · exact .inr List.mem_cons_self
      · exact .inr (List.mem_cons_of_mem g h)

theorem mem_ofList {fs : Fields} {f : String × Value} (h : f ∈ ofList fs) : f ∈ fs :=
  (mem_foldl_set h).resolve_left List.not_mem_nil

theorem has_set (fs : Fields) (name other : String) (v : Value) :
    (fs.set name v).has other = (fs.has other || name == other) := by
  induction fs with
  | nil => simp [set, has]
  | cons f fs ih =>
      obtain ⟨n, w⟩ := f
      rw [set]
      split
      · rename_i hname
        rw [beq_iff_eq.mp hname]
        cases hother : name == other with
        | true => simp [has, hother]
        | false => simp [has, hother]
      · have hcons (w : Value) (gs : Fields) :
            has ((n, w) :: gs) other = (n == other || gs.has other) :=
          rfl
        rw [hcons, hcons, ih, Bool.or_assoc]

theorem get?_cons (name other : String) (v : Value) (fs : Fields) :
    get? ((name, v) :: fs) other = if other = name then some v else fs.get? other := by
  by_cases h : other = name
  · simp [get?, h]
  · simp [get?, List.lookup_cons, beq_eq_false_iff_ne.mpr h, h]

theorem get?_set_ne {fs : Fields} {name other : String} (h : other ≠ name) (v : Value) :
    (fs.set name v).get? other = fs.get? other := by
  induction fs with
  | nil => rw [set, get?_cons, if_neg h]
  | cons f fs ih =>
      obtain ⟨n, w⟩ := f
      rw [set]
      split
      · rename_i hname
        rw [beq_iff_eq.mp hname, get?_cons, get?_cons, if_neg h, if_neg h]
      · rw [get?_cons, get?_cons, ih]

theorem get?_set_self (fs : Fields) (name : String) (v : Value) :
    (fs.set name v).get? name = some v := by
  induction fs with
  | nil => rw [set, get?_cons, if_pos rfl]
  | cons f fs ih =>
      obtain ⟨n, w⟩ := f
      rw [set]
      split
      · rename_i hname
        rw [get?_cons, if_pos (beq_iff_eq.mp hname).symm]
      · rename_i hname
        have hne : name ≠ n := fun heq ↦ hname (beq_iff_eq.mpr heq.symm)
        rw [get?_cons, if_neg hne, ih]

theorem get?_erase (fs : Fields) (name : String) : (fs.erase name).get? name = none := by
  rw [get?, List.lookup_eq_none_iff]
  intro f hf
  have hne := (List.mem_filter.mp hf).2
  simpa using fun heq : name = f.1 ↦ by simp [heq] at hne

theorem get?_erase_ne (fs : Fields) {name other : String} (h : other ≠ name) :
    (fs.erase name).get? other = fs.get? other := by
  induction fs with
  | nil => rfl
  | cons f fs ih =>
      obtain ⟨n, v⟩ := f
      rw [get?_cons, erase, List.filter_cons]
      by_cases hname : n = name
      · rw [if_neg (by simp [hname]), if_neg (by rw [hname]; exact h)]
        exact ih
      · rw [if_pos (by simpa using hname), get?_cons]
        split
        · rfl
        · exact ih

theorem set_of_not_mem {fs : Fields} {name : String} (h : name ∉ fs.map Prod.fst) (v : Value) :
    fs.set name v = fs ++ [(name, v)] := by
  induction fs with
  | nil => rfl
  | cons f fs ih =>
      obtain ⟨n, w⟩ := f
      rw [List.map_cons, List.mem_cons, not_or] at h
      have hne : (n == name) = false := beq_eq_false_iff_ne.mpr (Ne.symm h.1)
      rw [set, hne, ih h.2]
      rfl

theorem foldl_set_of_nodup {fs start : Fields} (h : ((start ++ fs).map Prod.fst).Nodup) :
    fs.foldl (fun acc f ↦ acc.set f.1 f.2) start = start ++ fs := by
  induction fs generalizing start with
  | nil => simp
  | cons f fs ih =>
      obtain ⟨name, v⟩ := f
      have hmove : start ++ (name, v) :: fs = start ++ [(name, v)] ++ fs := by simp
      have hname : name ∉ start.map Prod.fst := by
        intro hmem
        rw [List.map_append, List.map_cons] at h
        exact (List.nodup_append.mp h).2.2 _ hmem _ List.mem_cons_self rfl
      rw [hmove] at h
      rw [List.foldl_cons, set_of_not_mem hname, ih h, List.append_assoc]
      rfl

/-- Setting fields with distinct names one after the other keeps them as they are. -/
theorem ofList_of_nodup {fs : Fields} (h : (fs.map Prod.fst).Nodup) : ofList fs = fs :=
  foldl_set_of_nodup h

theorem nodup_set {fs : Fields} (h : (fs.map Prod.fst).Nodup) (name : String) (v : Value) :
    ((fs.set name v).map Prod.fst).Nodup := by
  induction fs with
  | nil => simp [set]
  | cons f fs ih =>
      obtain ⟨n, w⟩ := f
      rw [List.map_cons, List.nodup_cons] at h
      rw [set]
      split
      · exact List.nodup_cons.mpr h
      · rename_i hne
        refine List.nodup_cons.mpr ⟨fun hmem ↦ ?_, ih h.2⟩
        obtain ⟨g, hg, hname⟩ := List.mem_map.mp hmem
        rcases mem_set hg with hg | rfl
        · exact h.1 (hname ▸ List.mem_map_of_mem hg)
        · exact hne (beq_iff_eq.mpr hname.symm)

/-- Fields that are set one after the other have distinct names. -/
theorem nodup_ofList (fs : Fields) : ((ofList fs).map Prod.fst).Nodup :=
  List.foldlRecOn fs _ (motive := fun acc : Fields ↦ (acc.map Prod.fst).Nodup) List.nodup_nil
    fun _ hacc f _ ↦ nodup_set hacc f.1 f.2

theorem get?_of_mem {fs : Fields} (h : (fs.map Prod.fst).Nodup) {f : String × Value}
    (hf : f ∈ fs) : fs.get? f.1 = some f.2 := by
  induction fs with
  | nil => cases hf
  | cons g rest ih =>
      rw [List.map_cons, List.nodup_cons] at h
      rcases List.mem_cons.mp hf with rfl | hf
      · rw [get?_cons, if_pos rfl]
      · have hne : f.1 ≠ g.1 := fun heq ↦ h.1 (heq ▸ List.mem_map_of_mem hf)
        rw [get?_cons, if_neg hne, ih h.2 hf]

theorem get?_foldl_set (fs start : Fields) (name : String) :
    (fs.foldl (fun acc f ↦ acc.set f.1 f.2) start).get? name =
      (get? fs.reverse name).or (start.get? name) := by
  induction fs generalizing start with
  | nil => rfl
  | cons f rest ih =>
      have hsplit : get? (rest.reverse ++ [f]) name = (get? rest.reverse name).or (get? [f] name) :=
        List.lookup_append
      rw [List.foldl_cons, ih, List.reverse_cons, hsplit, Option.or_assoc]
      congr 1
      by_cases hname : name = f.1
      · rw [hname, get?_set_self, get?_cons, if_pos rfl]
        rfl
      · rw [get?_set_ne hname, get?_cons, if_neg hname]
        rfl

/-- Among fields that are set one after the other the last one of a name counts. -/
theorem mem_ofList_iff {fs : Fields} {f : String × Value} :
    f ∈ ofList fs ↔ ∃ before after, fs = before ++ f :: after ∧ ∀ g ∈ after, f.1 ≠ g.1 := by
  have hlast : (ofList fs).get? f.1 = get? fs.reverse f.1 :=
    (get?_foldl_set fs [] f.1).trans (Option.or_none)
  have hget : f ∈ ofList fs ↔ get? fs.reverse f.1 = some f.2 := by
    rw [← hlast]
    exact ⟨get?_of_mem (nodup_ofList fs), mem_of_get?⟩
  rw [hget, get?, List.lookup_eq_some_iff]
  refine ⟨?_, ?_⟩
  · rintro ⟨after, before, hreverse, hafter⟩
    refine ⟨before.reverse, after.reverse, ?_, fun g hg ↦ ?_⟩
    · rw [List.reverse_eq_iff.mp hreverse, List.reverse_append, List.reverse_cons,
        List.append_assoc]
      rfl
    · exact bne_iff_ne.mp (hafter g (List.mem_reverse.mp hg))
  · rintro ⟨before, after, rfl, hafter⟩
    refine ⟨after.reverse, before.reverse, ?_, fun g hg ↦ ?_⟩
    · rw [List.reverse_append, List.reverse_cons, List.append_assoc]
      rfl
    · exact bne_iff_ne.mpr (hafter g (List.mem_reverse.mp hg))

end SafeMarkdown.Fields
