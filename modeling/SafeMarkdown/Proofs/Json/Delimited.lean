import SafeMarkdown.Proofs.Json.Alike
import SafeMarkdown.Proofs.Json.ReadBack

/-!
# JSON texts determine their values

The one-line text of a value shows where it ends: of two such texts, each in front of something that
ends a value, neither goes on in what follows the other. So equal texts have equal values. Integers
are longer than any reader takes, which is why they are compared by their digits and not by reading
them back.
-/

namespace SafeMarkdown.Json

open Value

variable {admitted : Double → Prop} {r r' : List Char}

section Scalars

/-- A value that is neither list nor object. -/
def IsScalar (v : Value) : Prop :=
  (∀ items, v ≠ .arr items) ∧ ∀ fields, v ≠ .obj fields

/-- The text of a scalar starts with no bracket. -/
def OpensScalar (s : List Char) : Prop :=
  ∃ c rest, s = c :: rest ∧ c ≠ '[' ∧ c ≠ ']' ∧ c ≠ '\x7b' ∧ c ≠ '\x7d'

theorem opensScalar_signed (negative : Bool) {c : Char} (hc : isDigit c = true) (s : List Char) :
    OpensScalar ((if negative then ['-'] else []) ++ c :: s) := by
  have hne {a : Char} (ha : isDigit a = false) : c ≠ a := by
    rintro rfl
    rw [hc] at ha
    cases ha
  cases negative with
  | true => exact ⟨'-', c :: s, rfl, by decide, by decide, by decide, by decide⟩
  | false =>
      exact ⟨c, s, rfl, hne (by decide), hne (by decide), hne (by decide), hne (by decide)⟩

theorem exists_toDigits (n : Nat) :
    ∃ c cs, Nat.toDigits 10 n = c :: cs ∧ isDigit c = true := by
  cases hdigits : Nat.toDigits 10 n with
  | nil => exact (Nat.toDigits_ne_nil hdigits).elim
  | cons c cs => exact ⟨c, cs, rfl, isDigit_of_mem_toDigits c (hdigits ▸ List.mem_cons_self)⟩

theorem opensScalar_intText (n : Int) (rest : List Char) : OpensScalar (intText n ++ rest) := by
  obtain ⟨c, cs, hdigits, hc⟩ := exists_toDigits n.natAbs
  rw [intText_eq, hdigits, List.append_assoc]
  exact opensScalar_signed _ hc _

theorem opensScalar_scalarText {v : Value} (h : v.IsPlain admitted) (hv : IsScalar v)
    (hrest : Stops r) : OpensScalar (scalarText .json false v ++ r) := by
  cases v with
  | null => exact ⟨'n', _, rfl, by decide, by decide, by decide, by decide⟩
  | bool b =>
      cases b with
      | true => exact ⟨'t', _, rfl, by decide, by decide, by decide, by decide⟩
      | false => exact ⟨'f', _, rfl, by decide, by decide, by decide, by decide⟩
  | int n => exact opensScalar_intText n r
  | float x =>
      cases x with
      | nan => exact ⟨'N', _, rfl, by decide, by decide, by decide, by decide⟩
      | infinite negative =>
          cases negative with
          | true => exact ⟨'-', _, rfl, by decide, by decide, by decide, by decide⟩
          | false => exact ⟨'I', _, rfl, by decide, by decide, by decide, by decide⟩
      | finite negative rank =>
          obtain ⟨c, more, htext, hc⟩ :=
            exists_digit_of_unsignedNumber (unsignedNumber_text negative rank hrest)
          rw [scalarText, floatText, DoubleFormat.text, List.append_assoc, htext]
          exact opensScalar_signed negative hc more
  | str s => exact ⟨'"', _, rfl, by decide, by decide, by decide, by decide⟩
  | bytes bs => exact h.elim
  | date d => exact h.elim
  | moment m => exact h.elim
  | arr items => exact (hv.1 items rfl).elim
  | obj fields => exact (hv.2 fields rfl).elim

/-- What is read of the digits of an integer is an integer, unless there are too many of them. -/
theorem isInt_of_value_intText (n : Int) (hrest : Stops r) {v : Value} {rest : List Char}
    (h : value 1 (intText n ++ r) = some (v, rest)) : ∃ m, v = .int m := by
  obtain ⟨c, cs, hdigits, hc⟩ := exists_toDigits n.natAbs
  obtain ⟨hpoint, hexponent⟩ := hrest.ne
  rw [intText_eq, hdigits, List.append_assoc, List.cons_append, value_signed _ hc,
    ← List.cons_append, ← hdigits, unsignedNumber_whole _ (whole_toDigits _) hrest.noDigit,
    afterWhole, fractionPart_of_ne hpoint] at h
  dsimp only at h
  rw [exponentPart_of_ne hexponent] at h
  simp only [List.isEmpty_nil, if_true] at h
  split_ifs at h
  all_goals
    cases h
    exact ⟨_, rfl⟩

/-- A scalar that is no integer is read back. -/
theorem value_scalarText_of_isPlain {v : Value} (h : v.IsPlain admitted) (hv : IsScalar v)
    (hint : ∀ n, v ≠ .int n) (hrest : Stops r) :
    value 1 (scalarText .json false v ++ r) = some (v, r) := by
  cases v with
  | null | bool _ | str _ =>
      exact (value_scalarText (by simp [IsJson]) hv.1 hv.2 hrest).2 0
  | int n => exact (hint n rfl).elim
  | float x =>
      cases x with
      | nan => rfl
      | infinite negative =>
          cases negative with
          | true => rfl
          | false => rfl
      | finite negative rank =>
          have hjson : Value.IsJson (.float (.finite negative rank)) := ⟨negative, rank, rfl⟩
          exact (value_scalarText hjson hv.1 hv.2 hrest).2 0
  | bytes bs => exact h.elim
  | date d => exact h.elim
  | moment m => exact h.elim
  | arr items => exact (hv.1 items rfl).elim
  | obj fields => exact (hv.2 fields rfl).elim

theorem intText_append_inj {m n : Int} (hr : Stops r) (hr' : Stops r')
    (h : intText m ++ r = intText n ++ r') : m = n ∧ r = r' := by
  have hdigits {m n : Nat} (h : Nat.toDigits 10 m ++ r = Nat.toDigits 10 n ++ r') :
      m = n ∧ r = r' := by
    have hm := span_digits (isDigit_of_mem_toDigits (n := m)) hr.noDigit
    have hn := span_digits (isDigit_of_mem_toDigits (n := n)) hr'.noDigit
    rw [h] at hm
    have hsame : Nat.toDigits 10 m = Nat.toDigits 10 n := hm.1.symm.trans hn.1
    refine ⟨?_, hm.2.symm.trans hn.2⟩
    rw [← natOf_toDigits m, hsame, natOf_toDigits]
  have hminus {a : Nat} {s t : List Char} (h : '-' :: s = Nat.toDigits 10 a ++ t) : False := by
    obtain ⟨c, cs, hcs, hc⟩ := exists_toDigits a
    rw [hcs, List.cons_append] at h
    rw [← (List.cons.inj h).1] at hc
    exact absurd hc (by decide)
  unfold intText at h
  split_ifs at h with hm hn hn
  · obtain ⟨habs, hrest⟩ := hdigits (List.cons.inj h).2
    exact ⟨by omega, hrest⟩
  · exact (hminus h).elim
  · exact (hminus h.symm).elim
  · obtain ⟨habs, hrest⟩ := hdigits h
    exact ⟨by omega, hrest⟩

/-- The text of a scalar shows the scalar, and where it ends. -/
theorem scalarText_append_inj {v w : Value} (hv : v.IsPlain admitted) (hw : w.IsPlain admitted)
    (hvs : IsScalar v) (hws : IsScalar w) (hr : Stops r) (hr' : Stops r')
    (h : scalarText .json false v ++ r = scalarText .json false w ++ r') : v = w ∧ r = r' := by
  by_cases hvi : ∃ m, v = .int m
  · obtain ⟨m, rfl⟩ := hvi
    by_cases hwi : ∃ n, w = .int n
    · obtain ⟨n, rfl⟩ := hwi
      obtain ⟨rfl, hrest⟩ := intText_append_inj hr hr' h
      exact ⟨rfl, hrest⟩
    · have hread := value_scalarText_of_isPlain hw hws (fun n hn ↦ hwi ⟨n, hn⟩) hr'
      rw [← h] at hread
      exact (hwi (isInt_of_value_intText m hr hread)).elim
  · have hread := value_scalarText_of_isPlain hv hvs (fun n hn ↦ hvi ⟨n, hn⟩) hr
    by_cases hwi : ∃ n, w = .int n
    · obtain ⟨n, rfl⟩ := hwi
      rw [h] at hread
      exact (hvi (isInt_of_value_intText n hr' hread)).elim
    · have hread' := value_scalarText_of_isPlain hw hws (fun n hn ↦ hwi ⟨n, hn⟩) hr'
      rw [h, hread'] at hread
      cases hread
      exact ⟨rfl, rfl⟩

theorem stringText_append_inj {s t : String} (h : stringText s ++ r = stringText t ++ r') :
    s = t ∧ r = r' := by
  obtain ⟨body, hbody, hread⟩ := stringRest_stringText s r
  obtain ⟨body', hbody', hread'⟩ := stringRest_stringText t r'
  rw [hbody, hbody'] at h
  rw [← (List.cons.inj h).2, hread] at hread'
  have hboth := Option.some.inj hread'
  exact ⟨String.toList_inj.mp (congrArg Prod.fst hboth), congrArg Prod.snd hboth⟩

end Scalars

section Values

/-- How a list goes on behind its first item. -/
def itemsTail : List Value → List Char
  | [] => []
  | v :: rest => ',' :: compactItems (v :: rest)

theorem compactItems_eq (v : Value) (rest : List Value) :
    compactItems (v :: rest) = compact v ++ itemsTail rest := by
  cases rest with
  | nil => rw [compactItems, itemsTail, List.append_nil]
  | cons w rest => rw [compactItems_cons, itemsTail]

/-- How an object goes on behind its first field. -/
def fieldsTail : Fields → List Char
  | [] => []
  | f :: rest => ',' :: compactFields (f :: rest)

theorem compactFields_eq (f : String × Value) (rest : Fields) :
    compactFields (f :: rest) = stringText f.1 ++ ':' :: (compact f.2 ++ fieldsTail rest) := by
  obtain ⟨name, v⟩ := f
  cases rest with
  | nil => rw [compactFields, fieldsTail, List.append_nil]
  | cons g rest => rw [compactFields_cons, fieldsTail, List.append_assoc, List.cons_append]

theorem stops_itemsTail (vs : List Value) (r : List Char) : Stops (itemsTail vs ++ ']' :: r) := by
  cases vs with
  | nil => exact stops_cons (by simp) r
  | cons v vs => exact stops_cons (by simp) _

theorem stops_fieldsTail (fs : Fields) (r : List Char) : Stops (fieldsTail fs ++ '\x7d' :: r) := by
  cases fs with
  | nil => exact stops_cons (by simp) r
  | cons f fs => exact stops_cons (by simp) _

/-- What the text of a value starts with. -/
theorem head_compact {v : Value} (h : v.IsPlain admitted) (hr : Stops r) :
    (∃ items rest, v = .arr items ∧ compact v ++ r = '[' :: rest) ∨
    (∃ fields rest, v = .obj fields ∧ compact v ++ r = '\x7b' :: rest) ∨
    IsScalar v ∧ compact v = scalarText .json false v ∧ OpensScalar (compact v ++ r) := by
  have hscalar (hv : IsScalar v) :
      IsScalar v ∧ compact v = scalarText .json false v ∧ OpensScalar (compact v ++ r) := by
    have hcompact : compact v = scalarText .json false v := compact_scalar hv.1 hv.2
    refine ⟨hv, hcompact, ?_⟩
    rw [hcompact]
    exact opensScalar_scalarText h hv hr
  cases v with
  | arr items => exact .inl ⟨items, _, rfl, by rw [compact]; rfl⟩
  | obj fields => exact .inr (.inl ⟨fields, _, rfl, by rw [compact]; rfl⟩)
  | null | bool _ | int _ | float _ | str _ | bytes _ | date _ | moment _ =>
      exact .inr (.inr (hscalar ⟨by simp, by simp⟩))

theorem ne_close_of_compact {v : Value} (h : v.IsPlain admitted) (hr : Stops r) {s : List Char} :
    ']' :: s ≠ compact v ++ r := by
  intro heq
  rcases head_compact h hr with ⟨_, _, -, htext⟩ | ⟨_, _, -, htext⟩ | ⟨-, -, c, _, htext, -, hne, -⟩
  · rw [htext] at heq
    exact absurd (List.cons.inj heq).1 (by decide)
  · rw [htext] at heq
    exact absurd (List.cons.inj heq).1 (by decide)
  · rw [htext] at heq
    exact hne (List.cons.inj heq).1.symm

mutual

/-- The text of a value shows the value, and where it ends. -/
theorem compact_append_inj : (v w : Value) → v.IsPlain admitted → w.IsPlain admitted →
    {r r' : List Char} → Stops r → Stops r' → compact v ++ r = compact w ++ r' → v = w ∧ r = r'
  | .arr items, w, hv, hw, r, r', hr, hr', h => by
      rw [IsPlain] at hv
      rcases head_compact hw hr' with ⟨items', _, rfl, -⟩ | ⟨_, _, rfl, htext⟩ |
        ⟨-, -, c, _, htext, hne, -⟩
      · rw [IsPlain] at hw
        rw [compact, compact, List.cons_append, List.cons_append, List.append_assoc,
          List.append_assoc] at h
        obtain ⟨rfl, hrest⟩ := compactItems_append_inj items items' hv hw (List.cons.inj h).2
        exact ⟨rfl, hrest⟩
      · rw [htext, compact] at h
        exact absurd (List.cons.inj h).1 (by decide)
      · rw [htext, compact] at h
        exact (hne (List.cons.inj h).1.symm).elim
  | .obj fields, w, hv, hw, r, r', hr, hr', h => by
      rw [IsPlain] at hv
      rcases head_compact hw hr' with ⟨_, _, rfl, htext⟩ | ⟨fields', _, rfl, -⟩ |
        ⟨-, -, c, _, htext, -, -, hne, -⟩
      · rw [htext, compact] at h
        exact absurd (List.cons.inj h).1 (by decide)
      · rw [IsPlain] at hw
        rw [compact, compact, List.cons_append, List.cons_append, List.append_assoc,
          List.append_assoc] at h
        obtain ⟨rfl, hrest⟩ :=
          compactFields_append_inj fields fields' hv.2 hw.2 (List.cons.inj h).2
        exact ⟨rfl, hrest⟩
      · rw [htext, compact] at h
        exact (hne (List.cons.inj h).1.symm).elim
  | .null, w, hv, hw, r, r', hr, hr', h | .bool _, w, hv, hw, r, r', hr, hr', h
  | .int _, w, hv, hw, r, r', hr, hr', h | .float _, w, hv, hw, r, r', hr, hr', h
  | .str _, w, hv, hw, r, r', hr, hr', h | .bytes _, w, hv, hw, r, r', hr, hr', h
  | .date _, w, hv, hw, r, r', hr, hr', h | .moment _, w, hv, hw, r, r', hr, hr', h => by
      rw [compact_scalar (by simp) (by simp)] at h
      obtain ⟨c, _, hhead, hbracket, -, hbrace, -⟩ :=
        opensScalar_scalarText hv ⟨by simp, by simp⟩ hr
      rcases head_compact hw hr' with ⟨_, _, rfl, htext⟩ | ⟨_, _, rfl, htext⟩ | ⟨hws, htext, -⟩
      · rw [hhead, htext] at h
        exact (hbracket (List.cons.inj h).1).elim
      · rw [hhead, htext] at h
        exact (hbrace (List.cons.inj h).1).elim
      · rw [htext] at h
        exact scalarText_append_inj hv hw ⟨by simp, by simp⟩ hws hr hr' h

theorem compactItems_append_inj : (vs ws : List Value) → ArePlain admitted vs →
    ArePlain admitted ws → {r r' : List Char} →
    compactItems vs ++ ']' :: r = compactItems ws ++ ']' :: r' → vs = ws ∧ r = r'
  | [], [], _, _, r, r', h => ⟨rfl, (List.cons.inj h).2⟩
  | [], w :: ws, _, hws, r, r', h => by
      rw [compactItems_eq, List.append_assoc] at h
      exact (ne_close_of_compact hws.1 (stops_itemsTail ws r') h).elim
  | v :: vs, [], hvs, _, r, r', h => by
      rw [compactItems_eq, List.append_assoc] at h
      exact (ne_close_of_compact hvs.1 (stops_itemsTail vs r) h.symm).elim
  | v :: vs, w :: ws, hvs, hws, r, r', h => by
      rw [compactItems_eq, compactItems_eq, List.append_assoc, List.append_assoc] at h
      obtain ⟨rfl, htail⟩ := compact_append_inj v w hvs.1 hws.1 (stops_itemsTail vs r)
        (stops_itemsTail ws r') h
      cases vs with
      | nil =>
          cases ws with
          | nil => exact ⟨rfl, (List.cons.inj htail).2⟩
          | cons w' ws => exact absurd (List.cons.inj htail).1 (by decide)
      | cons v' vs =>
          cases ws with
          | nil => exact absurd (List.cons.inj htail).1 (by decide)
          | cons w' ws =>
              obtain ⟨hrest, hr⟩ := compactItems_append_inj (v' :: vs) (w' :: ws) hvs.2 hws.2
                (List.cons.inj htail).2
              exact ⟨by rw [hrest], hr⟩

theorem compactFields_append_inj : (fs gs : Fields) → FieldsArePlain admitted fs →
    FieldsArePlain admitted gs → {r r' : List Char} →
    compactFields fs ++ '\x7d' :: r = compactFields gs ++ '\x7d' :: r' → fs = gs ∧ r = r'
  | [], [], _, _, r, r', h => ⟨rfl, (List.cons.inj h).2⟩
  | [], g :: gs, _, _, r, r', h => by
      rw [compactFields_eq, stringText] at h
      exact absurd (List.cons.inj h).1 (by decide)
  | f :: fs, [], _, _, r, r', h => by
      rw [compactFields_eq, stringText] at h
      exact absurd (List.cons.inj h).1 (by decide)
  | (name, v) :: fs, (name', w) :: gs, hfs, hgs, r, r', h => by
      rw [compactFields_eq, compactFields_eq, List.append_assoc, List.append_assoc] at h
      obtain ⟨rfl, hvalue⟩ := stringText_append_inj h
      rw [List.cons_append, List.cons_append, List.append_assoc, List.append_assoc] at hvalue
      obtain ⟨rfl, htail⟩ := compact_append_inj v w hfs.1 hgs.1 (stops_fieldsTail fs r)
        (stops_fieldsTail gs r') (List.cons.inj hvalue).2
      cases fs with
      | nil =>
          cases gs with
          | nil => exact ⟨rfl, (List.cons.inj htail).2⟩
          | cons g' gs => exact absurd (List.cons.inj htail).1 (by decide)
      | cons f' fs =>
          cases gs with
          | nil => exact absurd (List.cons.inj htail).1 (by decide)
          | cons g' gs =>
              obtain ⟨hrest, hr⟩ := compactFields_append_inj (f' :: fs) (g' :: gs) hfs.2 hgs.2
                (List.cons.inj htail).2
              exact ⟨by rw [hrest], hr⟩

end

/-- The text of an object ends with its brace, whatever follows. -/
theorem compact_obj_append_inj {fs gs : Fields} (hfs : FieldsArePlain admitted fs)
    (hgs : FieldsArePlain admitted gs) {r r' : List Char}
    (h : compact (.obj fs) ++ r = compact (.obj gs) ++ r') : fs = gs ∧ r = r' := by
  rw [compact, compact, List.cons_append, List.cons_append, List.append_assoc,
    List.append_assoc] at h
  exact compactFields_append_inj fs gs hfs hgs (List.cons.inj h).2

theorem compact_inj {v w : Value} (hv : v.IsPlain admitted) (hw : w.IsPlain admitted)
    (h : compact v = compact w) : v = w := by
  refine (compact_append_inj v w hv hw stops_nil stops_nil ?_).1
  rw [h]

/-- Canonical texts are equal exactly when their values are the same but for the order of fields. -/
theorem canonicalText_eq_iff {v w : Value} (hv : v.IsPlain admitted) (hw : w.IsPlain admitted) :
    canonicalText v = canonicalText w ↔ v.Alike w := by
  rw [← sorted_eq_sorted_iff hv, canonicalText, canonicalText, String.ofList_inj]
  exact ⟨compact_inj (isPlain_sorted v hv) (isPlain_sorted w hw), congrArg compact⟩

/-- The canonical text of an object can be told from what follows it. -/
theorem canonicalText_append_inj {fs gs : Fields} (hfs : FieldsArePlain admitted fs)
    (hgs : FieldsArePlain admitted gs) {r r' : String}
    (h : canonicalText (.obj fs) ++ r = canonicalText (.obj gs) ++ r') :
    canonicalText (.obj fs) = canonicalText (.obj gs) ∧ r = r' := by
  have htext := congrArg String.toList h
  rw [canonicalText, canonicalText, String.toList_append, String.toList_append,
    String.toList_ofList, String.toList_ofList, sorted, sorted] at htext
  obtain ⟨hfields, hrest⟩ := compact_obj_append_inj (fieldsArePlain_sortedFields fs hfs)
    (fieldsArePlain_sortedFields gs hgs) htext
  refine ⟨?_, String.toList_inj.mp hrest⟩
  rw [canonicalText, canonicalText, sorted, sorted, hfields]

end Values

end SafeMarkdown.Json
