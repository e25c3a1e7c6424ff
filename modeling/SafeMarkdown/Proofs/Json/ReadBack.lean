import SafeMarkdown.Proofs.Json.Scalars
import SafeMarkdown.Proofs.Json.Sorted

/-!
# JSON texts are read back

The one-line text of a value of JSON is read as that value, whatever follows it. Each round of the
reader consumes a character, so rounds enough for the text are rounds enough for its parts.
-/

namespace SafeMarkdown.Json

open Value

section Heads

theorem compact_scalar {v : Value} (harr : ∀ items, v ≠ .arr items) (hobj : ∀ fields, v ≠ .obj fields) :
    compact v = scalarText .json false v := by
  unfold compact
  split
  · exact (harr _ rfl).elim
  · exact (hobj _ rfl).elim
  · rfl

theorem compactItems_cons (v w : Value) (rest : List Value) :
    compactItems (v :: w :: rest) = compact v ++ ',' :: compactItems (w :: rest) := by
  rw [compactItems]
  simp

theorem compactFields_cons (f g : String × Value) (rest : List (String × Value)) :
    compactFields (f :: g :: rest) =
      stringText f.1 ++ ':' :: compact f.2 ++ ',' :: compactFields (g :: rest) := by
  obtain ⟨name, v⟩ := f
  rw [compactFields]
  simp

/-- The text of a value starts with no white space and does not close what it stands in. -/
def Starts (s : List Char) : Prop :=
  ∃ c rest, s = c :: rest ∧ isSpace c = false ∧ c ≠ ']' ∧ c ≠ '\x7d'

theorem Starts.skipSpace {s : List Char} (h : Starts s) : skipSpace s = s := by
  obtain ⟨c, rest, rfl, hc, -⟩ := h
  simp [Json.skipSpace, hc]

theorem Starts.append {s : List Char} (h : Starts s) (more : List Char) : Starts (s ++ more) := by
  obtain ⟨c, rest, rfl, hc⟩ := h
  exact ⟨c, rest ++ more, rfl, hc⟩

theorem starts_of_digit {c : Char} (h : isDigit c = true) (s : List Char) : Starts (c :: s) := by
  have hne {a : Char} (ha : isDigit a = false) : c ≠ a := by
    rintro rfl
    rw [h] at ha
    cases ha
  refine ⟨c, s, rfl, ?_, hne (by decide), hne (by decide)⟩
  unfold isSpace
  simp only [beq_eq_false_iff_ne.mpr (hne (by decide : isDigit ' ' = false)),
    beq_eq_false_iff_ne.mpr (hne (by decide : isDigit '\n' = false)),
    beq_eq_false_iff_ne.mpr (hne (by decide : isDigit '\t' = false)),
    beq_eq_false_iff_ne.mpr (hne (by decide : isDigit '\r' = false)), Bool.or_self]

end Heads

section Scalars

/-- A number behind its sign, as it is written and as it is read. -/
theorem signed_of_unsignedNumber {negative : Bool} {s : List Char} {r : Value × List Char}
    (h : unsignedNumber negative s = some r) :
    Starts ((if negative then ['-'] else []) ++ s) ∧
      ∀ fuel, value (fuel + 1) ((if negative then ['-'] else []) ++ s) = some r := by
  refine ⟨?_, value_number h⟩
  obtain ⟨c, more, rfl, hc⟩ := exists_digit_of_unsignedNumber h
  cases negative with
  | true => exact ⟨'-', c :: more, rfl, by decide, by decide, by decide⟩
  | false => exact starts_of_digit hc more

theorem intText_eq (n : Int) :
    intText n = (if decide (n < 0) then ['-'] else []) ++ Nat.toDigits 10 n.natAbs := by
  unfold intText
  by_cases hn : n < 0 <;> simp [hn]

/-- The text of a value that is neither list nor object is read back in one round. -/
theorem value_scalarText {v : Value} (h : v.IsJson) (harr : ∀ items, v ≠ .arr items)
    (hobj : ∀ fields, v ≠ .obj fields) {rest : List Char} (hrest : Stops rest) :
    Starts (scalarText .json false v ++ rest) ∧
      ∀ fuel, value (fuel + 1) (scalarText .json false v ++ rest) = some (v, rest) := by
  cases v with
  | null => exact ⟨⟨'n', _, rfl, by decide, by decide, by decide⟩, fun fuel ↦ rfl⟩
  | bool b =>
      cases b with
      | true => exact ⟨⟨'t', _, rfl, by decide, by decide, by decide⟩, fun fuel ↦ rfl⟩
      | false => exact ⟨⟨'f', _, rfl, by decide, by decide, by decide⟩, fun fuel ↦ rfl⟩
  | int n =>
      have hread := unsignedNumber_toDigits (decide (n < 0)) h hrest
      have hsigned : (if decide (n < 0) = true then -(n.natAbs : Int) else n.natAbs) = n := by
        split_ifs with hn
        · have hn := of_decide_eq_true hn
          omega
        · have hn : ¬ n < 0 := fun hneg ↦ hn (decide_eq_true hneg)
          omega
      rw [hsigned] at hread
      rw [scalarText, intText_eq, List.append_assoc]
      exact signed_of_unsignedNumber hread
  | float x =>
      obtain ⟨negative, rank, rfl⟩ := h
      have hread := unsignedNumber_text negative rank hrest
      rw [scalarText, floatText, DoubleFormat.text, List.append_assoc]
      exact signed_of_unsignedNumber hread
  | str s =>
      obtain ⟨body, hbody, hread⟩ := stringRest_stringText s rest
      rw [scalarText, hbody]
      refine ⟨⟨'"', body, rfl, by decide, by decide, by decide⟩, fun fuel ↦ ?_⟩
      rw [value, hread]
      simp
  | bytes bs => exact h.elim
  | date d => exact h.elim
  | moment m => exact h.elim
  | arr items => exact (harr items rfl).elim
  | obj fields => exact (hobj fields rfl).elim

theorem starts_compact {v : Value} (h : v.IsJson) : Starts (compact v) := by
  cases v with
  | arr items =>
      rw [compact]
      exact ⟨'[', _, rfl, by decide, by decide, by decide⟩
  | obj fields =>
      rw [compact]
      exact ⟨'\x7b', _, rfl, by decide, by decide, by decide⟩
  | null | bool _ | int _ | float _ | str _ | bytes _ | date _ | moment _ =>
      rw [compact_scalar (by simp) (by simp)]
      have hread := (value_scalarText h (by simp) (by simp) stops_nil).1
      rwa [List.append_nil] at hread

theorem starts_compactItems {v : Value} (h : v.IsJson) (rest : List Value) :
    Starts (compactItems (v :: rest)) := by
  cases rest with
  | nil =>
      rw [compactItems]
      exact starts_compact h
  | cons w rest =>
      rw [compactItems_cons]
      exact (starts_compact h).append _

theorem starts_compactFields (f : String × Value) (rest : List (String × Value)) :
    Starts (compactFields (f :: rest)) := by
  have hquote (s more : List Char) : Starts ('"' :: s ++ more) :=
    ⟨'"', s ++ more, rfl, by decide, by decide, by decide⟩
  obtain ⟨name, v⟩ := f
  cases rest with
  | nil =>
      rw [compactFields, stringText]
      exact (hquote _ _).append _
  | cons g rest =>
      rw [compactFields_cons, stringText]
      exact ((hquote _ _).append _).append _

end Scalars

section Values

theorem skipSpace_cons {c : Char} (h : isSpace c = false) (s : List Char) :
    skipSpace (c :: s) = c :: s := by
  simp [skipSpace, h]

/-- A list is read from the first of its items on, an object from the first of its fields on. -/
theorem value_items {fuel : Nat} {s t after : List Char} {items : List Value}
    (hskip : skipSpace s = t) (ht : Starts t) (hread : Json.items fuel t = some (items, after)) :
    value (fuel + 1) ('[' :: s) = some (.arr items, after) := by
  obtain ⟨c, rest, rfl, -, hne, -⟩ := ht
  rw [value.eq_def]
  simp only [hskip]
  split
  · rename_i heq
    cases heq
    exact (hne rfl).elim
  · rw [hread]
    rfl

theorem value_members {fuel : Nat} {s t after : List Char} {fields : List (String × Value)}
    (hskip : skipSpace s = t) (ht : Starts t) (hread : members fuel t = some (fields, after)) :
    value (fuel + 1) ('\x7b' :: s) = some (.obj (Fields.ofList fields), after) := by
  obtain ⟨c, rest, rfl, -, -, hne⟩ := ht
  rw [value.eq_def]
  simp only [hskip]
  split
  · rename_i heq
    cases heq
    exact (hne rfl).elim
  · rw [hread]
    rfl

section Parts

variable {fuel : Nat} {name : String} {s t behind more next after : List Char} {v : Value}

theorem items_last (hread : value fuel s = some (v, behind))
    (hbehind : skipSpace behind = ']' :: after) : items (fuel + 1) s = some ([v], after) := by
  rw [items, hread]
  simp only [Option.bind_eq_bind, Option.bind_some, hbehind]

theorem items_cons {vs : List Value} (hread : value fuel s = some (v, behind))
    (hbehind : skipSpace behind = ',' :: more) (hmore : skipSpace more = next)
    (hrest : items fuel next = some (vs, after)) : items (fuel + 1) s = some (v :: vs, after) := by
  rw [items, hread]
  simp only [Option.bind_eq_bind, Option.bind_some, hbehind, hmore, hrest]

/-- The name of a field is read at the start of a text, and its value behind a colon. -/
structure FieldRead (fuel : Nat) (s : List Char) (name : String) (v : Value) (behind : List Char) :
    Prop where
  parts : ∃ body named valued t, s = '"' :: body ∧
    stringRest (body.length + 1) body = some (name.toList, named) ∧
    skipSpace named = ':' :: valued ∧ skipSpace valued = t ∧ value fuel t = some (v, behind)

theorem members_last (hfield : FieldRead fuel s name v behind)
    (hbehind : skipSpace behind = '\x7d' :: after) :
    members (fuel + 1) s = some ([(name, v)], after) := by
  obtain ⟨body, named, valued, t, rfl, hname, hcolon, rfl, hread⟩ := hfield.parts
  rw [members, hname]
  simp only [Option.bind_eq_bind, Option.bind_some, hcolon, hread, hbehind, String.ofList_toList]

theorem members_cons {fs : List (String × Value)} (hfield : FieldRead fuel s name v behind)
    (hbehind : skipSpace behind = ',' :: more) (hmore : skipSpace more = next)
    (hrest : members fuel next = some (fs, after)) :
    members (fuel + 1) s = some ((name, v) :: fs, after) := by
  obtain ⟨body, named, valued, t, rfl, hname, hcolon, rfl, hread⟩ := hfield.parts
  rw [members, hname]
  simp only [Option.bind_eq_bind, Option.bind_some, hcolon, hread, hbehind, hmore, hrest,
    String.ofList_toList]

/-- A field that is written without white space. -/
theorem fieldRead_stringText (hs : Starts s) (hread : value fuel s = some (v, behind)) :
    FieldRead fuel (stringText name ++ ':' :: s) name v behind := by
  obtain ⟨body, hbody, hname⟩ := stringRest_stringText name (':' :: s)
  exact ⟨body, _, _, _, hbody, hname, skipSpace_cons (by decide) s, hs.skipSpace, hread⟩

end Parts

mutual

/-- The text of a value is read back, whatever follows it. -/
theorem value_compact : (v : Value) → v.IsJson → {fuel : Nat} → (compact v).length < fuel →
    {rest : List Char} → Stops rest → value fuel (compact v ++ rest) = some (v, rest)
  | .arr [], _, fuel, hfuel, rest, _ => by
      obtain ⟨fuel, rfl⟩ : ∃ k, fuel = k + 1 := ⟨fuel - 1, by omega⟩
      rw [compact, compactItems]
      rfl
  | .arr (v :: vs), h, fuel, hfuel, rest, _ => by
      rw [IsJson] at h
      rw [compact, List.length_append, List.length_cons, List.length_singleton] at hfuel
      obtain ⟨fuel, rfl⟩ : ∃ k, fuel = k + 1 := ⟨fuel - 1, by omega⟩
      have hread := items_compactItems v vs h (by omega : _ < fuel) rest
      have hstarts := (starts_compactItems h.1 vs).append (']' :: rest)
      rw [compact, List.cons_append, List.cons_append, List.append_assoc, List.singleton_append]
      exact value_items hstarts.skipSpace hstarts hread
  | .obj [], _, fuel, hfuel, rest, _ => by
      obtain ⟨fuel, rfl⟩ : ∃ k, fuel = k + 1 := ⟨fuel - 1, by omega⟩
      rw [compact, compactFields]
      rfl
  | .obj (f :: fs), h, fuel, hfuel, rest, _ => by
      rw [IsJson] at h
      rw [compact, List.length_append, List.length_cons, List.length_singleton] at hfuel
      obtain ⟨fuel, rfl⟩ : ∃ k, fuel = k + 1 := ⟨fuel - 1, by omega⟩
      have hread := members_compactFields f fs h.2 (by omega : _ < fuel) rest
      have hstarts := (starts_compactFields f fs).append ('\x7d' :: rest)
      have hvalue := value_members hstarts.skipSpace hstarts hread
      rw [Fields.ofList_of_nodup h.1] at hvalue
      rw [compact, List.cons_append, List.cons_append, List.append_assoc, List.singleton_append]
      exact hvalue
  | .null, h, fuel, hfuel, rest, hrest | .bool _, h, fuel, hfuel, rest, hrest
  | .int _, h, fuel, hfuel, rest, hrest | .float _, h, fuel, hfuel, rest, hrest
  | .str _, h, fuel, hfuel, rest, hrest | .bytes _, h, fuel, hfuel, rest, hrest
  | .date _, h, fuel, hfuel, rest, hrest | .moment _, h, fuel, hfuel, rest, hrest => by
      obtain ⟨fuel, rfl⟩ : ∃ k, fuel = k + 1 := ⟨fuel - 1, by omega⟩
      rw [compact_scalar (by simp) (by simp)]
      exact (value_scalarText h (by simp) (by simp) hrest).2 fuel

theorem items_compactItems : (v : Value) → (vs : List Value) → AreJson (v :: vs) → {fuel : Nat} →
    (compactItems (v :: vs)).length + 1 < fuel → (rest : List Char) →
    items fuel (compactItems (v :: vs) ++ ']' :: rest) = some (v :: vs, rest)
  | v, [], h, fuel, hfuel, rest => by
      rw [compactItems] at hfuel
      obtain ⟨fuel, rfl⟩ : ∃ k, fuel = k + 1 := ⟨fuel - 1, by omega⟩
      rw [compactItems]
      exact items_last (value_compact v h.1 (by omega) (stops_cons (by simp) rest))
        (skipSpace_cons (by decide) _)
  | v, w :: more, h, fuel, hfuel, rest => by
      rw [compactItems_cons, List.length_append, List.length_cons] at hfuel
      obtain ⟨fuel, rfl⟩ : ∃ k, fuel = k + 1 := ⟨fuel - 1, by omega⟩
      have hread := items_compactItems w more h.2 (by omega : _ < fuel) rest
      have hstarts := (starts_compactItems h.2.1 more).append (']' :: rest)
      rw [compactItems_cons, List.append_assoc, List.cons_append]
      exact items_cons (value_compact v h.1 (by omega) (stops_cons (by simp) _))
        (skipSpace_cons (by decide) _) hstarts.skipSpace hread

theorem members_compactFields : (f : String × Value) → (fs : List (String × Value)) →
    FieldsAreJson (f :: fs) → {fuel : Nat} → (compactFields (f :: fs)).length + 1 < fuel →
    (rest : List Char) →
    members fuel (compactFields (f :: fs) ++ '\x7d' :: rest) = some (f :: fs, rest)
  | (name, v), [], h, fuel, hfuel, rest => by
      rw [compactFields, List.length_append, List.length_cons] at hfuel
      obtain ⟨fuel, rfl⟩ : ∃ k, fuel = k + 1 := ⟨fuel - 1, by omega⟩
      rw [compactFields, List.append_assoc, List.cons_append]
      exact members_last (fieldRead_stringText ((starts_compact h.1).append _)
        (value_compact v h.1 (by omega) (stops_cons (by simp) rest))) (skipSpace_cons (by decide) _)
  | (name, v), g :: more, h, fuel, hfuel, rest => by
      have hlength : (compactFields ((name, v) :: g :: more)).length =
          (stringText name).length + (compact v).length + (compactFields (g :: more)).length + 2 := by
        rw [compactFields_cons]
        simp only [List.length_append, List.length_cons]
        omega
      obtain ⟨fuel, rfl⟩ : ∃ k, fuel = k + 1 := ⟨fuel - 1, by omega⟩
      have hread := members_compactFields g more h.2 (by omega : _ < fuel) rest
      have hstarts := (starts_compactFields g more).append ('\x7d' :: rest)
      rw [compactFields_cons, List.append_assoc, List.append_assoc, List.cons_append,
        List.cons_append]
      exact members_cons (fieldRead_stringText ((starts_compact h.1).append _)
        (value_compact v h.1 (by omega) (stops_cons (by simp) _))) (skipSpace_cons (by decide) _)
        hstarts.skipSpace hread

end

/-- The one-line text of a value is the text of that value. -/
theorem parse?_compact {v : Value} (h : v.IsJson) : parse? (compact v) = some v := by
  have hread := value_compact v h (Nat.lt_succ_self _) stops_nil
  rw [List.append_nil] at hread
  rw [parse?, (starts_compact h).skipSpace, hread]
  rfl

end Values

end SafeMarkdown.Json
