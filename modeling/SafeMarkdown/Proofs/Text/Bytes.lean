/-!
# The bytes of texts

Texts are told apart by their bytes, and the bytes of a text of ASCII characters are the numbers of
these characters.
-/

namespace SafeMarkdown.Text

theorem toList_loop (bytes : ByteArray) (i : Nat) (read : List UInt8) :
    ByteArray.toList.loop bytes i read = read.reverse ++ bytes.data.toList.drop i := by
  induction i, read using ByteArray.toList.loop.induct bytes with
  | case1 i read hi ih =>
      have hlt : i < bytes.data.toList.length := hi
      have hget : bytes.get! i = bytes.data.toList[i] := getElem!_pos bytes.data i hi
      rw [ByteArray.toList.loop, if_pos hi, ih, List.drop_eq_getElem_cons hlt, hget,
        List.reverse_cons, List.append_assoc, List.singleton_append]
  | case2 i read hi =>
      have hle : bytes.data.toList.length ≤ i := Nat.not_lt.mp hi
      rw [ByteArray.toList.loop, if_neg hi, List.drop_eq_nil_of_le hle, List.append_nil]

theorem toList_eq_data (bytes : ByteArray) : bytes.toList = bytes.data.toList :=
  toList_loop bytes 0 []

theorem toUTF8_toList_inj {s t : String} : s.toUTF8.toList = t.toUTF8.toList ↔ s = t := by
  refine ⟨fun h ↦ ?_, fun h ↦ h ▸ rfl⟩
  rw [toList_eq_data, toList_eq_data] at h
  exact String.toByteArray_inj.mp (ByteArray.ext (Array.toList_inj.mp h))

theorem toUTF8_toList (s : String) :
    s.toUTF8.toList = s.toList.flatMap String.utf8EncodeChar := by
  have hbytes : s.toUTF8 = (s.toList.flatMap String.utf8EncodeChar).toByteArray :=
    (congrArg String.toByteArray String.ofList_toList).symm.trans String.toByteArray_ofList
  rw [hbytes, toList_eq_data, List.data_toByteArray]

theorem utf8EncodeChar_of_ascii {c : Char} (h : c.toNat < 128) :
    String.utf8EncodeChar c = [UInt8.ofNat c.toNat] := by
  rw [String.utf8EncodeChar_eq_singleton]
  · rfl
  · exact Char.utf8Size_eq_one_iff.mpr (UInt32.le_iff_toNat_le.mpr (Nat.le_of_lt_succ h))

/-- The bytes of a text of ASCII characters, read as characters, are that text. -/
theorem map_toUTF8_of_ascii {s : String} (h : ∀ c ∈ s.toList, c.toNat < 128) :
    (s.toUTF8.toList.map fun b ↦ Char.ofNat b.toNat) = s.toList := by
  rw [toUTF8_toList]
  generalize s.toList = cs at h
  induction cs with
  | nil => rfl
  | cons c cs ih =>
      rw [List.forall_mem_cons] at h
      have hbyte : (UInt8.ofNat c.toNat).toNat = c.toNat := by
        rw [UInt8.toNat_ofNat']
        omega
      rw [List.flatMap_cons, utf8EncodeChar_of_ascii h.1, List.map_append, ih h.2, List.map_singleton,
        hbyte, Char.ofNat_toNat, List.singleton_append]

end SafeMarkdown.Text
