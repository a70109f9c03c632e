import TapeLang.Elf.Relocatable

/-!
# Names and string tables

Every name stands in its table where the table says, with a zero behind it, whatever order the names were put in
(`StringTable.exists_start`), and a table is as long as its names with a byte for each
(`StringTable.size_ofNames`). The names of a routine's symbols are distinct and hold no zeros.
-/

namespace TapeLang.Elf

namespace StringTable

/-! ### Filling a table -/

theorem toList_fill (bytes : Array UInt8) (starts : Array Nat) (entries : List TableEntry) :
    (fill bytes starts entries).bytes.toList = bytes.toList ++ entries.flatMap fun e => e.reversed.reverse ++ [0] := by
  induction entries generalizing bytes starts with
  | nil => simp [fill]
  | cons e entries ih =>
    rw [fill, ih]
    simp

theorem getElem?_fill_of_notMem {entries : List TableEntry} {k : Nat} (hk : k ∉ entries.map (·.position))
    (bytes : Array UInt8) (starts : Array Nat) : (fill bytes starts entries).starts[k]? = starts[k]? := by
  induction entries generalizing bytes starts with
  | nil => rfl
  | cons e entries ih =>
    rw [List.map_cons, List.mem_cons, not_or] at hk
    rw [fill, ih hk.2, Array.getElem?_setIfInBounds_ne (Ne.symm hk.1)]

/-- Where an entry starts is not overwritten by those behind it. -/
theorem exists_start_fill {entries : List TableEntry} (hnodup : (entries.map (·.position)).Nodup) {e : TableEntry}
    (he : e ∈ entries) (bytes : Array UInt8) {starts : Array Nat} (hlt : e.position < starts.size) :
    ∃ before after, (fill bytes starts entries).bytes.toList = before ++ (e.reversed.reverse ++ 0 :: after) ∧
      (fill bytes starts entries).starts[e.position]? = some before.length := by
  induction entries generalizing bytes starts with
  | nil => cases he
  | cons first entries ih =>
    rw [List.map_cons, List.nodup_cons] at hnodup
    rcases List.mem_cons.1 he with rfl | hrest
    · refine ⟨bytes.toList, entries.flatMap fun e => e.reversed.reverse ++ [0], ?_, ?_⟩
      · rw [toList_fill, List.flatMap_cons, List.append_assoc]
        rfl
      · rw [fill, getElem?_fill_of_notMem hnodup.1, Array.getElem?_setIfInBounds_self_of_lt hlt, Array.length_toList]
    · rw [fill]
      exact ih hnodup.2 hrest _ (by rwa [Array.size_setIfInBounds])

theorem getLast?_fill {bytes : Array UInt8} (h : bytes.toList.getLast? = some 0) (starts : Array Nat)
    (entries : List TableEntry) : (fill bytes starts entries).bytes.toList.getLast? = some 0 := by
  induction entries generalizing bytes starts with
  | nil => exact h
  | cons e entries ih =>
    rw [fill]
    exact ih (by simp) _

/-! ### Tables of names -/

/-- The entries of a table before they are put in order. -/
def entries (names : List (List UInt8)) : List TableEntry :=
  names.zipIdx.map fun (name, position) => ⟨position, name.reverse⟩

variable (names : List (List UInt8))

theorem sorted_perm : (sorted names).Perm (entries names) := List.mergeSort_perm _ _

theorem map_position_entries : (entries names).map (·.position) = List.range names.length := by
  rw [entries, List.map_map, List.range_eq_range']
  exact List.zipIdx_map_snd 0 names

theorem nodup_sorted : ((sorted names).map (·.position)).Nodup := by
  rw [((sorted_perm names).map _).nodup_iff, map_position_entries]
  exact List.nodup_range

theorem getLast?_ofNames : (ofNames names).bytes.toList.getLast? = some 0 := getLast?_fill rfl _ _

theorem toList_ofNames :
    (ofNames names).bytes.toList = 0 :: (sorted names).flatMap fun e => e.reversed.reverse ++ [0] :=
  toList_fill ..

/-- A table holds its names with a zero behind each, and one in front of all. -/
theorem size_ofNames : (ofNames names).bytes.size = 1 + (names.flatMap (· ++ [0])).length := by
  have hentries : (entries names).flatMap (fun e => e.reversed.reverse ++ [0]) = names.flatMap (· ++ [0]) := by
    conv => rhs; rw [← List.zipIdx_map_fst 0 names, List.flatMap_map]
    rw [entries, List.flatMap_map]
    simp only [List.reverse_reverse]
  have hsorted := ((sorted_perm names).flatMap_right fun e => e.reversed.reverse ++ [0]).length_eq
  rw [← Array.length_toList, toList_ofNames, List.length_cons, hsorted, hentries, Nat.add_comm]

variable {names} {i : Nat} {name : List UInt8}

/-- Every name stands where the table says. -/
theorem exists_start (h : names[i]? = some name) :
    ∃ before after, (ofNames names).bytes.toList = before ++ (name ++ 0 :: after) ∧
      (ofNames names).start i = before.length := by
  have hlt : i < names.length := (List.getElem?_eq_some_iff.1 h).1
  have hmem : ⟨i, name.reverse⟩ ∈ sorted names := by
    refine (sorted_perm names).mem_iff.2 (List.mem_map.2 ⟨(name, i), ?_, rfl⟩)
    exact List.mem_zipIdx_iff_getElem?.2 h
  have hsize : i < (Array.replicate names.length 0).size := by rwa [Array.size_replicate]
  obtain ⟨before, after, hbytes, hstart⟩ := exists_start_fill (nodup_sorted names) hmem #[0] hsize
  refine ⟨before, after, ?_, ?_⟩
  · rw [ofNames, hbytes, List.reverse_reverse]
  · rw [start, ofNames, hstart]
    rfl

theorem start_lt (h : i < names.length) : (ofNames names).start i < (ofNames names).bytes.size := by
  obtain ⟨before, after, hbytes, hstart⟩ := exists_start (List.getElem?_eq_getElem h)
  have hlen := congrArg List.length hbytes
  rw [Array.length_toList] at hlen
  simp only [List.length_append, List.length_cons] at hlen
  omega

end StringTable

/-! ### Bytes of names -/

theorem nameBytes_eq (name : String) : nameBytes name = name.toList.flatMap String.utf8EncodeChar := by
  conv => lhs; rw [← String.ofList_toList (s := name)]
  show (String.ofList name.toList).toByteArray.data.toList = _
  rw [String.toByteArray_ofList, List.utf8Encode, List.toList_data_toByteArray]

theorem nameBytes_inj {a b : String} : nameBytes a = nameBytes b ↔ a = b := by
  refine ⟨fun h => ?_, congrArg nameBytes⟩
  exact String.toByteArray_inj.1 (ByteArray.ext (Array.ext' h))

/-- A character that is one byte, and not zero. -/
def Plain (c : Char) : Prop := 0 < c.toNat ∧ c.toNat < 128

instance : DecidablePred Plain := fun c => inferInstanceAs (Decidable (0 < c.toNat ∧ c.toNat < 128))

theorem utf8EncodeChar_of_plain {c : Char} (h : Plain c) : String.utf8EncodeChar c = [UInt8.ofNat c.toNat] :=
  if_pos (Nat.le_of_lt_succ h.2)

section Plain

variable {name : String} (h : ∀ c ∈ name.toList, Plain c)
include h

theorem nameBytes_of_plain : nameBytes name = name.toList.map fun c => UInt8.ofNat c.toNat := by
  rw [nameBytes_eq, List.map_eq_flatMap, List.flatMap_def, List.flatMap_def,
    List.map_congr_left fun c hc => utf8EncodeChar_of_plain (h c hc)]

theorem length_nameBytes : (nameBytes name).length = name.length := by
  rw [nameBytes_of_plain h, List.length_map, String.length_toList]

theorem zero_notMem_nameBytes : 0 ∉ nameBytes name := by
  rw [nameBytes_of_plain h, List.mem_map]
  rintro ⟨c, hc, heq⟩
  have hplain := h c hc
  have := congrArg UInt8.toNat heq
  rw [UInt8.toNat_ofNat'] at this
  have : c.toNat % 2 ^ 8 = 0 := this
  obtain ⟨hpos, hlt⟩ := hplain
  omega

end Plain

/-! ### Names of symbols -/

theorem toList_instructionName (ip : Nat) : (instructionName ip).toList = "bf_op_".toList ++ Nat.toDigits 10 ip := by
  show (("bf_op_" : String) ++ Nat.repr ip).toList = _
  rw [String.toList_append, Nat.repr_eq_ofList_toDigits]
  exact congrArg ("bf_op_".toList ++ ·) String.toList_ofList

theorem plain_of_isDigit {c : Char} (h : c.isDigit = true) : Plain c := by
  obtain ⟨hlow, hhigh⟩ := Char.isDigit_iff_toNat.1 h
  exact ⟨Nat.lt_of_lt_of_le (by decide) hlow, Nat.lt_of_le_of_lt hhigh (by decide)⟩

theorem plain_instructionName (ip : Nat) : ∀ c ∈ (instructionName ip).toList, Plain c := by
  intro c hc
  rw [toList_instructionName, List.mem_append] at hc
  rcases hc with hc | hc
  · have hprefix : ∀ c ∈ "bf_op_".toList, Plain c := by simp [Plain]
    exact hprefix c hc
  · exact plain_of_isDigit (Nat.isDigit_of_mem_toDigits (by decide) (by decide) hc)

theorem plain_entryName : ∀ c ∈ entryName.toList, Plain c := by
  simp [entryName, Plain]

theorem instructionName_inj {i j : Nat} : instructionName i = instructionName j ↔ i = j := by
  refine ⟨fun h => ?_, congrArg instructionName⟩
  have hdigits := congrArg String.toList h
  rw [toList_instructionName, toList_instructionName, List.append_cancel_left_eq] at hdigits
  rw [← Nat.ofDigitChars_ten_toDigits (n := i), hdigits, Nat.ofDigitChars_ten_toDigits]

theorem instructionName_ne_entryName (ip : Nat) : instructionName ip ≠ entryName := by
  intro h
  have hfourth := congrArg (·.toList[3]?) h
  rw [toList_instructionName] at hfourth
  cases hfourth

theorem length_instructionName (ip : Nat) {k : Nat} (hpos : 0 < k) (h : ip < 10 ^ k) :
    (nameBytes (instructionName ip)).length ≤ 6 + k := by
  rw [length_nameBytes (plain_instructionName ip), ← String.length_toList, toList_instructionName, List.length_append]
  exact Nat.add_le_add_left ((Nat.length_toDigits_le_iff (by decide) hpos).2 h) 6

end TapeLang.Elf
