import DesignHierarchy.DottedPath.Slices
import DesignHierarchy.Proofs.ArrayIndices

/-! The bytes of a path. Brackets and digits are written with one byte each, and no byte
of another character looks like one of them; so the indices that are seen byte by byte
are those that are there character by character. -/
namespace DesignHierarchy.DottedPath

/-- The bytes that characters are written with. -/
def encoded (cs : List Char) : List UInt8 := cs.flatMap String.utf8EncodeChar

@[simp] theorem encoded_nil : encoded [] = [] := rfl

@[simp] theorem encoded_cons (c : Char) (cs : List Char) :
    encoded (c :: cs) = String.utf8EncodeChar c ++ encoded cs := rfl

@[simp] theorem encoded_append (a b : List Char) : encoded (a ++ b) = encoded a ++ encoded b := by
  simp [encoded]

theorem encoded_eq_nil {cs : List Char} : encoded cs = [] ↔ cs = [] := by
  cases cs <;> simp

theorem toList_toByteArray (path : String) :
    path.toByteArray.data.toList = encoded path.toList := by
  rw [← String.utf8Encode_toList, List.utf8Encode, List.data_toByteArray]
  rfl

/-- A character below 128 is one byte, and others have no byte below 128. -/
theorem utf8EncodeChar_cases (c : Char) :
    c.toNat < 128 ∧ String.utf8EncodeChar c = [c.toUInt8] ∨
      128 ≤ c.toNat ∧ ∀ byte ∈ String.utf8EncodeChar c, 128 ≤ byte.toNat := by
  fun_cases String.utf8EncodeChar c with
  | case1 v h => exact .inl ⟨Nat.lt_succ_of_le h, rfl⟩
  | case2 v h | case3 v h | case4 v h =>
    -- two, three or four bytes, each with its highest bit set
    refine .inr ⟨Nat.lt_of_not_le h, ?_⟩
    simp only [List.forall_mem_cons, UInt8.toNat_ofNat', List.not_mem_nil, false_implies,
      implies_true, and_true]
    omega

theorem toNat_toUInt8 {c : Char} (h : c.toNat < 128) : c.toUInt8.toNat = c.toNat := by
  change c.toNat % 256 = c.toNat
  omega

theorem utf8EncodeChar_of_lt {c : Char} (h : c.toNat < 128) :
    String.utf8EncodeChar c = [c.toUInt8] := by
  obtain ⟨-, hbyte⟩ | ⟨hle, -⟩ := utf8EncodeChar_cases c
  · exact hbyte
  · omega

/-- A byte below 128 comes from its own character only. -/
theorem toUInt8_mem_utf8EncodeChar {a c : Char} (ha : a.toNat < 128)
    (h : a.toUInt8 ∈ String.utf8EncodeChar c) : c = a := by
  obtain ⟨hc, hbyte⟩ | ⟨-, hbytes⟩ := utf8EncodeChar_cases c
  · rw [hbyte, List.mem_singleton, ← UInt8.toNat_inj, toNat_toUInt8 ha, toNat_toUInt8 hc,
      Char.toNat_inj] at h
    exact h.symm
  · have hle := hbytes _ h
    rw [toNat_toUInt8 ha] at hle
    omega

theorem isDigitByte_iff {byte : UInt8} :
    isDigitByte byte ↔ '0'.toNat ≤ byte.toNat ∧ byte.toNat ≤ '9'.toNat := by
  rw [isDigitByte, decide_eq_true_iff, UInt8.le_iff_toNat_le, UInt8.le_iff_toNat_le]
  rfl

theorem lt_of_isDigit {c : Char} (h : c.isDigit) : c.toNat < 128 :=
  Nat.lt_of_le_of_lt (Char.isDigit_iff_toNat.1 h).2 (by decide)

/-- The bytes of digits are the digits among the bytes. -/
theorem isDigitByte_of_mem {byte : UInt8} {c : Char} (h : byte ∈ String.utf8EncodeChar c) :
    isDigitByte byte ↔ c.isDigit := by
  rw [isDigitByte_iff, Char.isDigit_iff_toNat]
  obtain ⟨hc, hbyte⟩ | ⟨hc, hbytes⟩ := utf8EncodeChar_cases c
  · rw [hbyte, List.mem_singleton] at h
    rw [h, toNat_toUInt8 hc]
  · have hle := hbytes byte h
    have hnine : '9'.toNat < 128 := by decide
    omega

/-- The offset right after these characters. -/
def offset (cs : List Char) : Nat := (encoded cs).length

theorem offset_eq_size (cs : List Char) : offset cs = cs.utf8Encode.size := by
  simp [offset, encoded, List.utf8Encode]

theorem offset_eq_zero (cs : List Char) : offset cs = 0 ↔ cs = [] := by
  rw [offset, List.length_eq_zero_iff, encoded_eq_nil]

theorem offset_append (a b : List Char) : offset (a ++ b) = offset a + offset b := by
  simp [offset]

theorem offset_append_of_lt (a : List Char) {b : List Char} (h : ∀ c ∈ b, c.toNat < 128) :
    offset (a ++ b) = offset a + b.length := by
  induction b generalizing a with
  | nil => simp
  | cons c b ih =>
    have hc : offset [c] = 1 := by
      rw [offset, encoded_cons, utf8EncodeChar_of_lt (h c List.mem_cons_self)]
      rfl
    have hb := ih (a ++ [c]) fun d hd => h d (List.mem_cons_of_mem c hd)
    rw [List.append_assoc, List.singleton_append, offset_append a [c], hc] at hb
    rw [hb, List.length_cons]
    omega

theorem size_toByteArray (path : String) : path.toByteArray.size = offset path.toList := by
  rw [offset, ← toList_toByteArray]
  rfl

section Split

variable {path : String} {before after : List Char}

theorem getElem?_toByteArray (split : path.toList = before ++ after) (i : Nat) :
    path.toByteArray[offset before + i]? = (encoded after)[i]? := by
  have hget : path.toByteArray[offset before + i]? =
      path.toByteArray.data.toList[offset before + i]? := by
    rw [Array.getElem?_toList]
    rfl
  rw [hget, toList_toByteArray, split, encoded_append, offset,
    List.getElem?_append_right (Nat.le_add_right _ _), Nat.add_sub_cancel_left]

/-- At an offset inside of a character stands a byte of this character. -/
theorem exists_byte {c : Char} (split : path.toList = before ++ c :: after) {i : Nat}
    (hi : i < c.utf8Size) :
    ∃ byte ∈ String.utf8EncodeChar c, path.toByteArray[offset before + i]? = some byte := by
  have hlt : i < (String.utf8EncodeChar c).length := by
    rwa [String.length_utf8EncodeChar]
  refine ⟨_, List.getElem_mem hlt, ?_⟩
  rw [getElem?_toByteArray split, encoded_cons, List.getElem?_append_left hlt,
    List.getElem?_eq_getElem hlt]

theorem exists_first_byte {c : Char} (split : path.toList = before ++ c :: after) :
    ∃ byte ∈ String.utf8EncodeChar c, path.toByteArray[offset before]? = some byte :=
  exists_byte split (Char.utf8Size_pos c)

theorem getElem?_end (split : path.toList = before) :
    path.toByteArray[offset before]? = none := by
  rw [← List.append_nil before] at split
  exact getElem?_toByteArray split 0

theorem getElem?_offset_eq_iff (split : path.toList = before ++ after) {a : Char}
    (ha : a.toNat < 128) :
    path.toByteArray[offset before]? = some a.toUInt8 ↔ after.head? = some a := by
  cases after with
  | nil =>
    rw [getElem?_end (by simpa using split)]
    simp
  | cons c cs =>
    obtain ⟨byte, hmem, hbyte⟩ := exists_first_byte split
    rw [hbyte, List.head?_cons, Option.some_inj, Option.some_inj]
    constructor
    · rintro rfl
      exact toUInt8_mem_utf8EncodeChar ha hmem
    · rintro rfl
      rwa [utf8EncodeChar_of_lt ha, List.mem_singleton] at hmem

/-- Counting digit bytes counts digits. -/
theorem digitsFrom_offset (split : path.toList = before ++ after) :
    digitsFrom path.toByteArray (offset before) = (after.takeWhile Char.isDigit).length := by
  induction after generalizing before with
  | nil =>
    have hend := getElem?_end (by simpa using split)
    rw [digitsFrom, dif_neg ((getElem?_eq_none_iff _ _).1 hend)]
    rfl
  | cons c cs ih =>
    obtain ⟨byte, hmem, hbyte⟩ := exists_first_byte split
    obtain ⟨hlt, hget⟩ := getElem?_eq_some_iff.1 hbyte
    rw [digitsFrom, dif_pos hlt, hget]
    by_cases hc : c.isDigit
    · have hsplit : path.toList = (before ++ [c]) ++ cs := by
        simpa using split
      have hnext : offset (before ++ [c]) = offset before + 1 :=
        offset_append_of_lt before (by simpa using lt_of_isDigit hc)
      rw [if_pos ((isDigitByte_of_mem hmem).2 hc), List.takeWhile_cons_of_pos hc, List.length_cons,
        ← hnext, ih hsplit]
    · rw [if_neg (mt (isDigitByte_of_mem hmem).1 hc), List.takeWhile_cons_of_neg hc,
        List.length_nil]

/-- After an opening bracket, the bytes are looked at as the characters are. -/
theorem indexEnd?_bracket (split : path.toList = before ++ '[' :: after) :
    indexEnd? path.toByteArray (offset before) =
      (indexLength? after).map (offset before + 1 + ·) := by
  have hopen : path.toByteArray[offset before]? = some '['.toUInt8 :=
    (getElem?_offset_eq_iff split (by decide)).2 rfl
  have hinside : path.toList = (before ++ ['[']) ++ after := by
    simpa using split
  have hbracket : offset (before ++ ['[']) = offset before + 1 :=
    offset_append_of_lt before (List.forall_mem_singleton.2 (by decide))
  have hdigits := digitsFrom_offset hinside
  rw [hbracket] at hdigits
  have hclose : path.toByteArray[offset before + 1 + (after.takeWhile Char.isDigit).length]? =
      some ']'.toUInt8 ↔ after[(after.takeWhile Char.isDigit).length]? = some ']' := by
    have hparts := List.takeWhile_append_dropWhile (p := Char.isDigit) (l := after)
    rw [← hparts, ← List.append_assoc] at hinside
    have hbyte := getElem?_offset_eq_iff hinside (a := ']') (by decide)
    rw [offset_append_of_lt _ fun d hd => lt_of_isDigit (List.mem_takeWhile_imp hd),
      hbracket] at hbyte
    rw [getElem?_length_digits]
    exact hbyte
  rw [indexEnd?, if_pos hopen, indexLength?]
  simp only [hdigits, hclose]
  split
  · rfl
  · rfl

end Split

/-- No index is seen at the offsets of a character at which none opens. -/
theorem indexEnd?_plain {path : String} {before after : List Char} {c : Char}
    (split : path.toList = before ++ c :: after) (plain : ¬ StartsWithIndex (c :: after))
    {i : Nat} (hi : i < c.utf8Size) :
    indexEnd? path.toByteArray (offset before + i) = none := by
  obtain ⟨byte, hmem, hbyte⟩ := exists_byte split hi
  by_cases hc : c = '['
  · subst hc
    obtain rfl : i = 0 := Nat.lt_one_iff.1 hi
    rw [Nat.add_zero, indexEnd?_bracket split]
    cases hlength : indexLength? after with
    | none => rfl
    | some length =>
      obtain ⟨ds, rest, hds, rfl⟩ := exists_digits_of_indexLength? hlength
      exact absurd ⟨ds, rest, hds, rfl⟩ plain
  · rw [indexEnd?, hbyte, if_neg]
    intro heq
    cases heq
    exact hc (toUInt8_mem_utf8EncodeChar (by decide) hmem)

theorem indexEnd?_index {path : String} {before ds after : List Char} (hds : Digits ds)
    (split : path.toList = before ++ index ds after) :
    indexEnd? path.toByteArray (offset before) = some (offset (before ++ index ds [])) := by
  have hascii : ∀ c ∈ index ds [], c.toNat < 128 := by
    intro c hc
    simp only [index, List.mem_cons, List.mem_append, List.not_mem_nil, or_false] at hc
    obtain rfl | hd | rfl := hc
    · decide
    · exact lt_of_isDigit (hds.2 c hd)
    · decide
  rw [indexEnd?_bracket split, indexLength?_digits hds, Option.map_some, Option.some_inj,
    offset_append_of_lt before hascii]
  simp only [index, List.length_cons, List.length_append, List.length_nil]
  omega

end DesignHierarchy.DottedPath
