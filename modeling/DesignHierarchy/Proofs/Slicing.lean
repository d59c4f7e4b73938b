import DesignHierarchy.Proofs.Bytes
import DesignHierarchy.Proofs.Occurrences

/-! The slices that are cut out of a path. An index opens and ends between two characters,
whatever stands around it, so no slice is refused; put together, the slices are what is
outside of the indices. -/
namespace DesignHierarchy.DottedPath

/-- Offsets at which no index opens are passed over. -/
theorem slicesFrom_add {bytes : ByteArray} {next : Nat} (copied n : Nat)
    (hsize : next + n ≤ bytes.size) (hnone : ∀ i < n, indexEnd? bytes (next + i) = none) :
    slicesFrom bytes copied next = slicesFrom bytes copied (next + n) := by
  induction n with
  | zero => rfl
  | succ n ih =>
    rw [ih (by omega) fun i hi => hnone i (by omega), slicesFrom, if_pos (by omega)]
    split
    · rename_i stop hstop
      rw [hnone n (by omega)] at hstop
      cases hstop
    · rfl

theorem slicesFrom_plain {path : String} {before after : List Char} {c : Char}
    (split : path.toList = before ++ c :: after) (plain : ¬ StartsWithIndex (c :: after))
    (copied : Nat) :
    slicesFrom path.toByteArray copied (offset before) =
      slicesFrom path.toByteArray copied (offset (before ++ [c])) := by
  have hsplit : path.toList = before ++ [c] ++ after := by
    simpa using split
  have hnext : offset (before ++ [c]) = offset before + c.utf8Size := by
    simp [offset]
  rw [hnext]
  refine slicesFrom_add copied _ ?_ fun i hi => indexEnd?_plain split plain hi
  rw [← hnext, size_toByteArray, hsplit, offset_append _ after]
  exact Nat.le_add_right _ _

theorem slicesFrom_index {path : String} {before ds after : List Char} (hds : Digits ds)
    (split : path.toList = before ++ index ds after) (copied : Nat) :
    slicesFrom path.toByteArray copied (offset before) =
      ⟨copied, offset before⟩ :: slicesFrom path.toByteArray
        (offset (before ++ index ds [])) (offset (before ++ index ds [])) := by
  have hlt : offset before < path.toByteArray.size := by
    obtain ⟨byte, -, hbyte⟩ := exists_first_byte split
    exact (getElem?_eq_some_iff.1 hbyte).1
  rw [slicesFrom, if_pos hlt]
  split
  · rename_i stop hstop
    rw [indexEnd?_index hds split] at hstop
    cases hstop
    rfl
  · rename_i hnone
    rw [indexEnd?_index hds split] at hnone
    cases hnone

theorem slicesFrom_end (path : String) (copied : Nat) :
    slicesFrom path.toByteArray copied (offset path.toList) =
      if copied = 0 then [] else [⟨copied, offset path.toList⟩] := by
  rw [slicesFrom, size_toByteArray, if_neg (Nat.lt_irrefl _)]

theorem isValid_offset {path : String} {before after : List Char}
    (split : path.toList = before ++ after) : String.Pos.Raw.IsValid path ⟨offset before⟩ := by
  apply String.Pos.Raw.isValid_iff_exists_append.2
  refine ⟨String.ofList before, String.ofList after, ?_, ?_⟩
  · rw [← String.ofList_append, ← split, String.ofList_toList]
  · apply String.Pos.Raw.ext
    rw [offset_eq_size, String.byteIdx_rawEndPos, ← String.size_toByteArray,
      String.toByteArray_ofList]

theorem text?_of_split {path : String} {a b c : List Char} (split : path.toList = a ++ b ++ c) :
    Slice.text? path ⟨offset a, offset (a ++ b)⟩ = some (String.ofList b) := by
  have hfits : Slice.Fits path ⟨offset a, offset (a ++ b)⟩ := by
    refine ⟨?_, isValid_offset (by rw [split, List.append_assoc]), isValid_offset split⟩
    rw [offset_append]
    exact Nat.le_add_right _ _
  have hbytes : path.toByteArray.extract (offset a) (offset (a ++ b)) = b.utf8Encode := by
    rw [← String.utf8Encode_toList, split, List.utf8Encode_append, offset_eq_size (a ++ b),
      ByteArray.extract_append_size_left, List.utf8Encode_append, offset_eq_size,
      ByteArray.extract_append_eq_right rfl ByteArray.size_append]
  rw [Slice.text?, dif_pos hfits, Option.some_inj, ← String.toByteArray_inj,
    String.toByteArray_extract, String.toByteArray_ofList]
  exact hbytes

/-- These slices of the path, one after the other, make up the characters. -/
inductive Spell (path : String) : List Slice → List Char → Prop where
  | nil : Spell path [] []
  | cons {slice : Slice} {text : List Char} {slices : List Slice} {cs : List Char} :
    slice.text? path = some (String.ofList text) → Spell path slices cs →
      Spell path (slice :: slices) (text ++ cs)

namespace Spell

variable {path : String} {slices : List Slice} {cs : List Char}

theorem fits (h : Spell path slices cs) : ∀ slice ∈ slices, slice.Fits path := by
  induction h with
  | nil => simp
  | cons htext _ ih =>
    refine List.forall_mem_cons.2 ⟨?_, ih⟩
    by_contra hfits
    rw [Slice.text?, dif_neg hfits] at htext
    cases htext

theorem mapM_text? (h : Spell path slices cs) :
    ∃ texts, slices.mapM (Slice.text? path) = some texts ∧
      String.join texts = String.ofList cs := by
  induction h with
  | nil => exact ⟨[], rfl, rfl⟩
  | @cons slice text slices cs htext _ ih =>
    obtain ⟨texts, hmap, hjoin⟩ := ih
    refine ⟨String.ofList text :: texts, ?_, ?_⟩
    · rw [List.mapM_cons, htext, hmap]
      rfl
    · rw [String.join_cons, hjoin, String.ofList_append]

end Spell

section Loop

-- what is copied or dropped already, what was passed over since then, and what is left
variable {path : String} (kept pending todo : List Char)
  (split : path.toList = kept ++ pending ++ todo)

include split

/-- Once there is something to leave out, the slices make up all the rest. -/
theorem spell_slicesFrom (needed : kept ≠ [] ∨ dropIndices 0 todo ≠ todo) :
    Spell path (slicesFrom path.toByteArray (offset kept) (offset (kept ++ pending)))
      (pending ++ dropIndices 0 todo) := by
  induction todo using indexInduction generalizing kept pending with
  | nil =>
    have hkept : kept ≠ [] := needed.resolve_right fun h => h (by simp [dropIndices])
    have hend : path.toList = kept ++ pending := by
      simpa using split
    rw [← hend, slicesFrom_end, if_neg (mt (offset_eq_zero _).1 hkept), hend, dropIndices]
    exact .cons (text?_of_split split) .nil
  | index ds after hds ih =>
    -- the slice ends where the index opens, and the next one starts where it ends
    have hnext : path.toList = (kept ++ pending ++ index ds []) ++ [] ++ after := by
      simpa [index] using split
    have hrest := ih _ _ hnext (.inl (by simp [index]))
    rw [List.append_nil, List.nil_append] at hrest
    rw [slicesFrom_index hds split, dropIndices_index hds]
    exact .cons (text?_of_split split) hrest
  | plain c cs hstart ih =>
    have hnext : path.toList = kept ++ (pending ++ [c]) ++ cs := by
      simpa using split
    rw [dropIndices_cons hstart] at needed ⊢
    have hrest := ih _ _ hnext (needed.imp_right fun h heq => h (by rw [heq]))
    rw [← List.append_assoc, ← slicesFrom_plain split hstart, List.append_assoc,
      List.singleton_append] at hrest
    exact hrest

theorem slicesFrom_eq_nil_iff :
    slicesFrom path.toByteArray (offset kept) (offset (kept ++ pending)) = [] ↔
      kept = [] ∧ dropIndices 0 todo = todo := by
  induction todo using indexInduction generalizing kept pending with
  | nil =>
    have hend : path.toList = kept ++ pending := by
      simpa using split
    rw [← hend, slicesFrom_end, ← offset_eq_zero kept]
    simp [dropIndices]
  | index ds after hds ih =>
    rw [slicesFrom_index hds split, dropIndices_eq_self_iff]
    refine iff_of_false (List.cons_ne_nil _ _) ?_
    rintro ⟨-, hfree⟩
    exact hfree ⟨[], _, ⟨ds, after, hds, rfl⟩, rfl⟩
  | plain c cs hstart ih =>
    have hnext : path.toList = kept ++ (pending ++ [c]) ++ cs := by
      simpa using split
    rw [slicesFrom_plain split hstart, List.append_assoc, ih _ _ hnext, dropIndices_cons hstart,
      List.cons_inj_right]

end Loop

theorem slices_eq_nil_iff {path : String} : slices path = [] ↔ ¬ HasIndex path := by
  have hempty := slicesFrom_eq_nil_iff [] [] path.toList rfl
  rw [dropIndices_eq_self_iff, and_iff_right rfl] at hempty
  exact hempty

theorem spell_slices {path : String} (h : HasIndex path) :
    Spell path (slices path) (dropIndices 0 path.toList) :=
  spell_slicesFrom [] [] path.toList rfl (.inr (mt (dropIndices_eq_self_iff _).1 (not_not.2 h)))

theorem fits_of_mem_slices {path : String} : ∀ slice ∈ slices path, slice.Fits path := by
  by_cases h : HasIndex path
  · exact (spell_slices h).fits
  · simp [slices_eq_nil_iff.2 h]

theorem strip?_of_not_hasIndex {path : String} (h : ¬ HasIndex path) :
    strip? path = some .same := by
  rw [strip?, slices_eq_nil_iff.2 h]

theorem strip?_of_hasIndex {path : String} (h : HasIndex path) :
    strip? path = some (.rebuilt (stripIndices path)) := by
  obtain ⟨texts, hmap, hjoin⟩ := (spell_slices h).mapM_text?
  have hne : slices path ≠ [] := fun heq => slices_eq_nil_iff.1 heq h
  rw [strip?]
  split
  · contradiction
  · rw [hmap, Option.map_some, hjoin, stripIndices]

/-- Dropping the indices of a path in place takes out each of them and nothing else, and every slice
starts and ends between two characters. The path itself is the answer just when there is no index in
it. -/
theorem strip_exact (path : String) :
    (∀ a b c d, IndexAt path.toList a b → IndexAt path.toList c d →
      a = c ∧ b = d ∨ b ≤ c ∨ d ≤ a) ∧
    (∀ slice ∈ slices path, slice.Fits path) ∧
    ∃ stripped, strip? path = some stripped ∧ stripped.text path = stripIndices path ∧
      (stripped.text path).toList = outside path.toList ∧
      (stripped = .same ↔ ¬ ∃ start stop, IndexAt path.toList start stop) := by
  refine ⟨fun a b c d h other => h.eq_or_apart other, fits_of_mem_slices, ?_⟩
  have houtside : (stripIndices path).toList = outside path.toList := by
    rw [stripIndices, String.toList_ofList, dropIndices_eq_outside]
  by_cases h : HasIndex path
  · refine ⟨_, strip?_of_hasIndex h, rfl, houtside, ?_⟩
    simpa using hasIndex_iff.1 h
  · have hsame : stripIndices path = path := by
      simpa [isIndexFree] using isIndexFree_iff.2 h
    rw [hsame] at houtside
    have hnone : ¬ ∃ start stop, IndexAt path.toList start stop := mt hasIndex_iff.2 h
    exact ⟨_, strip?_of_not_hasIndex h, hsame.symm, houtside, iff_of_true rfl hnone⟩

/-- Adjacent indices next to longer characters, and brackets that are text. -/
theorem strip_exact_mixed :
    IndexAt "é[12][3]µ[i][][3:0][7".toList 1 5 ∧ IndexAt "é[12][3]µ[i][][3:0][7".toList 5 8 ∧
      ∃ stripped, strip? "é[12][3]µ[i][][3:0][7" = some stripped ∧ stripped ≠ .same ∧
        stripped.text "é[12][3]µ[i][][3:0][7" = "éµ[i][][3:0][7" := by
  have hfirst : IndexAt "é[12][3]µ[i][][3:0][7".toList 1 5 := by decide
  obtain ⟨-, -, stripped, hstrip, htext, -, hsame⟩ := strip_exact "é[12][3]µ[i][][3:0][7"
  refine ⟨hfirst, by decide, stripped, hstrip, ?_, htext.trans (by decide)⟩
  exact fun heq => hsame.1 heq ⟨1, 5, hfirst⟩

end DesignHierarchy.DottedPath
