import DesignHierarchy.Proofs.ArrayIndices

/-! Where the array indices of a path stand. An index is told by the characters at its
positions, whatever is around it, so one cannot open inside another; dropping the
indices of a path leaves just the characters at all other positions. -/
namespace DesignHierarchy.DottedPath

/-- An index opens at `start` and ends before `stop`. -/
def IndexAt (cs : List Char) (start stop : Nat) : Prop :=
  start + 2 < stop ∧ cs[start]? = some '[' ∧ cs[stop - 1]? = some ']' ∧
    ∀ i < stop - 1, start < i → cs[i]?.any Char.isDigit

instance (cs : List Char) (start stop : Nat) : Decidable (IndexAt cs start stop) :=
  inferInstanceAs (Decidable (_ ∧ _))

/-- The position is taken up by an index. -/
def InIndex (cs : List Char) (i : Nat) : Prop :=
  ∃ start stop, start ≤ i ∧ i < stop ∧ IndexAt cs start stop

namespace IndexAt

variable {cs : List Char} {a b c d : Nat}

theorem le_length (h : IndexAt cs a b) : b ≤ cs.length := by
  obtain ⟨hab, -, hclose, -⟩ := h
  obtain ⟨hlt, -⟩ := List.getElem?_eq_some_iff.1 hclose
  omega

/-- No index opens inside another one. -/
theorem le_of_lt (h : IndexAt cs a b) (other : IndexAt cs c d) (hac : a < c) : b ≤ c := by
  obtain ⟨hab, -, hclose, hdigits⟩ := h
  obtain ⟨-, hopen, -, -⟩ := other
  by_contra hlt
  by_cases hlast : c = b - 1
  · rw [← hlast, hopen] at hclose
    cases hclose
  · have hdigit := hdigits c (by omega) hac
    rw [hopen] at hdigit
    revert hdigit
    decide

/-- The first closing bracket ends an index. -/
theorem le_stop (h : IndexAt cs a b) (other : IndexAt cs a d) : b ≤ d := by
  obtain ⟨-, -, -, hdigits⟩ := h
  obtain ⟨had, -, hclose, -⟩ := other
  by_contra hlt
  have hdigit := hdigits (d - 1) (by omega) (by omega)
  rw [hclose] at hdigit
  revert hdigit
  decide

/-- Two indices have no position in common. -/
theorem eq_or_apart (h : IndexAt cs a b) (other : IndexAt cs c d) :
    a = c ∧ b = d ∨ b ≤ c ∨ d ≤ a := by
  obtain hac | rfl | hca := Nat.lt_trichotomy a c
  · exact .inr (.inl (h.le_of_lt other hac))
  · exact .inl ⟨rfl, Nat.le_antisymm (h.le_stop other) (other.le_stop h)⟩
  · exact .inr (.inr (other.le_of_lt h hca))

end IndexAt

instance (cs : List Char) (i : Nat) : Decidable (InIndex cs i) :=
  decidable_of_iff (∃ start < i + 1, ∃ stop < cs.length + 1, i < stop ∧ IndexAt cs start stop) (by
    constructor
    · rintro ⟨start, hstart, stop, -, hstop, h⟩
      exact ⟨start, stop, Nat.le_of_lt_succ hstart, hstop, h⟩
    · rintro ⟨start, stop, hstart, hstop, h⟩
      exact ⟨start, Nat.lt_succ_of_le hstart, stop, Nat.lt_succ_of_le h.le_length, hstop, h⟩)

/-- What stands before does not matter. -/
theorem indexAt_append (before rest : List Char) (a b : Nat) :
    IndexAt (before ++ rest) (before.length + a) (before.length + b) ↔ IndexAt rest a b := by
  have hget : ∀ i, (before ++ rest)[before.length + i]? = rest[i]? := by
    intro i
    rw [List.getElem?_append_right (Nat.le_add_right _ _), Nat.add_sub_cancel_left]
  unfold IndexAt
  constructor
  · rintro ⟨hab, hopen, hclose, hdigits⟩
    rw [hget] at hopen
    rw [show before.length + b - 1 = before.length + (b - 1) by omega, hget] at hclose
    refine ⟨by omega, hopen, hclose, ?_⟩
    intro i hi hai
    rw [← hget]
    exact hdigits (before.length + i) (by omega) (by omega)
  · rintro ⟨hab, hopen, hclose, hdigits⟩
    rw [hget, show before.length + b - 1 = before.length + (b - 1) by omega, hget]
    refine ⟨by omega, hopen, hclose, ?_⟩
    intro i hi hai
    obtain ⟨j, rfl⟩ := Nat.exists_eq_add_of_le (show before.length ≤ i by omega)
    rw [hget]
    exact hdigits j (by omega) (by omega)

theorem indexAt_index {ds : List Char} (h : Digits ds) (after : List Char) :
    IndexAt (index ds after) 0 (ds.length + 2) := by
  have hpos : 0 < ds.length := List.length_pos_iff.2 h.1
  refine ⟨by omega, rfl, by simp [index], ?_⟩
  intro i hi hpos
  obtain ⟨j, rfl⟩ := Nat.exists_eq_add_of_lt hpos
  have hj : j < ds.length := by omega
  have hd : ds[j].isDigit := h.2 _ (List.getElem_mem hj)
  simp [index, List.getElem?_append_left hj, hj, hd]

theorem startsWithIndex_of_indexAt {cs : List Char} {stop : Nat} (h : IndexAt cs 0 stop) :
    StartsWithIndex cs := by
  obtain ⟨hstop, hopen, hclose, hdigits⟩ := h
  cases cs with
  | nil => cases hopen
  | cons c tail =>
    cases hopen
    rw [show stop - 1 = (stop - 2) + 1 by omega, List.getElem?_cons_succ] at hclose
    obtain ⟨hlt, hbracket⟩ := List.getElem?_eq_some_iff.1 hclose
    refine ⟨tail.take (stop - 2), tail.drop (stop - 2 + 1), ⟨?_, ?_⟩, ?_⟩
    · rw [ne_eq, List.take_eq_nil_iff]
      rintro (hzero | rfl)
      · omega
      · simp at hlt
    · intro d hd
      obtain ⟨i, hi, rfl⟩ := List.mem_take_iff_getElem.1 hd
      have hdigit := hdigits (i + 1) (by omega) (by omega)
      rw [List.getElem?_cons_succ, List.getElem?_eq_getElem (by omega)] at hdigit
      simpa using hdigit
    · rw [index, ← hbracket, ← List.drop_eq_getElem_cons hlt, List.take_append_drop]

theorem hasIndex_iff {path : String} :
    HasIndex path ↔ ∃ start stop, IndexAt path.toList start stop := by
  constructor
  · rintro ⟨before, rest, ⟨ds, after, hds, rfl⟩, heq⟩
    exact ⟨_, _, heq ▸ (indexAt_append before _ 0 _).2 (indexAt_index hds after)⟩
  · rintro ⟨start, stop, h⟩
    have hsplit := List.take_append_drop start path.toList
    have hlength : (path.toList.take start).length = start := by
      have hle := h.le_length
      have hlt := h.1
      rw [List.length_take]
      omega
    have hstart : IndexAt (path.toList.drop start) 0 (stop - start) := by
      rw [← indexAt_append (path.toList.take start), hsplit, hlength, Nat.add_zero,
        Nat.add_sub_cancel' (by have hlt := h.1; omega)]
      exact h
    exact ⟨_, _, startsWithIndex_of_indexAt hstart, hsplit.symm⟩

/-- The characters at the positions that no index takes up, in order. -/
def outside (cs : List Char) : List Char :=
  (cs.zipIdx.filter fun entry => ¬ InIndex cs entry.2).map (·.1)

section Parts

variable {block rest : List Char}
  (apart : ∀ start stop, IndexAt (block ++ rest) start stop → start < block.length →
    stop ≤ block.length)

include apart

/-- If no index reaches from one part into the next, the next one can be looked at by itself. -/
theorem inIndex_append (i : Nat) :
    InIndex (block ++ rest) (block.length + i) ↔ InIndex rest i := by
  constructor
  · rintro ⟨start, stop, hstart, hstop, hindex⟩
    have hblock : block.length ≤ start := by
      by_contra hlt
      have hle := apart start stop hindex (by omega)
      omega
    obtain ⟨a, rfl⟩ := Nat.exists_eq_add_of_le hblock
    obtain ⟨b, rfl⟩ := Nat.exists_eq_add_of_le (show block.length ≤ stop by omega)
    exact ⟨a, b, by omega, by omega, (indexAt_append block rest a b).1 hindex⟩
  · rintro ⟨start, stop, hstart, hstop, hindex⟩
    exact ⟨_, _, by omega, by omega, (indexAt_append block rest start stop).2 hindex⟩

theorem outside_append :
    outside (block ++ rest) =
      (block.zipIdx.filter fun entry => ¬ InIndex (block ++ rest) entry.2).map (·.1) ++
        outside rest := by
  have hrest : (rest.zipIdx (0 + block.length)).filter
      (fun entry => ¬ InIndex (block ++ rest) entry.2) =
        (rest.zipIdx.filter fun entry => ¬ InIndex rest entry.2).map
          fun entry => (entry.1, block.length + entry.2) := by
    rw [Nat.zero_add, List.zipIdx_eq_map_add, List.filter_map]
    congr 1
    apply List.filter_congr
    intro entry _
    simp [inIndex_append apart]
  rw [outside, List.zipIdx_append, List.filter_append, List.map_append, hrest, List.map_map]
  rfl

end Parts

theorem outside_index {ds : List Char} (h : Digits ds) (after : List Char) :
    outside (index ds after) = outside after := by
  have hsplit : index ds after = index ds [] ++ after := by
    simp [index]
  have hlength : (index ds []).length = ds.length + 2 := by
    simp [index]
  have hindex : IndexAt (index ds [] ++ after) 0 (index ds []).length := by
    rw [← hsplit, hlength]
    exact indexAt_index h after
  have hinside : (index ds []).zipIdx.filter
      (fun entry => ¬ InIndex (index ds [] ++ after) entry.2) = [] := by
    apply List.filter_eq_nil_iff.2
    intro entry hentry
    have hlt := List.snd_lt_of_mem_zipIdx hentry
    simpa using ⟨0, _, Nat.zero_le _, hlt, hindex⟩
  rw [hsplit, outside_append, hinside, List.map_nil, List.nil_append]
  intro start stop hother hstart
  obtain ⟨-, rfl⟩ | hle | hle := hindex.eq_or_apart hother
  · exact Nat.le_refl _
  · omega
  · have hlt := hother.1
    omega

theorem outside_cons {c : Char} {cs : List Char} (h : ¬ StartsWithIndex (c :: cs)) :
    outside (c :: cs) = c :: outside cs := by
  have hfirst : ∀ stop, ¬ IndexAt ([c] ++ cs) 0 stop :=
    fun stop hindex => h (startsWithIndex_of_indexAt hindex)
  have houtside : ¬ InIndex ([c] ++ cs) 0 := by
    rintro ⟨start, stop, hzero, -, hindex⟩
    obtain rfl := Nat.le_zero.1 hzero
    exact hfirst stop hindex
  have happend : outside ([c] ++ cs) = [c] ++ outside cs := by
    rw [outside_append, List.zipIdx_singleton, List.filter_cons_of_pos (by simpa using houtside),
      List.filter_nil]
    · rfl
    · intro start stop hindex hstart
      obtain rfl := Nat.lt_one_iff.1 hstart
      exact absurd hindex (hfirst stop)
  exact happend

/-- Dropping the indices leaves what is outside of them. -/
theorem dropIndices_eq_outside (cs : List Char) : dropIndices 0 cs = outside cs := by
  induction cs using indexInduction with
  | nil => simp [dropIndices, outside]
  | index ds after hds ih => rw [dropIndices_index hds, outside_index hds, ih]
  | plain c cs hstart ih => rw [dropIndices_cons hstart, outside_cons hstart, ih]

end DesignHierarchy.DottedPath
