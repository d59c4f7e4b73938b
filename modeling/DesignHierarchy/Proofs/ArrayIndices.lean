import DesignHierarchy.Proofs.Paths
import Mathlib.Data.List.TakeWhile

/-! Array indices in a path: a bracket, digits and a bracket. None of these characters is
a dot, so an index never reaches from one name of a path into the next. -/
namespace DesignHierarchy.DottedPath

def Digits (ds : List Char) : Prop := ds ≠ [] ∧ ∀ d ∈ ds, d.isDigit

/-- An index with these digits, and what follows it. -/
def index (ds after : List Char) : List Char := '[' :: (ds ++ ']' :: after)

def StartsWithIndex (cs : List Char) : Prop := ∃ ds after, Digits ds ∧ cs = index ds after

/-- An index starts somewhere in the path. -/
def HasIndex (path : String) : Prop :=
  ∃ before rest, StartsWithIndex rest ∧ path.toList = before ++ rest

theorem indexLength?_digits {ds : List Char} (h : Digits ds) (after : List Char) :
    indexLength? (ds ++ ']' :: after) = some (ds.length + 1) := by
  have htake : (ds ++ ']' :: after).takeWhile Char.isDigit = ds := by
    rw [List.takeWhile_append_of_pos h.2, List.takeWhile_cons_of_neg (by decide), List.append_nil]
  have hpos : 0 < ds.length := List.length_pos_iff.2 h.1
  unfold indexLength?
  rw [htake]
  simp [hpos]

/-- What comes after the first digits is right behind them. -/
theorem getElem?_length_digits (cs : List Char) :
    cs[(cs.takeWhile Char.isDigit).length]? = (cs.dropWhile Char.isDigit).head? := by
  have hsplit := List.takeWhile_append_dropWhile (p := Char.isDigit) (l := cs)
  have hhead : (cs.takeWhile Char.isDigit ++ cs.dropWhile Char.isDigit)[
      (cs.takeWhile Char.isDigit).length]? = (cs.dropWhile Char.isDigit).head? := by
    rw [List.getElem?_append_right (Nat.le_refl _), Nat.sub_self, List.head?_eq_getElem?]
  rwa [hsplit] at hhead

theorem exists_digits_of_indexLength? {cs : List Char} {length : Nat}
    (h : indexLength? cs = some length) : ∃ ds after, Digits ds ∧ cs = ds ++ ']' :: after := by
  unfold indexLength? at h
  dsimp only at h
  split at h
  · rename_i hclosed
    obtain ⟨hpos, hclose⟩ := hclosed
    have hdigits : Digits (cs.takeWhile Char.isDigit) :=
      ⟨List.length_pos_iff.1 hpos, fun _ hd => List.mem_takeWhile_imp hd⟩
    rw [getElem?_length_digits] at hclose
    obtain ⟨after, hafter⟩ := List.head?_eq_some_iff.1 hclose
    exact ⟨_, after, hdigits, by rw [← hafter, List.takeWhile_append_dropWhile]⟩
  · cases h

theorem dropIndices_index {ds : List Char} (h : Digits ds) (after : List Char) :
    dropIndices 0 (index ds after) = dropIndices 0 after := by
  rw [index, dropIndices, if_pos rfl, indexLength?_digits h]
  dsimp only
  rw [dropIndices_eq_drop]
  simp

theorem dropIndices_cons {c : Char} {cs : List Char} (h : ¬ StartsWithIndex (c :: cs)) :
    dropIndices 0 (c :: cs) = c :: dropIndices 0 cs := by
  rw [dropIndices]
  split
  · rename_i hc
    subst hc
    cases hlength : indexLength? cs with
    | none => rfl
    | some length =>
      obtain ⟨ds, after, hds, rfl⟩ := exists_digits_of_indexLength? hlength
      exact absurd ⟨ds, after, hds, rfl⟩ h
  · rfl

/-- Induction along a path, over an index at a time and over other characters one by one. -/
theorem indexInduction {motive : List Char → Prop} (nil : motive [])
    (index : ∀ ds after, Digits ds → motive after → motive (index ds after))
    (plain : ∀ c cs, ¬ StartsWithIndex (c :: cs) → motive cs → motive (c :: cs))
    (cs : List Char) : motive cs := by
  induction hn : cs.length using Nat.strongRecOn generalizing cs with
  | ind n ih =>
    cases cs with
    | nil => exact nil
    | cons c cs =>
      by_cases hstart : StartsWithIndex (c :: cs)
      · obtain ⟨ds, after, hds, heq⟩ := hstart
        rw [heq] at hn ⊢
        refine index ds after hds (ih after.length ?_ after rfl)
        rw [← hn, DottedPath.index, List.length_cons, List.length_append, List.length_cons]
        omega
      · exact plain c cs hstart (ih cs.length (by rw [← hn]; simp) cs rfl)

theorem dropIndices_sublist (cs : List Char) : (dropIndices 0 cs).Sublist cs := by
  induction cs using indexInduction with
  | nil => simp [dropIndices]
  | index ds after hds ih =>
    have hsuffix : index ds after = ('[' :: ds ++ [']']) ++ after := by
      simp [index]
    rw [dropIndices_index hds, hsuffix]
    exact ih.trans (List.sublist_append_right _ _)
  | plain c cs hstart ih =>
    rw [dropIndices_cons hstart]
    exact ih.cons_cons c

theorem dropIndices_eq_self_iff (cs : List Char) :
    dropIndices 0 cs = cs ↔ ¬ ∃ before rest, StartsWithIndex rest ∧ cs = before ++ rest := by
  induction cs using indexInduction with
  | nil =>
    refine iff_of_true (by simp [dropIndices]) ?_
    rintro ⟨before, rest, ⟨ds, after, -, rfl⟩, heq⟩
    simp [index] at heq
  | index ds after hds =>
    refine iff_of_false ?_ (not_not.2 ⟨[], _, ⟨ds, after, hds, rfl⟩, rfl⟩)
    intro heq
    have hle := (dropIndices_sublist after).length_le
    rw [← dropIndices_index hds, heq] at hle
    simp only [index, List.length_cons, List.length_append] at hle
    omega
  | plain c cs hstart ih =>
    rw [dropIndices_cons hstart, List.cons_eq_cons, and_iff_right rfl, ih, not_iff_not]
    constructor
    · rintro ⟨before, rest, hrest, rfl⟩
      exact ⟨c :: before, rest, hrest, rfl⟩
    · rintro ⟨before, rest, hrest, heq⟩
      cases before with
      | nil =>
        rw [List.nil_append] at heq
        exact absurd (heq ▸ hrest) hstart
      | cons b before => exact ⟨before, rest, hrest, (List.cons.inj heq).2⟩

/-- A path stays as it is just when it has no index. -/
theorem isIndexFree_iff {path : String} : isIndexFree path ↔ ¬ HasIndex path := by
  rw [isIndexFree, decide_eq_true_iff, stripIndices, HasIndex, ← dropIndices_eq_self_iff,
    ← String.toList_inj, String.toList_ofList]

instance (path : String) : Decidable (HasIndex path) :=
  decidable_of_iff (¬ isIndexFree path) (by rw [isIndexFree_iff, not_not])

/-- No index can go on into these characters. -/
def Breaks (rest : List Char) : Prop := ∀ c ∈ rest.head?, ¬ c.isDigit ∧ c ≠ ']'

theorem breaks_dot (rest : List Char) : Breaks ('.' :: rest) := by
  intro c hc
  cases hc
  decide

theorem breaks_index (ds after : List Char) : Breaks (index ds after) := by
  intro c hc
  cases hc
  decide

/-- An index that starts before a break also ends before it. -/
theorem not_startsWithIndex_append {c : Char} {cs rest : List Char}
    (h : ¬ StartsWithIndex (c :: cs)) (breaks : Breaks rest) :
    ¬ StartsWithIndex (c :: (cs ++ rest)) := by
  rintro ⟨ds, after, hds, hindex⟩
  obtain ⟨rfl, heq⟩ := List.cons.inj hindex
  obtain ⟨more, hmore, hrest⟩ | ⟨more, hmore, hclose⟩ := List.append_eq_append_iff.1 heq
  · -- the digits would reach up to the break, or over it
    cases more with
    | nil => exact (breaks ']' (by rw [hrest]; rfl)).2 rfl
    | cons d more =>
      have hd : d.isDigit := hds.2 d (by rw [hmore]; simp)
      exact (breaks d (by rw [hrest]; rfl)).1 hd
  · cases more with
    | nil => exact (breaks ']' (by rw [← List.nil_append rest, ← hclose]; rfl)).2 rfl
    | cons d more =>
      cases hclose
      exact h ⟨ds, more, hds, by rw [hmore]; rfl⟩

/-- Indices are dropped from each side of a break. -/
theorem dropIndices_append (cs : List Char) {rest : List Char} (breaks : Breaks rest) :
    dropIndices 0 (cs ++ rest) = dropIndices 0 cs ++ dropIndices 0 rest := by
  induction cs using indexInduction with
  | nil => simp [dropIndices]
  | index ds after hds ih =>
    have hindex : index ds after ++ rest = index ds (after ++ rest) := by
      simp [index]
    rw [hindex, dropIndices_index hds, dropIndices_index hds, ih]
  | plain c cs hstart ih =>
    rw [List.cons_append, dropIndices_cons (not_startsWithIndex_append hstart breaks), ih,
      dropIndices_cons hstart, List.cons_append]

theorem dropIndices_dot (rest : List Char) :
    dropIndices 0 ('.' :: rest) = '.' :: dropIndices 0 rest := by
  rw [dropIndices, if_neg (by decide)]

/-- The names between the dots are stripped one by one. -/
theorem splitOn_dropIndices (cs : List Char) :
    (dropIndices 0 cs).splitOn '.' = (cs.splitOn '.').map (dropIndices 0) := by
  induction hn : cs.length using Nat.strongRecOn generalizing cs with
  | ind n ih =>
    have hundotted : ∀ name : List Char, '.' ∉ name → '.' ∉ dropIndices 0 name :=
      fun name h hmem => h ((dropIndices_sublist name).subset hmem)
    by_cases hdot : '.' ∈ cs
    · obtain ⟨name, rest, rfl, hname⟩ := List.eq_append_cons_of_mem hdot
      have hshorter : rest.length < n := by
        rw [← hn, List.length_append, List.length_cons]
        omega
      rw [dropIndices_append name (breaks_dot rest), dropIndices_dot,
        List.splitOn_append_cons_self_of_not_mem (hundotted name hname),
        List.splitOn_append_cons_self_of_not_mem hname, ih _ hshorter rest rfl, List.map_cons]
    · rw [List.splitOn_eq_singleton hdot, List.splitOn_eq_singleton (hundotted cs hdot),
        List.map_singleton]

theorem stripIndices_append (a : String) {b : String} (breaks : Breaks b.toList) :
    stripIndices (a ++ b) = stripIndices a ++ stripIndices b := by
  apply String.toList_inj.1
  simp [stripIndices, dropIndices_append _ breaks]

theorem stripIndices_append_dot (a b : String) :
    stripIndices (a ++ "." ++ b) = stripIndices a ++ "." ++ stripIndices b := by
  apply String.toList_inj.1
  simp [stripIndices, dropIndices_append _ (breaks_dot _), dropIndices_dot]

/-- What a stripped path asks for is what the path asks for, stripped name by name. -/
theorem segments_stripIndices {path : String} (h : stripIndices path ≠ "") :
    segments (stripIndices path) = (segments path).map stripIndices := by
  have hpath : path ≠ "" := by
    rintro rfl
    exact h rfl
  rw [segments, if_neg h, segments, if_neg hpath, stripIndices, String.toList_ofList,
    splitOn_dropIndices, List.map_map, List.map_map]
  apply List.map_congr_left
  intro name _
  simp [stripIndices]

theorem stripIndices_ofNames (names : List String) :
    stripIndices (ofNames names) = ofNames (names.map stripIndices) := by
  induction names with
  | nil => rfl
  | cons name rest ih =>
    cases rest with
    | nil => rfl
    | cons next rest =>
      rw [ofNames_cons name (List.cons_ne_nil _ _), stripIndices_append_dot, ih]
      exact (ofNames_cons _ (by simp)).symm

/-- Names without dots and indices are the names that their path asks for. -/
theorem names_ofNames {names : List String} (hne : names ≠ []) (undotted : Undotted names)
    (unindexed : ∀ name ∈ names, ¬ HasIndex name) (hpath : ofNames names ≠ "") :
    DottedPath.names (ofNames names) = names := by
  have hstrip : ∀ name ∈ names, stripIndices name = id name := by
    intro name hname
    simpa [isIndexFree] using isIndexFree_iff.2 (unindexed name hname)
  have hmap : names.map stripIndices = names := by
    rw [List.map_congr_left hstrip, List.map_id]
  rw [DottedPath.names, stripIndices_ofNames, hmap, segments_ofNames hne undotted hpath]

end DesignHierarchy.DottedPath
