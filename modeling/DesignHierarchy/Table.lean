/-! Finite maps that remember the order in which their keys first came.
Replacing a value keeps the key's place, so listings are stable under updates. -/
namespace DesignHierarchy

structure Table (κ ν : Type) where
  /-- The key that came last stands first, so that a new key is added without copying. -/
  newest : List (κ × ν)
  nodup_newest : (newest.map (·.1)).Nodup

namespace Table

variable {κ ν : Type}

instance : EmptyCollection (Table κ ν) := ⟨[], List.nodup_nil⟩

instance : Inhabited (Table κ ν) := ⟨∅⟩

def entries (table : Table κ ν) : List (κ × ν) := table.newest.reverse

def keys (table : Table κ ν) : List κ := table.entries.map (·.1)

def values (table : Table κ ν) : List ν := table.entries.map (·.2)

def size (table : Table κ ν) : Nat := table.newest.length

def isEmpty (table : Table κ ν) : Bool := table.newest.isEmpty

theorem keys_eq_reverse (table : Table κ ν) : table.keys = (table.newest.map (·.1)).reverse :=
  List.map_reverse

theorem keys_nodup (table : Table κ ν) : table.keys.Nodup := by
  rw [keys_eq_reverse]
  exact List.pairwise_reverse.2 (table.nodup_newest.imp Ne.symm)

@[simp] theorem length_entries (table : Table κ ν) : table.entries.length = table.size :=
  List.length_reverse

@[simp] theorem entries_empty : (∅ : Table κ ν).entries = [] := rfl

@[ext] theorem ext {s t : Table κ ν} (h : s.entries = t.entries) : s = t := by
  have h := List.reverse_inj.1 h
  cases s
  cases t
  congr

/-- Keeps the entries whose value the function keeps, with the values it gives them. -/
def filterMap (f : ν → Option ν) (table : Table κ ν) : Table κ ν where
  newest := table.newest.filterMap fun entry => (f entry.2).map (entry.1, ·)
  nodup_newest := by
    have h := table.nodup_newest
    have sub : ((table.newest.filterMap fun entry => (f entry.2).map (entry.1, ·)).map (·.1)).Sublist
        (table.newest.map (·.1)) := by
      induction table.newest with
      | nil => simp
      | cons entry rest ih =>
        rw [List.filterMap_cons]
        split
        · exact ih.cons _
        · next found =>
          obtain ⟨v, -, rfl⟩ := Option.map_eq_some_iff.1 found
          exact ih.cons_cons _
    exact h.sublist sub

variable [DecidableEq κ]

def find? (key : κ) : List (κ × ν) → Option ν
  | [] => none
  | (k, v) :: rest => if k = key then some v else find? key rest

def get? (table : Table κ ν) (key : κ) : Option ν := find? key table.newest

theorem find?_eq_none_iff {key : κ} {entries : List (κ × ν)} :
    find? key entries = none ↔ key ∉ entries.map (·.1) := by
  induction entries with
  | nil => simp [find?]
  | cons entry rest ih =>
    rw [find?, List.map_cons, List.mem_cons, not_or]
    split
    · next h => simp [h]
    · next h => rw [ih]; simp [Ne.symm h]

theorem mem_of_find?_eq_some {key : κ} {value : ν} {entries : List (κ × ν)}
    (h : find? key entries = some value) : (key, value) ∈ entries := by
  induction entries with
  | nil => simp [find?] at h
  | cons entry rest ih =>
    rw [find?] at h
    split at h
    · next hk => cases hk; cases h; simp
    · exact List.mem_cons_of_mem _ (ih h)

theorem find?_eq_some_of_mem {key : κ} {value : ν} {entries : List (κ × ν)}
    (nodup : (entries.map (·.1)).Nodup) (h : (key, value) ∈ entries) :
    find? key entries = some value := by
  induction entries with
  | nil => cases h
  | cons entry rest ih =>
    rw [List.map_cons, List.nodup_cons] at nodup
    rw [find?]
    rcases List.mem_cons.1 h with rfl | h
    · simp
    · have : entry.1 ≠ key := fun e => nodup.1 (e ▸ List.mem_map_of_mem h)
      rw [if_neg this]
      exact ih nodup.2 h

theorem get?_eq_some_iff {table : Table κ ν} {key : κ} {value : ν} :
    table.get? key = some value ↔ (key, value) ∈ table.entries := by
  rw [entries, List.mem_reverse]
  exact ⟨mem_of_find?_eq_some, find?_eq_some_of_mem table.nodup_newest⟩

theorem get?_eq_none_iff {table : Table κ ν} {key : κ} :
    table.get? key = none ↔ key ∉ table.keys := by
  rw [keys_eq_reverse, List.mem_reverse]
  exact find?_eq_none_iff

theorem mem_values_of_get? {table : Table κ ν} {key : κ} {value : ν}
    (h : table.get? key = some value) : value ∈ table.values :=
  List.mem_map_of_mem (f := fun e => e.2) (get?_eq_some_iff.1 h)

@[simp] theorem get?_empty (key : κ) : (∅ : Table κ ν).get? key = none := rfl

/-- Gives a key that is there another value. -/
def replace (key : κ) (value : ν) : List (κ × ν) → List (κ × ν)
  | [] => []
  | (k, v) :: rest => if k = key then (k, value) :: rest else (k, v) :: replace key value rest

@[simp] theorem map_fst_replace (key : κ) (value : ν) (entries : List (κ × ν)) :
    (replace key value entries).map (·.1) = entries.map (·.1) := by
  induction entries with
  | nil => rfl
  | cons entry rest ih =>
    rw [replace]
    split
    · rfl
    · rw [List.map_cons, ih, List.map_cons]

theorem find?_replace {key : κ} {entries : List (κ × ν)} (value : ν) (other : κ)
    (h : key ∈ entries.map (·.1)) :
    find? other (replace key value entries) =
      if key = other then some value else find? other entries := by
  induction entries with
  | nil => cases h
  | cons entry rest ih =>
    rw [replace]
    by_cases he : entry.1 = key
    · by_cases ho : key = other <;> simp [find?, he, ho]
    · have hr : key ∈ rest.map (·.1) := by
        rcases List.mem_cons.1 h with h | h
        · exact absurd h.symm he
        · exact h
      rw [if_neg he, find?, ih hr]
      by_cases ho : key = other
      · subst ho; simp [he]
      · simp [find?, ho]

def update (table : Table κ ν) (key : κ) (f : Option ν → ν) : Table κ ν :=
  match h : find? key table.newest with
  | none => ⟨(key, f none) :: table.newest,
      List.nodup_cons.2 ⟨find?_eq_none_iff.1 h, table.nodup_newest⟩⟩
  | some value => ⟨replace key (f (some value)) table.newest, by
      rw [map_fst_replace]
      exact table.nodup_newest⟩

def insert (table : Table κ ν) (key : κ) (value : ν) : Table κ ν :=
  table.update key fun _ => value

theorem keys_update (table : Table κ ν) (key : κ) (f : Option ν → ν) :
    (table.update key f).keys = if key ∈ table.keys then table.keys else table.keys ++ [key] := by
  unfold update
  split
  · next h =>
    rw [if_neg (get?_eq_none_iff.1 h), keys_eq_reverse, keys_eq_reverse]
    simp
  · next value h =>
    have : key ∈ table.keys := by
      apply Decidable.byContradiction
      intro hk
      have hn : find? key table.newest = none := get?_eq_none_iff.2 hk
      rw [hn] at h
      cases h
    rw [if_pos this, keys_eq_reverse, keys_eq_reverse, map_fst_replace]

@[simp] theorem get?_update (table : Table κ ν) (key other : κ) (f : Option ν → ν) :
    (table.update key f).get? other =
      if key = other then some (f (table.get? key)) else table.get? other := by
  unfold update
  split
  · next h =>
    have hg : table.get? key = none := h
    rw [hg]
    simp [get?, find?]
  · next value h =>
    have hg : table.get? key = some value := h
    have hk : key ∈ table.newest.map (·.1) :=
      List.mem_map_of_mem (f := fun e => e.1) (mem_of_find?_eq_some h)
    rw [hg]
    exact find?_replace _ _ hk

@[simp] theorem get?_insert (table : Table κ ν) (key other : κ) (value : ν) :
    (table.insert key value).get? other = if key = other then some value else table.get? other :=
  get?_update table key other _

/-- Removes a key; the others keep their order. -/
def erase (table : Table κ ν) (key : κ) : Table κ ν where
  newest := table.newest.filter fun entry => entry.1 ≠ key
  nodup_newest := table.nodup_newest.sublist (List.Sublist.map _ List.filter_sublist)

@[simp] theorem get?_erase (table : Table κ ν) (key other : κ) :
    (table.erase key).get? other = if key = other then none else table.get? other := by
  change find? other (table.newest.filter fun entry => entry.1 ≠ key) = _
  unfold get?
  induction table.newest with
  | nil => simp [find?]
  | cons entry rest ih =>
    by_cases h : entry.1 = key
    · rw [List.filter_cons_of_neg (by simpa using h), ih, find?]
      by_cases ho : key = other
      · simp [ho]
      · have : entry.1 ≠ other := fun e => ho (h.symm.trans e)
        simp [ho, this]
    · rw [List.filter_cons_of_pos (by simpa using h), find?, ih, find?]
      by_cases ho : key = other
      · subst ho; simp [h]
      · simp [ho]

@[simp] theorem get?_filterMap (f : ν → Option ν) (table : Table κ ν) (key : κ) :
    (table.filterMap f).get? key = (table.get? key).bind f := by
  have nodup := table.nodup_newest
  change find? key (table.newest.filterMap fun entry => (f entry.2).map (entry.1, ·)) = _
  unfold get?
  generalize table.newest = newest at nodup ⊢
  induction newest with
  | nil => simp [find?]
  | cons entry rest ih =>
    rw [List.map_cons, List.nodup_cons] at nodup
    rw [List.filterMap_cons]
    by_cases h : entry.1 = key
    · have hr : find? key rest = none := find?_eq_none_iff.2 (h ▸ nodup.1)
      cases hv : f entry.2 with
      | none => simp [find?, h, hv, ih nodup.2, hr]
      | some v => simp [find?, h, hv]
    · cases hv : f entry.2 with
      | none => simp [find?, h, ih nodup.2]
      | some v => simp [find?, h, ih nodup.2]

end Table

end DesignHierarchy
