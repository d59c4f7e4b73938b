import DesignHierarchy.Ident
import DesignHierarchy.Trie

/-! The instances of one definition: their paths in the order in which they were
first met, each with the node that was met there last. -/
namespace DesignHierarchy

/-- Paths are words with a dot in front, so that the empty path is one too. -/
def pathWord (path : String) : List Char := '.' :: path.toList

theorem pathWord_inj {p q : String} : pathWord p = pathWord q ↔ p = q := by
  simp [pathWord, String.toList_inj]

structure Roster where
  /-- The path met last stands first. -/
  newest : List String
  nodes : Trie NodeId
  nodup_newest : newest.Nodup
  mem_newest : ∀ path, path ∈ newest ↔ (nodes.find? (pathWord path)).isSome

namespace Roster

instance : EmptyCollection Roster := ⟨[], .empty, List.nodup_nil, by simp [Trie.find?]⟩

instance : Inhabited Roster := ⟨∅⟩

def get? (roster : Roster) (path : String) : Option NodeId := roster.nodes.find? (pathWord path)

def paths (roster : Roster) : List String := roster.newest.reverse

def size (roster : Roster) : Nat := roster.newest.length

def entries (roster : Roster) : List (String × NodeId) :=
  roster.paths.filterMap fun path => (roster.get? path).map (path, ·)

private theorem find?_insert_pathWord (nodes : Trie NodeId) (path other : String) (id : NodeId) :
    (nodes.insert id (pathWord path)).find? (pathWord other) =
      if path = other then some id else nodes.find? (pathWord other) := by
  rw [pathWord, Trie.find?_insert, ← pathWord]
  simp only [pathWord_inj]

/-- A path that is there keeps its place. -/
def insert (roster : Roster) (path : String) (id : NodeId) : Roster :=
  if h : (roster.get? path).isSome then
    { roster with
      nodes := roster.nodes.insert id (pathWord path)
      mem_newest := by
        intro other
        rw [find?_insert_pathWord]
        by_cases he : path = other
        · subst he
          simpa using (roster.mem_newest path).2 h
        · simpa [he] using roster.mem_newest other }
  else
    { newest := path :: roster.newest
      nodes := roster.nodes.insert id (pathWord path)
      nodup_newest := List.nodup_cons.2
        ⟨fun hm => h ((roster.mem_newest path).1 hm), roster.nodup_newest⟩
      mem_newest := by
        intro other
        rw [find?_insert_pathWord, List.mem_cons]
        by_cases he : path = other
        · simp [he]
        · simpa [he, Ne.symm he] using roster.mem_newest other }

@[simp] theorem get?_empty (path : String) : (∅ : Roster).get? path = none := rfl

@[simp] theorem get?_insert (roster : Roster) (path other : String) (id : NodeId) :
    (roster.insert path id).get? other = if path = other then some id else roster.get? other := by
  unfold insert
  split <;> exact find?_insert_pathWord _ _ _ _

theorem mem_paths {roster : Roster} {path : String} :
    path ∈ roster.paths ↔ (roster.get? path).isSome := by
  rw [paths, List.mem_reverse]
  exact roster.mem_newest path

theorem paths_nodup (roster : Roster) : roster.paths.Nodup :=
  List.pairwise_reverse.2 (roster.nodup_newest.imp Ne.symm)

theorem paths_insert (roster : Roster) (path : String) (id : NodeId) :
    (roster.insert path id).paths =
      if path ∈ roster.paths then roster.paths else roster.paths ++ [path] := by
  unfold insert
  by_cases h : (roster.get? path).isSome
  · rw [dif_pos h, if_pos (mem_paths.2 h)]
    rfl
  · rw [dif_neg h, if_neg (fun hm => h (mem_paths.1 hm))]
    simp [paths]

theorem map_fst_entries (roster : Roster) : roster.entries.map (·.1) = roster.paths := by
  have h : ∀ path ∈ roster.paths, (roster.get? path).isSome := fun _ => mem_paths.1
  unfold entries
  generalize roster.paths = paths at h
  induction paths with
  | nil => rfl
  | cons path rest ih =>
    obtain ⟨id, hid⟩ := Option.isSome_iff_exists.1 (h path List.mem_cons_self)
    have hr := ih fun p hp => h p (List.mem_cons_of_mem _ hp)
    simp [hid, hr]

@[simp] theorem length_entries (roster : Roster) : roster.entries.length = roster.size := by
  have h := congrArg List.length roster.map_fst_entries
  simpa [paths, size] using h

end Roster

end DesignHierarchy
