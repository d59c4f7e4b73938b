/-! Identifiers. A declaration is known by its file and its number in that
file, a node of a hierarchy by its place in the arena. -/
namespace DesignHierarchy

structure FileId where
  index : Nat
deriving DecidableEq, Repr

namespace FileId

def label (file : FileId) : String := "file#" ++ toString file.index

def tag (file : FileId) : String := "FileId(" ++ toString file.index ++ ")"

end FileId

structure DefId where
  file : FileId
  /-- The number of the declaration within its file, counted in pre-order. -/
  ordinal : Nat
deriving DecidableEq, Repr

namespace DefId

def ordinalTag (id : DefId) : String := "LocalDefId(" ++ toString id.ordinal ++ ")"

def tag (id : DefId) : String :=
  "DefId(" ++ id.file.tag ++ ":" ++ toString id.ordinal ++ ")"

/-- Files in order of their numbers, then declarations in theirs. -/
def Before (a b : DefId) : Prop :=
  a.file.index < b.file.index ∨ a.file.index = b.file.index ∧ a.ordinal < b.ordinal

instance (a b : DefId) : Decidable (a.Before b) :=
  inferInstanceAs (Decidable (_ ∨ _))

theorem before_trans {a b c : DefId} (hab : a.Before b) (hbc : b.Before c) : a.Before c := by
  unfold Before at *; omega

theorem before_irrefl (a : DefId) : ¬ a.Before a := by
  unfold Before; omega

theorem Before.ne {a b : DefId} (h : a.Before b) : a ≠ b := by
  rintro rfl
  exact before_irrefl a h

theorem before_or_eq_or_before (a b : DefId) : a.Before b ∨ a = b ∨ b.Before a := by
  rcases a with ⟨⟨f⟩, i⟩
  rcases b with ⟨⟨g⟩, j⟩
  simp only [Before, mk.injEq, FileId.mk.injEq]
  omega

/-- Puts an id into an ascending list, unless it is there already. -/
def place (id : DefId) : List DefId → List DefId
  | [] => [id]
  | other :: rest =>
    if id.Before other then id :: other :: rest
    else if id = other then other :: rest
    else other :: place id rest

/-- The ids of a list in ascending order, each once. -/
def ascending (ids : List DefId) : List DefId :=
  ids.foldr place []

@[simp] theorem mem_place {id x : DefId} {ids : List DefId} :
    x ∈ place id ids ↔ x = id ∨ x ∈ ids := by
  induction ids with
  | nil => simp [place]
  | cons other rest ih =>
    unfold place
    split
    · simp
    · split
      · next h => simp [h]
      · simp only [List.mem_cons, ih]
        exact or_left_comm

@[simp] theorem mem_ascending {x : DefId} {ids : List DefId} : x ∈ ascending ids ↔ x ∈ ids := by
  induction ids with
  | nil => simp [ascending]
  | cons id rest ih =>
    simp only [ascending, List.foldr_cons] at ih ⊢
    simp [ih]

theorem pairwise_place {id : DefId} {ids : List DefId} (h : ids.Pairwise Before) :
    (place id ids).Pairwise Before := by
  induction ids with
  | nil => simp [place]
  | cons other rest ih =>
    rw [List.pairwise_cons] at h
    unfold place
    split
    · next hlt =>
      refine List.pairwise_cons.2 ⟨fun x hx => ?_, List.pairwise_cons.2 h⟩
      rcases List.mem_cons.1 hx with rfl | hx
      · exact hlt
      · exact before_trans hlt (h.1 x hx)
    · next hlt =>
      split
      · exact List.pairwise_cons.2 h
      · next hne =>
        refine List.pairwise_cons.2 ⟨fun x hx => ?_, ih h.2⟩
        rcases mem_place.1 hx with rfl | hx
        · rcases before_or_eq_or_before x other with hb | he | hb
          · exact absurd hb hlt
          · exact absurd he hne
          · exact hb
        · exact h.1 x hx

/-- The result is strictly ascending, so it depends only on which ids occur. -/
theorem pairwise_ascending (ids : List DefId) : (ascending ids).Pairwise Before := by
  induction ids with
  | nil => simp [ascending]
  | cons id rest ih => exact pairwise_place ih

end DefId

structure NodeId where
  index : Nat
deriving DecidableEq, Repr

namespace NodeId

/-- Every hierarchy starts with its top. -/
def root : NodeId := ⟨0⟩

/-- Ids are 32-bit numbers, so a hierarchy has no more nodes than this. -/
def limit : Nat := UInt32.size

def label (id : NodeId) : String := "#" ++ toString id.index

def tag (id : NodeId) : String := "ScopeId(" ++ toString id.index ++ ")"

end NodeId

end DesignHierarchy
