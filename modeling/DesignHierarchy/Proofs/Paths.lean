import DesignHierarchy.Proofs.Walk
import Mathlib.Data.List.Nodup

/-! Paths and the nodes at them. Names without dots can be told from the path
that they make, and where the names in a scope are distinct, the names on the way
down to a listed node lead back to it. -/
namespace DesignHierarchy

namespace DottedPath

/-- Names that a path keeps apart. -/
def Undotted (names : List String) : Prop := ∀ name ∈ names, '.' ∉ name.toList

theorem ofNames_cons {names : List String} (name : String) (h : names ≠ []) :
    ofNames (name :: names) = name ++ "." ++ ofNames names :=
  String.intercalate_cons_of_ne_nil h

theorem ofNames_cons_ne_empty {names : List String} (name : String) (h : names ≠ []) :
    ofNames (name :: names) ≠ "" := by
  rw [ofNames_cons name h]
  intro hempty
  have hlist := congrArg String.toList hempty
  simp at hlist

theorem toList_ofNames (names : List String) :
    (ofNames names).toList = ['.'].intercalate (names.map String.toList) :=
  String.toList_intercalate

theorem ofNames_segments (path : String) : ofNames (segments path) = path := by
  apply String.toList_inj.1
  rw [toList_ofNames]
  unfold segments
  split
  · rename_i h
    simp [h]
  · have hcomp : String.toList ∘ String.ofList = id := funext fun _ => String.toList_ofList
    rw [List.map_map, hcomp, List.map_id, List.intercalate_splitOn]

theorem splitOn_ofNames {names : List String} (hne : names ≠ []) (h : Undotted names) :
    (ofNames names).toList.splitOn '.' = names.map String.toList := by
  rw [toList_ofNames]
  apply List.splitOn_intercalate
  · intro cs hcs
    obtain ⟨name, hname, rfl⟩ := List.mem_map.1 hcs
    exact h name hname
  · simpa using hne

theorem segments_ofNames {names : List String} (hne : names ≠ []) (h : Undotted names)
    (hpath : ofNames names ≠ "") : segments (ofNames names) = names := by
  have hcomp : String.ofList ∘ String.toList = id := funext fun _ => String.ofList_toList
  rw [segments, if_neg hpath, splitOn_ofNames hne h, List.map_map, hcomp, List.map_id]

theorem ofNames_inj {a b : List String} (ha : a ≠ []) (hb : b ≠ []) (hda : Undotted a)
    (hdb : Undotted b) (h : ofNames a = ofNames b) : a = b := by
  have hsplit := splitOn_ofNames ha hda
  rw [h, splitOn_ofNames hb hdb] at hsplit
  exact (List.map_inj_right (fun _ _ => String.toList_inj.1)).1 hsplit.symm

end DottedPath

namespace Tree

/-- A step down that a walk makes. -/
theorem follow_cons {tree : Tree} {id last : NodeId} {name : String} {rest : List String}
    (h : tree.follow id (name :: rest) = .ok last) :
    ∃ child, tree.child? id name = some child ∧ tree.follow child rest = .ok last := by
  unfold follow at h
  cases hchild : tree.child? id name with
  | none =>
    rw [hchild] at h
    cases h
  | some child =>
    rw [hchild] at h
    exact ⟨child, rfl, h⟩

theorem follow_append {tree : Tree} {id mid : NodeId} {names : List String}
    (h : tree.follow id names = .ok mid) (more : List String) :
    tree.follow id (names ++ more) = tree.follow mid more := by
  induction names generalizing id with
  | nil =>
    cases h
    rfl
  | cons name rest ih =>
    obtain ⟨child, hchild, hrest⟩ := follow_cons h
    rw [List.cons_append, follow, hchild]
    exact ih hrest

/-- Names that lead somewhere as they are do not lose the first one. -/
theorem relative_of_follow {tree : Tree} {last : NodeId} {names : List String}
    (h : tree.follow .root names = .ok last) : tree.relative names = names := by
  cases names with
  | nil => rfl
  | cons first rest =>
    obtain ⟨child, hchild, -⟩ := follow_cons h
    simp [relative, hchild]

theorem mem_of_child? {tree : Tree} {id child : NodeId} {name : String}
    (h : tree.child? id name = some child) :
    ∃ cs, tree.children? id = some cs ∧ child ∈ cs ∧
      ∃ node, tree.node? child = some node ∧ node.name = name := by
  obtain ⟨cs, hcs, hnamed⟩ := Option.bind_eq_some_iff.1 h
  obtain ⟨hmem, hnode⟩ := mem_of_named? hnamed
  exact ⟨cs, hcs, hmem, hnode⟩

section Formed

variable {tree : Tree} (formed : tree.WellFormed)

include formed

theorem namesTo_of_follow {id last : NodeId} {names : List String}
    (h : tree.follow id names = .ok last) : tree.namesTo last = tree.namesTo id ++ names := by
  induction names generalizing id with
  | nil =>
    cases h
    simp
  | cons name rest ih =>
    obtain ⟨child, hchild, hrest⟩ := follow_cons h
    obtain ⟨cs, hcs, hmem, node, hnode, rfl⟩ := mem_of_child? hchild
    have hparent := formed.parent?_of_mem hcs hmem
    rw [parent?, hnode] at hparent
    rw [ih hrest, namesTo_of_parent? formed.parentsFirst hnode hparent]
    simp

theorem mem_ancestors_of_follow {id last : NodeId} {name : String} {rest : List String}
    (h : tree.follow id (name :: rest) = .ok last) : id ∈ tree.ancestors last := by
  induction rest generalizing id name with
  | nil =>
    obtain ⟨child, hchild, hrest⟩ := follow_cons h
    obtain ⟨cs, hcs, hmem, -⟩ := mem_of_child? hchild
    cases hrest
    rw [ancestors_of_parent? formed.parentsFirst (formed.parent?_of_mem hcs hmem)]
    exact List.mem_cons_self
  | cons next rest ih =>
    obtain ⟨child, hchild, hrest⟩ := follow_cons h
    obtain ⟨cs, hcs, hmem, -⟩ := mem_of_child? hchild
    refine mem_ancestors_trans formed.parentsFirst ?_ (ih hrest)
    rw [ancestors_of_parent? formed.parentsFirst (formed.parent?_of_mem hcs hmem)]
    exact List.mem_cons_self

/-- Where the names are distinct, each child is the one that its name finds. -/
theorem child?_of_mem {id c : NodeId} {owner node : Node} {cs : List NodeId}
    (howner : tree.node? id = some owner) (distinct : (owner.shown.map (·.name)).Nodup)
    (hcs : tree.children? id = some cs) (hc : c ∈ cs) (hnode : tree.node? c = some node) :
    tree.child? id node.name = some c := by
  have hnames : (cs.map fun c => (tree.node? c).map (·.name)).Nodup := by
    have hsymbols := congrArg (List.map (Option.map (·.name))) (formed.listed howner hcs).symbols
    rw [List.map_map, List.map_map] at hsymbols
    have hmap : (cs.map fun c => (tree.node? c).map (·.name)) =
        (owner.shown.map (·.name)).map some := by
      rw [List.map_map]
      refine Eq.trans ?_ hsymbols
      apply List.map_congr_left
      intro c _
      cases hc : tree.node? c <;> simp [hc, Node.name]
    rw [hmap]
    exact distinct.map fun _ _ => Option.some.inj
  unfold child?
  rw [hcs, Option.bind_some]
  cases hfind : tree.named? node.name cs with
  | none =>
    have hne := List.find?_eq_none.1 hfind c hc
    simp [hnode] at hne
  | some other =>
    obtain ⟨hmem, found, hfound, hname⟩ := mem_of_named? hfind
    congr 1
    apply List.inj_on_of_nodup_map hnames hmem hc
    simp [hfound, hnode, hname]

variable {later : Tree} (hext : tree.Extends later)

include hext

/-- A walk that succeeds does so on every later tree. -/
theorem follow_of_extends {id last : NodeId} {names : List String}
    (h : tree.follow id names = .ok last) : later.follow id names = .ok last := by
  induction names generalizing id with
  | nil => exact h
  | cons name rest ih =>
    obtain ⟨child, hchild, hrest⟩ := follow_cons h
    obtain ⟨cs, hcs, -⟩ := mem_of_child? hchild
    rw [follow, hext.child? formed hcs, hchild]
    exact ih hrest

theorem locate_of_extends {cs : List NodeId} (expanded : tree.children? .root = some cs)
    {path : String} {id : NodeId} (h : tree.locate path = .ok id) : later.locate path = .ok id := by
  have hrelative : ∀ names, later.relative names = tree.relative names := by
    intro names
    cases names with
    | nil => rfl
    | cons first rest =>
      simp only [relative, hext.top, hext.child? formed expanded]
  rw [locate_eq_follow] at h ⊢
  rw [hrelative]
  exact follow_of_extends formed hext h

end Formed

end Tree

end DesignHierarchy
