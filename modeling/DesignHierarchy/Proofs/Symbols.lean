import DesignHierarchy.Symbol.Decl
import Mathlib.Data.List.Nodup

/-! Declarations inside declarations. Loading numbers the symbols of a file in
pre-order, so within one file the number tells a symbol from all the others. -/
namespace DesignHierarchy

namespace Symbol

theorem mem_walkAll {symbols : List Symbol} {symbol : Symbol} :
    symbol ∈ walkAll symbols ↔ ∃ root ∈ symbols, symbol ∈ root.walk := by
  rw [walkAll_eq_flatMap, List.mem_flatMap]

theorem mem_walkAll_of_mem {symbols : List Symbol} {symbol : Symbol} (h : symbol ∈ symbols) :
    symbol ∈ walkAll symbols :=
  mem_walkAll.2 ⟨symbol, h, symbol.mem_walk_self⟩

mutual

theorem mem_walk_of_mem_children : ∀ {root symbol child : Symbol}, symbol ∈ root.walk →
    child ∈ symbol.children → child ∈ root.walk
  | ⟨id, name, kind, typeRef, location, children⟩, symbol, child, hs, hc => by
    rw [walk_eq] at hs ⊢
    apply List.mem_cons_of_mem
    obtain rfl | hs := List.mem_cons.1 hs
    · exact mem_walkAll_of_mem hc
    · exact mem_walkAll_of_mem_children hs hc

theorem mem_walkAll_of_mem_children : ∀ {symbols : List Symbol} {symbol child : Symbol},
    symbol ∈ walkAll symbols → child ∈ symbol.children → child ∈ walkAll symbols
  | [], _, _, hs, _ => by simp [walkAll] at hs
  | root :: rest, symbol, child, hs, hc => by
    rw [walkAll, List.mem_append] at hs ⊢
    obtain hs | hs := hs
    · exact .inl (mem_walk_of_mem_children hs hc)
    · exact .inr (mem_walkAll_of_mem_children hs hc)

end

end Symbol

namespace Decl

mutual

theorem numbered_freeze (file : FileId) : ∀ (decl : Decl) (next : Nat),
    (freeze file decl next).1.walk.map (fun s => (s.id, s.location.file)) =
        (List.range' next decl.count).map (fun n => (⟨file, n⟩, file)) ∧
      (freeze file decl next).2 = next + decl.count
  | ⟨name, kind, typeRef, nameSpan, fullSpan, children⟩, next => by
    obtain ⟨hids, hafter⟩ := numbered_freezeAll file children (next + 1)
    simp only [freeze, count, Symbol.walk_eq, List.map_cons, hids, hafter, List.range'_succ]
    exact ⟨trivial, by omega⟩

/-- The symbols of a file have the numbers from `next` on, in the order of a walk. -/
theorem numbered_freezeAll (file : FileId) : ∀ (decls : List Decl) (next : Nat),
    (Symbol.walkAll (freezeAll file decls next).1).map (fun s => (s.id, s.location.file)) =
        (List.range' next (countAll decls)).map (fun n => (⟨file, n⟩, file)) ∧
      (freezeAll file decls next).2 = next + countAll decls
  | [], next => by simp [freezeAll, countAll, Symbol.walkAll]
  | decl :: rest, next => by
    obtain ⟨hids, hafter⟩ := numbered_freeze file decl next
    obtain ⟨hids', hafter'⟩ := numbered_freezeAll file rest (freeze file decl next).2
    simp only [freezeAll, countAll, Symbol.walkAll, List.map_append, hids, hids', hafter']
    rw [hafter, ← List.map_append, List.range'_append_1]
    exact ⟨rfl, by omega⟩

end

theorem file_of_mem_freezeAll {file : FileId} {decls : List Decl} {next : Nat} {symbol : Symbol}
    (h : symbol ∈ Symbol.walkAll (freezeAll file decls next).1) :
    symbol.id.file = file ∧ symbol.location.file = file := by
  have hmem := List.mem_map_of_mem (f := fun s : Symbol => (s.id, s.location.file)) h
  rw [(numbered_freezeAll file decls next).1] at hmem
  obtain ⟨n, -, hn⟩ := List.mem_map.1 hmem
  rw [Prod.mk.injEq] at hn
  exact ⟨by rw [← hn.1], hn.2.symm⟩

theorem eq_of_id_eq_of_mem_freezeAll {file : FileId} {decls : List Decl} {next : Nat}
    {a b : Symbol} (ha : a ∈ Symbol.walkAll (freezeAll file decls next).1)
    (hb : b ∈ Symbol.walkAll (freezeAll file decls next).1) (hid : a.id = b.id) : a = b := by
  have hids := congrArg (List.map Prod.fst) (numbered_freezeAll file decls next).1
  rw [List.map_map, List.map_map] at hids
  have hnodup : ((Symbol.walkAll (freezeAll file decls next).1).map (·.id)).Nodup := by
    change (List.map (Prod.fst ∘ fun s : Symbol => (s.id, s.location.file)) _).Nodup
    rw [hids]
    refine List.Nodup.map ?_ List.nodup_range'
    intro m n hmn
    cases hmn
    rfl
  exact List.inj_on_of_nodup_map hnodup ha hb hid

end Decl

end DesignHierarchy
