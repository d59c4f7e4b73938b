import DesignHierarchy.Proofs.Symbols
import DesignHierarchy.Workspace.Store

/-! Stores that loads and unloads can make. Files keep distinct numbers, so an id
belongs to one loaded symbol, and the table of names holds loaded definitions
only. -/
namespace DesignHierarchy

theorem Table.mem_values {κ ν : Type} [DecidableEq κ] {table : Table κ ν} {value : ν} :
    value ∈ table.values ↔ ∃ key, table.get? key = some value := by
  constructor
  · intro h
    obtain ⟨⟨key, found⟩, hmem, rfl⟩ := List.mem_map.1 h
    exact ⟨key, Table.get?_eq_some_iff.2 hmem⟩
  · rintro ⟨key, h⟩
    exact Table.mem_values_of_get? h

namespace Store

theorem mem_symbols {store : Store} {symbol : Symbol} :
    symbol ∈ store.symbols ↔
      ∃ key source, store.files.get? key = some source ∧ symbol ∈ Symbol.walkAll source.symbols := by
  unfold symbols sources
  rw [List.mem_flatMap]
  constructor
  · rintro ⟨source, hsource, h⟩
    obtain ⟨key, hkey⟩ := Table.mem_values.1 hsource
    exact ⟨key, source, hkey, h⟩
  · rintro ⟨key, source, hkey, h⟩
    exact ⟨source, Table.mem_values_of_get? hkey, h⟩

theorem mem_symbols_of_mem_children {store : Store} {symbol child : Symbol}
    (h : symbol ∈ store.symbols) (hc : child ∈ symbol.children) : child ∈ store.symbols := by
  obtain ⟨key, source, hkey, hmem⟩ := mem_symbols.1 h
  exact mem_symbols.2 ⟨key, source, hkey, Symbol.mem_walkAll_of_mem_children hmem hc⟩

/-- What loads and unloads keep. -/
structure Consistent (store : Store) : Prop where
  bounded : ∀ {key source}, store.files.get? key = some source → source.id.index < store.nextFile
  distinct : ∀ {k l a b}, store.files.get? k = some a → store.files.get? l = some b →
    a.id = b.id → k = l
  frozen : ∀ {key source}, store.files.get? key = some source →
    ∃ decls, source.symbols = (Decl.freezeAll source.id decls 0).1
  named : ∀ {name symbols symbol}, store.byName.get? name = some symbols → symbol ∈ symbols →
    symbol ∈ store.symbols ∧ symbol.isDefinition

theorem consistent_empty : Consistent {} where
  bounded := by simp
  distinct := by simp
  frozen := by simp
  named := by simp

theorem Consistent.file {store : Store} (h : store.Consistent)
    {key : List SourcePath.Component} {source : SourceFile} (hkey : store.files.get? key = some source)
    {symbol : Symbol} (hs : symbol ∈ Symbol.walkAll source.symbols) :
    symbol.id.file = source.id ∧ symbol.location.file = source.id := by
  obtain ⟨decls, hdecls⟩ := h.frozen hkey
  rw [hdecls] at hs
  exact Decl.file_of_mem_freezeAll hs

/-- An id belongs to one symbol. -/
theorem Consistent.eq_of_id_eq {store : Store} (h : store.Consistent) {a b : Symbol}
    (ha : a ∈ store.symbols) (hb : b ∈ store.symbols) (hid : a.id = b.id) : a = b := by
  obtain ⟨k, source, hk, ha⟩ := mem_symbols.1 ha
  obtain ⟨l, other, hl, hb⟩ := mem_symbols.1 hb
  have hfile : source.id = other.id := by
    rw [← (h.file hk ha).1, ← (h.file hl hb).1, hid]
  cases h.distinct hk hl hfile
  rw [hk] at hl
  cases hl
  obtain ⟨decls, hdecls⟩ := h.frozen hk
  rw [hdecls] at ha hb
  exact Decl.eq_of_id_eq_of_mem_freezeAll ha hb hid

theorem mem_of_get?_forget {file : FileId} {byName : Table String (List Symbol)} {name : String}
    {symbols : List Symbol} {symbol : Symbol} (h : (forget file byName).get? name = some symbols)
    (hs : symbol ∈ symbols) :
    symbol.location.file ≠ file ∧ ∃ old, byName.get? name = some old ∧ symbol ∈ old := by
  rw [forget, Table.get?_filterMap] at h
  obtain ⟨old, hold, hrest⟩ := Option.bind_eq_some_iff.1 h
  dsimp only at hrest
  split at hrest
  · cases hrest
  · cases hrest
    obtain ⟨hmem, hfile⟩ := List.mem_filter.1 hs
    exact ⟨by simpa using hfile, old, hold, hmem⟩

theorem mem_of_get?_register {byName : Table String (List Symbol)} {declared symbols : List Symbol}
    {name : String} {symbol : Symbol}
    (h : (declared.foldl register byName).get? name = some symbols) (hs : symbol ∈ symbols) :
    symbol ∈ declared ∨ ∃ old, byName.get? name = some old ∧ symbol ∈ old := by
  induction declared generalizing byName with
  | nil => exact .inr ⟨symbols, h, hs⟩
  | cons first rest ih =>
    obtain hmem | ⟨old, hold, hmem⟩ := ih h
    · exact .inl (List.mem_cons_of_mem _ hmem)
    · rw [register, Table.get?_update] at hold
      split at hold
      · rename_i hname
        cases hold
        obtain hmem | hmem := List.mem_append.1 hmem
        · cases hg : byName.get? first.name with
          | none => simp [hg] at hmem
          | some earlier => exact .inr ⟨earlier, hname ▸ hg, by simpa [hg] using hmem⟩
        · cases List.mem_singleton.1 hmem
          exact .inl List.mem_cons_self
      · exact .inr ⟨old, hold, hmem⟩

/-- A file that is loaded has the id that a load of its path keeps. -/
theorem idFor_of_get? {store : Store} {path : SourcePath} {source : SourceFile}
    (h : store.files.get? path.components = some source) : store.idFor path = source.id := by
  simp [idFor, fileId?, h]

theorem idFor_of_get?_none {store : Store} {path : SourcePath}
    (h : store.files.get? path.components = none) : store.idFor path = ⟨store.nextFile⟩ := by
  simp [idFor, fileId?, h]

theorem Consistent.key_of_id {store : Store} (h : store.Consistent) {path : SourcePath}
    {key : List SourcePath.Component} {source : SourceFile}
    (hkey : store.files.get? key = some source) (hid : source.id = store.idFor path) :
    key = path.components := by
  cases hp : store.files.get? path.components with
  | none =>
    have hlt := h.bounded hkey
    rw [hid, idFor_of_get?_none hp] at hlt
    exact absurd hlt (Nat.lt_irrefl _)
  | some loaded =>
    rw [idFor_of_get? hp] at hid
    exact h.distinct hkey hp hid

/-- What another file declares is there whatever becomes of the file at this path. -/
theorem Consistent.elsewhere {store : Store} (h : store.Consistent) {path : SourcePath}
    {symbol : Symbol} (hs : symbol ∈ store.symbols)
    (hfile : symbol.location.file ≠ store.idFor path) :
    ∃ key source, path.components ≠ key ∧ store.files.get? key = some source ∧
      symbol ∈ Symbol.walkAll source.symbols := by
  obtain ⟨key, source, hkey, hmem⟩ := mem_symbols.1 hs
  refine ⟨key, source, ?_, hkey, hmem⟩
  rintro rfl
  rw [(h.file hkey hmem).2, idFor_of_get? hkey] at hfile
  exact hfile rfl

theorem Consistent.load {store : Store} (h : store.Consistent) (path : SourcePath)
    (decls : List Decl) : (store.load path decls).Consistent where
  bounded := by
    intro key source hkey
    simp only [Store.load, Table.get?_insert] at hkey ⊢
    have hle : store.nextFile ≤
        if (store.fileId? path).isSome then store.nextFile else store.nextFile + 1 := by
      split <;> omega
    split at hkey
    · cases hkey
      cases hp : store.files.get? path.components with
      | none =>
        rw [idFor_of_get?_none hp]
        simp [fileId?, hp]
      | some loaded =>
        have hlt : loaded.id.index < store.nextFile := h.bounded hp
        rw [idFor_of_get? hp]
        exact Nat.lt_of_lt_of_le hlt hle
    · exact Nat.lt_of_lt_of_le (h.bounded hkey) hle
  distinct := by
    intro k l a b hk hl hid
    simp only [Store.load, Table.get?_insert] at hk hl
    split at hk <;> split at hl
    · rename_i hpk hpl
      exact hpk.symm.trans hpl
    · rename_i hpk hpl
      cases hk
      exact absurd (h.key_of_id hl hid.symm).symm hpl
    · rename_i hpk hpl
      cases hl
      exact absurd (h.key_of_id hk hid).symm hpk
    · exact h.distinct hk hl hid
  frozen := by
    intro key source hkey
    simp only [Store.load, Table.get?_insert] at hkey
    split at hkey
    · cases hkey
      exact ⟨decls, rfl⟩
    · exact h.frozen hkey
  named := by
    intro name symbols symbol hname hs
    rw [mem_symbols]
    simp only [Store.load] at hname ⊢
    obtain hmem | ⟨kept, hkept, hmem⟩ := mem_of_get?_register hname hs
    · obtain ⟨hwalk, hdef⟩ := List.mem_filter.1 hmem
      refine ⟨⟨path.components, ⟨store.idFor path, path, _⟩, ?_, hwalk⟩, hdef⟩
      simp
    · -- what was registered before and is kept comes from the other files
      obtain ⟨hfile, old, hold, hmem⟩ := mem_of_get?_forget hkept hmem
      obtain ⟨hsymbols, hdef⟩ := h.named hold hmem
      obtain ⟨key, source, hne, hkey, hwalk⟩ := h.elsewhere hsymbols hfile
      exact ⟨⟨key, source, by simp [hne, hkey], hwalk⟩, hdef⟩

theorem Consistent.unload {store : Store} (h : store.Consistent) (path : SourcePath) :
    (store.unload path).Consistent := by
  unfold Store.unload
  split
  · exact h
  · rename_i file hfile
    have hid : store.idFor path = file := by simp [idFor, hfile]
    have hold : ∀ {key source}, (store.files.erase path.components).get? key = some source →
        store.files.get? key = some source := by
      intro key source hkey
      rw [Table.get?_erase] at hkey
      split at hkey
      · cases hkey
      · exact hkey
    refine ⟨fun hkey => h.bounded (hold hkey), fun hk hl => h.distinct (hold hk) (hold hl),
      fun hkey => h.frozen (hold hkey), ?_⟩
    intro name symbols symbol hname hs
    obtain ⟨hne, old, hkept, hmem⟩ := mem_of_get?_forget hname hs
    obtain ⟨hsymbols, hdef⟩ := h.named hkept hmem
    obtain ⟨key, source, hother, hkey, hwalk⟩ := h.elsewhere hsymbols (hid ▸ hne)
    rw [mem_symbols]
    exact ⟨⟨key, source, by simp [hother, hkey], hwalk⟩, hdef⟩

/-- The stores that can be reached. -/
inductive Reached : Store → Prop
  | empty : Reached {}
  | load {store : Store} (path : SourcePath) (decls : List Decl) (before : Reached store) :
      Reached (store.load path decls)
  | unload {store : Store} (path : SourcePath) (before : Reached store) :
      Reached (store.unload path)

theorem Reached.consistent {store : Store} (h : Reached store) : store.Consistent := by
  induction h with
  | empty => exact consistent_empty
  | load path decls _ ih => exact ih.load path decls
  | unload path _ ih => exact ih.unload path

theorem Consistent.lookup {store : Store} (h : store.Consistent) {name : String} {symbol : Symbol}
    (hl : store.lookup name = some symbol) : symbol ∈ store.symbols ∧ symbol.isDefinition := by
  have hmem := mem_of_earliest hl
  cases hg : store.byName.get? name with
  | none => simp [hg] at hmem
  | some symbols =>
    rw [hg] at hmem
    exact h.named hg hmem

end Store

end DesignHierarchy
