import DesignHierarchy.Proofs.Loaded
import Mathlib.Logic.Relation

/-! Which definition a name stands for. The table of names is kept up to date load
by load and says nothing about order; the files do. Reloads and unloads leave the
files in the order of their numbers, so the definition that the table leads to is
the first one that a scan of the files meets. -/
namespace DesignHierarchy

namespace Symbol

/-- Declared in the other symbol at some depth, or the same symbol. -/
def Within (symbol root : Symbol) : Prop :=
  Relation.ReflTransGen (fun scope child => child ∈ scope.children) root symbol

mutual

theorem within_of_mem_walk : ∀ {root symbol : Symbol}, symbol ∈ root.walk → symbol.Within root
  | ⟨id, name, kind, typeRef, location, children⟩, symbol, h => by
    rw [walk_eq] at h
    obtain rfl | h := List.mem_cons.1 h
    · exact .refl
    · obtain ⟨child, hchild, hwithin⟩ := exists_within_of_mem_walkAll h
      exact .head hchild hwithin

theorem exists_within_of_mem_walkAll : ∀ {symbols : List Symbol} {symbol : Symbol},
    symbol ∈ walkAll symbols → ∃ root ∈ symbols, symbol.Within root
  | [], _, h => by simp [walkAll] at h
  | root :: rest, symbol, h => by
    rw [walkAll, List.mem_append] at h
    obtain h | h := h
    · exact ⟨root, List.mem_cons_self, within_of_mem_walk h⟩
    · obtain ⟨other, hother, hwithin⟩ := exists_within_of_mem_walkAll h
      exact ⟨other, List.mem_cons_of_mem _ hother, hwithin⟩

end

theorem mem_walk_of_within {root symbol : Symbol} (h : symbol.Within root) : symbol ∈ root.walk := by
  induction h with
  | refl => exact root.mem_walk_self
  | tail _ hchild ih => exact mem_walk_of_mem_children ih hchild

/-- A walk meets what is declared at any depth. -/
theorem mem_walkAll_iff_within {symbols : List Symbol} {symbol : Symbol} :
    symbol ∈ walkAll symbols ↔ ∃ root ∈ symbols, symbol.Within root := by
  refine ⟨exists_within_of_mem_walkAll, ?_⟩
  rintro ⟨root, hroot, h⟩
  exact mem_walkAll.2 ⟨root, hroot, mem_walk_of_within h⟩

theorem isDefinition_iff {symbol : Symbol} :
    symbol.isDefinition ↔ symbol.kind = .module ∨ symbol.kind = .interface := by
  cases h : symbol.kind <;> simp [isDefinition, Kind.isDefinition, h]

end Symbol

namespace Table

variable {κ ν β : Type} [DecidableEq κ] {table : Table κ ν} {key : κ}

theorem map_replace {f : ν → β} {value old : ν} {entries : List (κ × ν)}
    (h : find? key entries = some old) (hf : f value = f old) :
    (replace key value entries).map (fun entry => f entry.2) =
      entries.map fun entry => f entry.2 := by
  induction entries with
  | nil => cases h
  | cons entry rest ih =>
    rw [find?] at h
    rw [replace]
    split at h
    · rename_i hk
      cases h
      rw [if_pos hk, List.map_cons, List.map_cons, hf]
    · rename_i hk
      rw [if_neg hk, List.map_cons, List.map_cons, ih h]

theorem newest_insert_of_get? {value old : ν} (h : table.get? key = some old) :
    (table.insert key value).newest = replace key value table.newest := by
  unfold insert update
  split
  · rename_i hnone
    rw [get?, hnone] at h
    cases h
  · rfl

theorem newest_insert_of_get?_none {value : ν} (h : table.get? key = none) :
    (table.insert key value).newest = (key, value) :: table.newest := by
  unfold insert update
  split
  · rfl
  · rename_i old hold
    rw [get?, hold] at h
    cases h

/-- A value that takes the place of another one looks the same where the two agree. -/
theorem map_values_insert {f : ν → β} {value old : ν} (h : table.get? key = some old)
    (hf : f value = f old) : (table.insert key value).values.map f = table.values.map f := by
  have hmap := congrArg List.reverse (map_replace h hf)
  simpa [values, entries, newest_insert_of_get? h, Function.comp_def] using hmap

theorem values_insert {value : ν} (h : table.get? key = none) :
    (table.insert key value).values = table.values ++ [value] := by
  simp [values, entries, newest_insert_of_get?_none h]

theorem values_erase (table : Table κ ν) (key : κ) :
    (table.erase key).values.Sublist table.values :=
  (List.filter_sublist.reverse).map _

end Table

namespace Decl

/-- The symbols of a file come in the order of their ids. -/
theorem ascending_freezeAll (file : FileId) (decls : List Decl) (next : Nat) :
    (Symbol.walkAll (freezeAll file decls next).1).Pairwise fun a b => a.id.Before b.id := by
  have hids := congrArg (List.map Prod.fst) (numbered_freezeAll file decls next).1
  rw [List.map_map, List.map_map] at hids
  have hpairwise : ((Symbol.walkAll (freezeAll file decls next).1).map (·.id)).Pairwise
      DefId.Before := by
    refine Eq.mpr (congrArg (List.Pairwise DefId.Before) hids) ?_
    rw [List.pairwise_map]
    exact (List.pairwise_lt_range' _).imp fun hlt => .inr ⟨rfl, hlt⟩
  exact List.pairwise_map.1 hpairwise

end Decl

namespace Store

variable {store : Store}

/-- Files with smaller numbers come first. -/
def Ordered (store : Store) : Prop := (store.sources.map (·.id.index)).Pairwise (· < ·)

theorem Ordered.load (h : store.Ordered) (consistent : store.Consistent) (path : SourcePath)
    (decls : List Decl) : (store.load path decls).Ordered := by
  unfold Ordered sources at h ⊢
  dsimp only [Store.load]
  cases hp : store.files.get? path.components with
  | some loaded =>
    -- a reload keeps the file's number and its place
    rw [Table.map_values_insert hp (by rw [idFor_of_get? hp])]
    exact h
  | none =>
    rw [Table.values_insert hp, List.map_append, idFor_of_get?_none hp]
    refine List.pairwise_append.2 ⟨h, List.pairwise_singleton _ _, ?_⟩
    intro m hm n hn
    obtain ⟨source, hsource, rfl⟩ := List.mem_map.1 hm
    obtain ⟨key, hkey⟩ := Table.mem_values.1 hsource
    rw [List.mem_singleton.1 hn]
    exact consistent.bounded hkey

theorem Ordered.unload (h : store.Ordered) (path : SourcePath) : (store.unload path).Ordered := by
  unfold Store.unload
  split
  · exact h
  · exact h.sublist ((Table.values_erase _ _).map _)

theorem Reached.ordered (h : Reached store) : store.Ordered := by
  induction h with
  | empty => exact List.Pairwise.nil
  | load path decls before ih => exact ih.load before.consistent path decls
  | unload path _ ih => exact ih.unload path

/-- The definitions that the table holds under a name. -/
def named (store : Store) (name : String) : List Symbol := (store.byName.get? name).getD []

theorem getD_get?_forget (file : FileId) (byName : Table String (List Symbol)) (name : String) :
    ((forget file byName).get? name).getD [] =
      ((byName.get? name).getD []).filter (·.location.file ≠ file) := by
  rw [forget, Table.get?_filterMap]
  cases byName.get? name with
  | none => rfl
  | some symbols =>
    rw [Option.bind_some, Option.getD_some]
    dsimp only
    split
    · rename_i hempty
      rw [List.isEmpty_iff.1 hempty]
      rfl
    · rfl

theorem getD_get?_registerAll (byName : Table String (List Symbol)) (declared : List Symbol)
    (name : String) :
    ((declared.foldl register byName).get? name).getD [] =
      (byName.get? name).getD [] ++ declared.filter (·.name = name) := by
  induction declared generalizing byName with
  | nil => simp
  | cons first rest ih =>
    rw [List.foldl_cons, ih, register, Table.get?_update]
    by_cases hname : first.name = name
    · subst hname
      simp
    · rw [if_neg hname, List.filter_cons_of_neg (by simpa using hname)]

theorem mem_forget {file : FileId} {byName : Table String (List Symbol)} {name : String}
    {symbol : Symbol} :
    symbol ∈ ((forget file byName).get? name).getD [] ↔
      symbol ∈ (byName.get? name).getD [] ∧ symbol.location.file ≠ file := by
  rw [getD_get?_forget, List.mem_filter, decide_eq_true_eq]

theorem mem_registerAll {byName : Table String (List Symbol)} {declared : List Symbol}
    {name : String} {symbol : Symbol} :
    symbol ∈ ((declared.foldl register byName).get? name).getD [] ↔
      symbol ∈ (byName.get? name).getD [] ∨ symbol ∈ declared ∧ symbol.name = name := by
  rw [getD_get?_registerAll, List.mem_append, List.mem_filter, decide_eq_true_eq]

/-- After a load there is what the file declares now, and what the other files declare. -/
theorem Consistent.mem_symbols_load (h : store.Consistent) (path : SourcePath) (decls : List Decl)
    {symbol : Symbol} :
    symbol ∈ (store.load path decls).symbols ↔
      symbol ∈ Symbol.walkAll (Decl.freezeAll (store.idFor path) decls 0).1 ∨
        symbol ∈ store.symbols ∧ symbol.location.file ≠ store.idFor path := by
  rw [mem_symbols]
  dsimp only [Store.load]
  constructor
  · rintro ⟨key, source, hkey, hs⟩
    rw [Table.get?_insert] at hkey
    split at hkey
    · cases hkey
      exact .inl hs
    · rename_i hne
      refine .inr ⟨mem_symbols.2 ⟨key, source, hkey, hs⟩, ?_⟩
      intro hfile
      rw [(h.file hkey hs).2] at hfile
      exact hne (h.key_of_id hkey hfile).symm
  · rintro (hs | ⟨hs, hfile⟩)
    · exact ⟨path.components, _, by rw [Table.get?_insert, if_pos rfl], hs⟩
    · obtain ⟨key, source, hne, hkey, hwalk⟩ := h.elsewhere hs hfile
      exact ⟨key, source, by rw [Table.get?_insert, if_neg hne, hkey], hwalk⟩

theorem Consistent.mem_symbols_unload (h : store.Consistent) {path : SourcePath} {file : FileId}
    (hfile : store.fileId? path = some file) {symbol : Symbol} :
    symbol ∈ (store.unload path).symbols ↔
      symbol ∈ store.symbols ∧ symbol.location.file ≠ file := by
  have hid : store.idFor path = file := by simp [idFor, hfile]
  rw [mem_symbols, Store.unload, hfile]
  dsimp only
  constructor
  · rintro ⟨key, source, hkey, hs⟩
    rw [Table.get?_erase] at hkey
    split at hkey
    · cases hkey
    · rename_i hne
      refine ⟨mem_symbols.2 ⟨key, source, hkey, hs⟩, ?_⟩
      intro hloc
      rw [(h.file hkey hs).2] at hloc
      exact hne (h.key_of_id hkey (hloc.trans hid.symm)).symm
  · rintro ⟨hs, hloc⟩
    obtain ⟨key, source, hne, hkey, hwalk⟩ := h.elsewhere hs (hid ▸ hloc)
    exact ⟨key, source, by rw [Table.get?_erase, if_neg hne, hkey], hwalk⟩

/-- Under each name the table holds the loaded definitions of that name, no more and no fewer. -/
def Catalogued (store : Store) : Prop :=
  ∀ name symbol, symbol ∈ store.named name ↔
    (symbol ∈ store.symbols ∧ symbol.isDefinition) ∧ symbol.name = name

theorem Catalogued.load (h : store.Catalogued) (consistent : store.Consistent) (path : SourcePath)
    (decls : List Decl) : (store.load path decls).Catalogued := by
  intro name symbol
  have hbefore := h name symbol
  unfold named at hbefore ⊢
  rw [consistent.mem_symbols_load]
  dsimp only [Store.load]
  rw [mem_registerAll, mem_forget, hbefore, List.mem_filter]
  grind

theorem Catalogued.unload (h : store.Catalogued) (consistent : store.Consistent)
    (path : SourcePath) : (store.unload path).Catalogued := by
  intro name symbol
  cases hfile : store.fileId? path with
  | none =>
    rw [Store.unload, hfile]
    exact h name symbol
  | some file =>
    have hbefore := h name symbol
    unfold named at hbefore ⊢
    rw [consistent.mem_symbols_unload hfile, Store.unload, hfile]
    dsimp only
    rw [mem_forget, hbefore]
    grind

theorem Reached.catalogued (h : Reached store) : store.Catalogued := by
  induction h with
  | empty => simp [Catalogued, named, symbols, sources, Table.values]
  | load path decls before ih => exact ih.load before.consistent path decls
  | unload path before ih => exact ih.unload before.consistent path

/-! The order of the definitions. -/

theorem mem_definitions {symbol : Symbol} :
    symbol ∈ store.definitions ↔ symbol ∈ store.symbols ∧ symbol.isDefinition :=
  List.mem_filter

theorem getElem_place (consistent : store.Consistent) {symbol : Symbol}
    (h : symbol ∈ store.symbols) :
    ∃ hlt : store.place symbol < store.sources.length,
      (store.sources[store.place symbol]).id = symbol.id.file := by
  obtain ⟨key, source, hkey, hs⟩ := mem_symbols.1 h
  obtain ⟨hid, hlocation⟩ := consistent.file hkey hs
  have hmem : source ∈ store.sources := Table.mem_values_of_get? hkey
  have hlt : store.place symbol < store.sources.length := by
    apply List.findIdx_lt_length_of_exists
    exact ⟨source, hmem, by simp [hlocation]⟩
  have hfound : decide ((store.sources[store.place symbol]).id = symbol.location.file) = true :=
    @List.findIdx_getElem SourceFile (·.id = symbol.location.file) store.sources hlt
  exact ⟨hlt, by rw [of_decide_eq_true hfound, hlocation, hid]⟩

/-- Which of two loaded symbols comes first can be told from their ids. -/
theorem precedes_iff_before (consistent : store.Consistent) (ordered : store.Ordered) {a b : Symbol}
    (ha : a ∈ store.symbols) (hb : b ∈ store.symbols) :
    store.Precedes a b ↔ a.id.Before b.id := by
  have hlater : ∀ {x y : Symbol}, x ∈ store.symbols → y ∈ store.symbols →
      store.place x < store.place y → x.id.file.index < y.id.file.index := by
    intro x y hx hy hlt
    obtain ⟨hltx, hidx⟩ := getElem_place consistent hx
    obtain ⟨hlty, hidy⟩ := getElem_place consistent hy
    have hpair := List.pairwise_iff_getElem.1 ordered (store.place x) (store.place y)
      (by simpa using hltx) (by simpa using hlty) hlt
    simpa [hidx, hidy] using hpair
  have hsame : store.place a = store.place b → a.id.file.index = b.id.file.index := by
    intro heq
    obtain ⟨hlta, hida⟩ := getElem_place consistent ha
    obtain ⟨hltb, hidb⟩ := getElem_place consistent hb
    rw [← hida, ← hidb]
    simp only [heq]
  have hab := hlater ha hb
  have hba := hlater hb ha
  unfold Precedes DefId.Before
  omega

theorem earliest_eq_none {symbols : List Symbol} : store.earliest symbols = none ↔ symbols = [] := by
  cases symbols with
  | nil => simp [earliest]
  | cons first rest =>
    unfold earliest
    split
    · simp
    · split <;> simp

/-- Nothing comes before the earliest. -/
theorem not_precedes_of_earliest {symbols : List Symbol} {symbol : Symbol}
    (h : store.earliest symbols = some symbol) {other : Symbol} (hother : other ∈ symbols) :
    ¬ store.Precedes other symbol := by
  induction symbols generalizing symbol other with
  | nil => cases hother
  | cons first rest ih =>
    unfold earliest at h
    split at h
    · rename_i hnone
      cases h
      rw [earliest_eq_none.1 hnone] at hother
      cases List.mem_singleton.1 hother
      unfold Precedes
      omega
    · rename_i least hleast
      have hrest : ∀ x ∈ rest, ¬ store.Precedes x least := fun x hx => ih hleast hx
      split at h
      · rename_i hbefore
        cases h
        obtain rfl | hx := List.mem_cons.1 hother
        · unfold Precedes at hbefore ⊢
          omega
        · exact hrest other hx
      · rename_i hafter
        cases h
        obtain rfl | hx := List.mem_cons.1 hother
        · unfold Precedes
          omega
        · have hleast := hrest other hx
          unfold Precedes at hleast hafter ⊢
          omega

/-- Every loaded symbol comes before those of later files and those declared later in its own. -/
theorem ascending_symbols (consistent : store.Consistent) (ordered : store.Ordered) :
    store.symbols.Pairwise fun a b => a.id.Before b.id := by
  unfold symbols
  rw [List.pairwise_flatMap]
  refine ⟨?_, ?_⟩
  · intro source hsource
    obtain ⟨key, hkey⟩ := Table.mem_values.1 hsource
    obtain ⟨decls, hdecls⟩ := consistent.frozen hkey
    rw [hdecls]
    exact Decl.ascending_freezeAll source.id decls 0
  · have hsources := List.pairwise_map.1 ordered
    apply hsources.imp_of_mem
    intro source later hsource hlater hlt a ha b hb
    obtain ⟨key, hkey⟩ := Table.mem_values.1 hsource
    obtain ⟨key', hkey'⟩ := Table.mem_values.1 hlater
    left
    rw [(consistent.file hkey ha).1, (consistent.file hkey' hb).1]
    exact hlt

theorem ascending_definitions (consistent : store.Consistent) (ordered : store.Ordered) :
    store.definitions.Pairwise fun a b => a.id.Before b.id :=
  (ascending_symbols consistent ordered).filter _

/-- The first loaded definition of a name. -/
structure IsFirst (store : Store) (name : String) (symbol : Symbol) : Prop where
  declared : symbol ∈ store.definitions
  name_eq : symbol.name = name
  first : ∀ other ∈ store.definitions, other.name = name →
    other = symbol ∨ symbol.id.Before other.id

theorem IsFirst.unique {name : String} {a b : Symbol} (ha : store.IsFirst name a)
    (hb : store.IsFirst name b) : a = b := by
  obtain h | hab := hb.first a ha.declared ha.name_eq
  · exact h
  obtain h | hba := ha.first b hb.declared hb.name_eq
  · exact h.symm
  · exact absurd (DefId.before_trans hab hba) (DefId.before_irrefl _)

/-- A search that finds only first definitions, and finds something if there is anything. -/
theorem eq_some_iff_isFirst {name : String} {found : Option Symbol}
    (hsome : ∀ symbol, found = some symbol → store.IsFirst name symbol)
    (hnone : found = none → ∀ symbol ∈ store.definitions, symbol.name ≠ name) (symbol : Symbol) :
    found = some symbol ↔ store.IsFirst name symbol := by
  refine ⟨hsome symbol, ?_⟩
  intro h
  cases hfound : found with
  | none => exact absurd h.name_eq (hnone hfound symbol h.declared)
  | some other => rw [(hsome other hfound).unique h]

theorem Reached.mem_named (h : Reached store) {name : String} {symbol : Symbol} :
    symbol ∈ store.named name ↔ symbol ∈ store.definitions ∧ symbol.name = name := by
  rw [h.catalogued, mem_definitions]

theorem Reached.ne_of_lookup_eq_none (h : Reached store) {name : String}
    (hnone : store.lookup name = none) {symbol : Symbol} (hdeclared : symbol ∈ store.definitions) :
    symbol.name ≠ name := by
  intro hname
  have hmem := h.mem_named.2 ⟨hdeclared, hname⟩
  rw [show store.named name = [] from earliest_eq_none.1 hnone] at hmem
  cases hmem

theorem Reached.lookup_eq_some_iff (h : Reached store) (name : String) (symbol : Symbol) :
    store.lookup name = some symbol ↔ store.IsFirst name symbol := by
  apply eq_some_iff_isFirst
  · intro symbol hfound
    obtain ⟨hdeclared, hname⟩ := h.mem_named.1 (mem_of_earliest hfound)
    refine ⟨hdeclared, hname, ?_⟩
    intro other hother hname'
    have hnot := not_precedes_of_earliest hfound (h.mem_named.2 ⟨hother, hname'⟩)
    have hs := (mem_definitions.1 hdeclared).1
    have ho := (mem_definitions.1 hother).1
    rw [precedes_iff_before h.consistent h.ordered ho hs] at hnot
    obtain hbefore | heq | hbefore := DefId.before_or_eq_or_before other.id symbol.id
    · exact absurd hbefore hnot
    · exact .inl (h.consistent.eq_of_id_eq ho hs heq)
    · exact .inr hbefore
  · exact fun hnone _ => h.ne_of_lookup_eq_none hnone

theorem Reached.find?_eq_some_iff (h : Reached store) (name : String) (symbol : Symbol) :
    store.definitions.find? (·.name = name) = some symbol ↔ store.IsFirst name symbol := by
  apply eq_some_iff_isFirst
  · intro symbol hfound
    have hdeclared := List.mem_of_find?_eq_some hfound
    obtain ⟨hname, earlier, later, hsplit, hearlier⟩ := List.find?_eq_some_iff_append.1 hfound
    refine ⟨hdeclared, by simpa using hname, ?_⟩
    intro other hother hname'
    have hascending := ascending_definitions h.consistent h.ordered
    rw [hsplit] at hother hascending
    obtain hother | hother := List.mem_append.1 hother
    · have hne := hearlier other hother
      simp [hname'] at hne
    · obtain rfl | hother := List.mem_cons.1 hother
      · exact .inl rfl
      · have htail := (List.pairwise_append.1 hascending).2.1
        exact .inr ((List.pairwise_cons.1 htail).1 other hother)
  · intro hnone symbol hdeclared
    simpa using List.find?_eq_none.1 hnone symbol hdeclared

/-- A name stands for the first definition that a scan of the loaded files meets. The scan lists
the modules and interfaces of all files, at any depth, each once and in the order of their ids;
so it is also the one with the smallest id. -/
theorem lookup_eq_find?_definitions (reached : Reached store) :
    (∀ symbol, symbol ∈ store.definitions ↔
      (symbol.kind = .module ∨ symbol.kind = .interface) ∧
        ∃ source ∈ store.sources, ∃ root ∈ source.symbols, symbol.Within root) ∧
    store.definitions.Nodup ∧
    store.definitions.Pairwise (fun a b => a.id.Before b.id) ∧
    ∀ name,
      store.lookup name = store.definitions.find? (·.name = name) ∧
      (∀ symbol, store.lookup name = some symbol ↔
        symbol ∈ store.definitions ∧ symbol.name = name ∧
          ∀ other ∈ store.definitions, other.name = name →
            other = symbol ∨ symbol.id.Before other.id) ∧
      (store.lookup name = none ↔ ∀ symbol ∈ store.definitions, symbol.name ≠ name) := by
  have hascending := ascending_definitions reached.consistent reached.ordered
  have hfind : ∀ name, store.lookup name = store.definitions.find? (·.name = name) := by
    intro name
    apply Option.ext
    intro symbol
    rw [reached.lookup_eq_some_iff, reached.find?_eq_some_iff]
  refine ⟨?_, ?_, hascending, fun name => ⟨hfind name, ?_, ?_⟩⟩
  · intro symbol
    rw [mem_definitions, Symbol.isDefinition_iff, and_comm, symbols, List.mem_flatMap]
    simp only [Symbol.mem_walkAll_iff_within]
  · apply hascending.imp
    intro a b hbefore heq
    rw [heq] at hbefore
    exact DefId.before_irrefl _ hbefore
  · intro symbol
    rw [reached.lookup_eq_some_iff]
    exact ⟨fun h => ⟨h.declared, h.name_eq, h.first⟩, fun ⟨hd, hn, hf⟩ => ⟨hd, hn, hf⟩⟩
  · rw [hfind, List.find?_eq_none]
    simp

/-- Removed and loaded again, the first file comes last; the reloaded second one keeps its place. -/
theorem lookup_eq_find?_definitions_reloaded :
    let file : List Decl :=
      [{ name := "p", kind := .package, children := [{ name := "m", kind := .module }] }]
    let store := ((((Store.load {} ⟨"a.v"⟩ file).load ⟨"b.v"⟩ file).unload ⟨"a.v"⟩).load
      ⟨"a.v"⟩ file).load ⟨"b.v"⟩ file
    store.definitions.map (·.id) = [⟨⟨1⟩, 1⟩, ⟨⟨2⟩, 1⟩] ∧
      (store.lookup "m").map (·.id) = some ⟨⟨1⟩, 1⟩ ∧ store.lookup "p" = none := by
  intro file store
  have reached : Reached store :=
    .load _ _ (.load _ _ (.unload _ (.load _ _ (.load _ _ .empty))))
  obtain ⟨-, -, -, hlookup⟩ := lookup_eq_find?_definitions reached
  refine ⟨by decide +kernel, ?_, (hlookup "p").2.2.2 (by decide +kernel)⟩
  rw [(hlookup "m").1]
  decide +kernel

end Store

end DesignHierarchy
