import TableStore.Proofs.JsonTable
import TableStore.Proofs.Keyspace
import Mathlib.Data.List.Dedup
import Mathlib.Data.List.Perm.Subperm

/-!
# What loading a keyspace gives

- the records of a container come back under the keys of what JSON makes of them (`Container.rekeyed?`); a record that
  is not read, or has no key any more, makes the whole container unreadable, and of two records with the same key one
  is lost;
- so a container comes back with as many records exactly if each of its records has a text, and they all come back
  with keys of their own (`Container.Survives`, `Keeps.readShelf_iff`);
- a keyspace comes back exactly if all its containers do and the texts of all column types are read
  (`Holds.load_iff`).
-/

namespace TableStore

/-- The key under which a record comes back, if it does. -/
def Container.rekeyed? (c : Container) (r : Record) : Option Key :=
  r.reread?.bind fun s => (c.keyed s).toOption.map Prod.fst

/-- Each record of a container has a text, and all come back under keys of their own. -/
structure Container.Survives (c : Container) (kept : Nat) : Prop where
  kept_eq : kept = c.size
  keyed : ∀ r ∈ c.scan, (c.rekeyed? r).isSome
  distinct : (c.scan.filterMap c.rekeyed?).Nodup

/-- How many texts a keyspace keeps of the records of a container. -/
def Keyspace.count (k : Keyspace) (name : String) : Nat :=
  ((k.shelves.find? name).map fun shelf => (k.texts shelf.partition).size).getD 0

/-- Two images have tables of the same names, and containers of the same names with as many records. -/
structure Image.Matches (j i : Image) : Prop where
  tables : ∀ name, j.catalog.contains name = i.catalog.contains name
  records : ∀ name, (j.find? name).map Container.size = (i.find? name).map Container.size

/-- The texts of all column types are read, and all containers survive. -/
structure Image.Survives (i : Image) (k : Keyspace) : Prop where
  types : ∀ t ∈ i.catalog.list, ∀ c ∈ t.columns, c.type.reread?.isSome
  containers : ∀ name c, i.find? name = some c → c.Survives (k.count name)

namespace Keyspace

open OrderedMap

/-! ## Records -/

/-- One more record comes back under its key, unless it is not read or has no key. -/
theorem readRecords_cons (c : Container) (r : Record) (ts : List String) :
    (c.rekeyed? r = none ∧ ∃ e, readRecords c (writeRecord r :: ts) = .error e) ∨
      ∃ k s, c.rekeyed? r = some k ∧ k.Proper ∧
        readRecords c (writeRecord r :: ts) = readRecords { c with records := c.records.insert k s } ts := by
  have hread : Json.readRecord? (writeRecord r).toList = r.reread? := by
    rw [writeRecord, String.toList_ofList, Json.readRecord?_writeRecord]
  rw [readRecords, hread, Container.rekeyed?]
  cases r.reread? with
  | none => exact .inl ⟨rfl, _, rfl⟩
  | some s =>
    simp only [Option.bind_some, Container.restore]
    cases hk : c.keyed s with
    | error e => exact .inl ⟨rfl, e, rfl⟩
    | ok p => exact .inr ⟨p.1, p.2, rfl, Container.keyed_proper hk, rfl⟩

/-- Records are read exactly if all of them come back. -/
theorem readRecords_ok_iff : ∀ {rs : List Record} {c : Container},
    (∃ d, readRecords c (rs.map writeRecord) = .ok d) ↔ ∀ r ∈ rs, (c.rekeyed? r).isSome
  | [], c => ⟨fun _ _ h => absurd h List.not_mem_nil, fun _ => ⟨c, rfl⟩⟩
  | r :: rs, c => by
    rw [List.map_cons, List.forall_mem_cons]
    rcases readRecords_cons c r (rs.map writeRecord) with ⟨hn, e, he⟩ | ⟨k, s, hk, -, hs⟩
    · rw [hn, he]
      constructor
      · rintro ⟨_, h⟩
        cases h
      · rintro ⟨h, -⟩
        cases h
    · rw [hk, hs, readRecords_ok_iff]
      exact ⟨fun h => ⟨rfl, h⟩, And.right⟩

/-- The keys of the records that were read are those under which they come back. -/
theorem keys_readRecords : ∀ {rs : List Record} {c d : Container}, c.records.Sorted Key.Proper →
    readRecords c (rs.map writeRecord) = .ok d → d.records.Sorted Key.Proper ∧
      ∀ k, k ∈ d.records.keys ↔ k ∈ c.records.keys ∨ k ∈ rs.filterMap c.rekeyed?
  | [], c, d, hc, h => by
    cases h
    exact ⟨hc, fun k => by simp⟩
  | r :: rs, c, d, hc, h => by
    rw [List.map_cons] at h
    rcases readRecords_cons c r (rs.map writeRecord) with ⟨-, e, he⟩ | ⟨k, s, hk, hp, hs⟩
    · rw [he] at h
      cases h
    · rw [hs] at h
      obtain ⟨hd, hkeys⟩ := keys_readRecords (hc.insert hp s) h
      refine ⟨hd, fun l => ?_⟩
      have hsame : ∀ r, Container.rekeyed? { c with records := c.records.insert k s } r = c.rekeyed? r := fun _ => rfl
      have hinsert : l ∈ (c.records.insert k s).keys ↔ l = k ∨ l ∈ c.records.keys := by
        simp only [OrderedMap.keys, List.mem_map]
        constructor
        · rintro ⟨e, he, rfl⟩
          rcases (mem_insertIn_iff hp hc).1 he with rfl | ⟨he, -⟩
          · exact .inl rfl
          · exact .inr ⟨e, he, rfl⟩
        · rintro (rfl | ⟨e, he, rfl⟩)
          · exact ⟨_, (mem_insertIn_iff hp hc).2 (.inl rfl), rfl⟩
          · by_cases hek : e.1 = k
            · exact ⟨(k, s), (mem_insertIn_iff hp hc).2 (.inl rfl), hek.symm⟩
            · exact ⟨e, (mem_insertIn_iff hp hc).2 (.inr ⟨he, hek⟩), rfl⟩
      simp only [hkeys, hinsert, hsame, List.filterMap_cons, hk, List.mem_cons]
      rw [or_assoc, or_left_comm]

/-- As many records are read as there are keys under which they come back. -/
theorem size_readRecords {rs : List Record} {c d : Container} (hc : c.records = .empty)
    (h : readRecords c (rs.map writeRecord) = .ok d) : d.size = (rs.filterMap c.rekeyed?).dedup.length := by
  obtain ⟨hd, hkeys⟩ := keys_readRecords (by rw [hc]; exact sorted_empty) h
  have hperm : d.records.keys.Perm (rs.filterMap c.rekeyed?).dedup := by
    refine (List.perm_ext_iff_of_nodup hd.nodup_keys (List.nodup_dedup _)).2 fun k => ?_
    rw [hkeys, hc, List.mem_dedup]
    exact or_iff_right List.not_mem_nil
  rw [← hperm.length_eq, OrderedMap.keys, List.length_map]
  rfl

/-! ## Containers -/

/-- A list of images is the image of a list. -/
theorem exists_eq_map {α β : Type} {f : α → β} {m : List α} : ∀ {l : List β}, (∀ b ∈ l, ∃ a ∈ m, f a = b) →
    ∃ as : List α, l = as.map f ∧ as ⊆ m
  | [], _ => ⟨[], rfl, List.nil_subset _⟩
  | _ :: _, h => by
    obtain ⟨⟨a, ha, rfl⟩, hl⟩ := List.forall_mem_cons.1 h
    obtain ⟨as, rfl, has⟩ := exists_eq_map hl
    exact ⟨a :: as, rfl, List.cons_subset.2 ⟨ha, has⟩⟩

/-- Texts that are kept of records are texts of records, each of a record of its own. -/
theorem Kept.exists_entries {texts : OrderedMap String String} {records : OrderedMap Key Record}
    (h : Kept texts records) : ∃ es : List (Key × Record), texts.entries = es.map recordText ∧
      es.Subperm records.entries := by
  obtain ⟨es, hes, hsub⟩ := exists_eq_map h.of_record
  have hnodup : (es.map recordText).Nodup := by
    rw [← hes]
    exact List.Nodup.of_map _ h.sorted.nodup_keys
  exact ⟨es, hes, (List.Nodup.of_map _ hnodup).subperm hsub⟩

/-- Among the values of a list that is not too long there are so many different ones exactly if it is long enough, all
its elements have values and these are different. -/
theorem length_dedup_filterMap {α β : Type} [DecidableEq β] {f : α → Option β} {l : List α} {n : Nat}
    (h : l.length ≤ n) : (l.filterMap f).dedup.length = n ↔
      l.length = n ∧ (∀ a ∈ l, (f a).isSome) ∧ (l.filterMap f).Nodup := by
  have hmap := List.length_filterMap_le f l
  have hdedup := (List.dedup_sublist (l.filterMap f)).length_le
  constructor
  · intro heq
    refine ⟨by omega, List.filterMap_length_eq_length.1 (by omega), List.dedup_eq_self.1 ?_⟩
    exact (List.dedup_sublist _).eq_of_length (by omega)
  · rintro ⟨heq, hall, hnd⟩
    rw [List.dedup_eq_self.2 hnd, List.filterMap_length_eq_length.2 hall, heq]

variable {k : Keyspace}

/-- **A container comes back with as many records exactly if it survives.** -/
theorem Keeps.readShelf_iff {shelf : Shelf} {c : Container} (h : k.Keeps shelf c) :
    (∃ d, k.readShelf c.name shelf = .ok d ∧ d.size = c.size) ↔ c.Survives (k.texts shelf.partition).size := by
  obtain ⟨es, hes, hsub⟩ := h.kept.exists_entries
  have hvalues : (k.texts shelf.partition).values = (es.map Prod.snd).map writeRecord := by
    rw [OrderedMap.values, hes, List.map_map, List.map_map]
    rfl
  have hsize : (k.texts shelf.partition).size = es.length := by rw [OrderedMap.size, hes, List.length_map]
  have hlength : (es.map Prod.snd).length = es.length := List.length_map _
  have hle : (es.map Prod.snd).length ≤ c.size := by
    rw [hlength]
    exact hsub.length_le
  have hempty : (Container.mk c.name shelf.keyPath shelf.autoIncrement shelf.nextKey .empty none) =
      { c with records := .empty, journal := none } := by rw [h.shelf_eq]
  have hsame : Container.rekeyed? { c with records := .empty, journal := none } = c.rekeyed? := rfl
  -- where there are as many texts as records, they are the texts of all records
  have hperm : es.length = c.size → (es.map Prod.snd).Perm c.scan := fun he =>
    (hsub.perm_of_length_le (Nat.le_of_eq he.symm)).map Prod.snd
  rw [hsize, readShelf, hvalues, hempty]
  constructor
  · rintro ⟨d, hd, hds⟩
    have hlen := size_readRecords rfl hd
    rw [hsame, hds] at hlen
    obtain ⟨heq, hall, hnd⟩ := (length_dedup_filterMap hle).1 hlen.symm
    rw [hlength] at heq
    have hp := hperm heq
    exact ⟨heq, fun r hr => hall r (hp.mem_iff.2 hr), (hp.filterMap _).nodup_iff.1 hnd⟩
  · rintro ⟨heq, hkeyed, hdistinct⟩
    have hp := hperm heq
    have hall : ∀ r ∈ es.map Prod.snd, (c.rekeyed? r).isSome := fun r hr => hkeyed r (hp.mem_iff.1 hr)
    have hlen := (length_dedup_filterMap hle).2 ⟨hlength.trans heq, hall, (hp.filterMap _).nodup_iff.2 hdistinct⟩
    rw [← hsame] at hall
    obtain ⟨d, hd⟩ := readRecords_ok_iff.2 hall
    refine ⟨d, hd, ?_⟩
    rw [size_readRecords rfl hd, hsame, hlen]

/-! ## Tables -/

theorem isSome_reread? (t : Table) : t.reread?.isSome ↔ ∀ c ∈ t.columns, c.type.reread?.isSome := by
  have hcolumns : ∀ cs : List Column, (cs.mapM Column.reread?).isSome ↔ ∀ c ∈ cs, c.type.reread?.isSome := by
    intro cs
    induction cs with
    | nil => simp
    | cons c cs ih =>
      rw [List.forall_mem_cons, ← ih, List.mapM_cons, Column.reread?]
      cases c.type.reread? <;> cases cs.mapM Column.reread? <;> simp
  rw [Table.reread?, Option.isSome_map]
  exact hcolumns t.columns

/-- The texts of the tables stand in the order of the tables. -/
theorem values_tableTexts {c : Catalog} (hc : c.Filed) :
    (tableTexts c).values = c.list.map fun t => String.ofList (Json.writeTable t) := by
  have hentries : (c.list.map fun t => (t.name, String.ofList (Json.writeTable t))) =
      (c.tables.mapValues fun t => String.ofList (Json.writeTable t)).entries := by
    rw [Catalog.list, OrderedMap.values, OrderedMap.mapValues, List.map_map]
    refine List.map_congr_left fun e he => ?_
    have hname := hc.name_eq ((hc.sorted.find?_eq_some trivial).2 he)
    simp [hname]
  rw [tableTexts, OrderedMap.ofList, hentries, (hc.sorted.mapValues _).foldl_entries, values_mapValues]
  rfl

/-- Tables are read exactly if the texts of all their column types are. -/
theorem readTables_ok_iff : ∀ {ts : List Table} {c : Catalog},
    (∃ d, readTables c (ts.map fun t => String.ofList (Json.writeTable t)) = .ok d) ↔
      ∀ t ∈ ts, ∀ c ∈ t.columns, c.type.reread?.isSome
  | [], c => ⟨fun _ _ h => absurd h List.not_mem_nil, fun _ => ⟨c, rfl⟩⟩
  | t :: ts, c => by
    rw [List.map_cons, List.forall_mem_cons, ← isSome_reread?, readTables, String.toList_ofList,
      Json.readTable?_writeTable]
    cases t.reread? with
    | none =>
      constructor
      · rintro ⟨_, h⟩
        cases h
      · rintro ⟨h, -⟩
        cases h
    | some t' =>
      rw [readTables_ok_iff]
      exact ⟨fun h => ⟨rfl, h⟩, And.right⟩

/-- The tables that were read have the names of those that were written. -/
theorem contains_readTables {ts : List Table} {c d : Catalog} (hc : c.Filed)
    (h : readTables c (ts.map fun t => String.ofList (Json.writeTable t)) = .ok d) (name : String) :
    d.contains name = true ↔ c.contains name = true ∨ ∃ t ∈ ts, t.name = name := by
  induction ts generalizing c with
  | nil =>
    cases h
    simp
  | cons t ts ih =>
    rw [List.map_cons, readTables, String.toList_ofList, Json.readTable?_writeTable] at h
    cases ht : t.reread? with
    | none =>
      rw [ht] at h
      cases h
    | some t' =>
      rw [ht] at h
      have hname : t'.name = t.name := by
        obtain ⟨cs, -, rfl⟩ := Option.map_eq_some_iff.1 ht
        rfl
      have hput : (c.put t').contains name = true ↔ name = t.name ∨ c.contains name = true := by
        simp only [Catalog.contains, Catalog.put, contains_eq_isSome]
        rw [hc.sorted.find?_insert trivial t' trivial, hname]
        split
        · simp [*]
        · simp [*]
      rw [ih (hc.put t') h, hput]
      simp only [List.exists_mem_cons_iff, eq_comm (a := name)]
      rw [or_assoc, or_left_comm]

/-- **The tables of a catalog come back exactly if the texts of all column types are read.** -/
theorem readTables_iff {c : Catalog} (hc : c.Filed) :
    (∃ d, readTables {} (tableTexts c).values = .ok d ∧ ∀ name, d.contains name = c.contains name) ↔
      ∀ t ∈ c.list, ∀ col ∈ t.columns, col.type.reread?.isSome := by
  rw [values_tableTexts hc, ← readTables_ok_iff (c := {})]
  refine ⟨fun ⟨d, hd, _⟩ => ⟨d, hd⟩, fun ⟨d, hd⟩ => ⟨d, hd, fun name => Bool.eq_iff_iff.2 ?_⟩⟩
  have hfind : c.contains name = true ↔ ∃ t, c.find? name = some t := by
    rw [Catalog.contains, contains_eq_isSome, Option.isSome_iff_exists]
    rfl
  rw [contains_readTables .empty hd, hfind]
  constructor
  · rintro (h | ⟨t, ht, rfl⟩)
    · cases h
    · obtain ⟨n, -, hn⟩ := hc.sorted.mem_values.1 ht
      have := hc.name_eq hn
      subst this
      exact ⟨t, hn⟩
  · rintro ⟨t, ht⟩
    exact .inr ⟨t, hc.sorted.mem_values.2 ⟨name, trivial, ht⟩, hc.name_eq ht⟩

/-! ## Images -/

/-- Containers are read exactly if each of them is. -/
theorem readShelves_ok_iff : ∀ {es : List (String × Shelf)} {cs : OrderedMap String Container},
    (∃ ds, k.readShelves cs es = .ok ds) ↔ ∀ e ∈ es, ∃ d, k.readShelf e.1 e.2 = .ok d
  | [], cs => ⟨fun _ _ h => absurd h List.not_mem_nil, fun _ => ⟨cs, rfl⟩⟩
  | (name, shelf) :: es, cs => by
    rw [List.forall_mem_cons, readShelves]
    cases hd : k.readShelf name shelf with
    | error e =>
      constructor
      · rintro ⟨_, h⟩
        cases h
      · rintro ⟨⟨_, h⟩, -⟩
        cases h
    | ok d =>
      show (∃ ds, k.readShelves (cs.insert name d) es = .ok ds) ↔ _
      rw [readShelves_ok_iff]
      exact ⟨fun h => ⟨⟨d, rfl⟩, h⟩, And.right⟩

/-- A name is that of the container that was read for it, or of the one that was there. -/
theorem find?_readShelves : ∀ {es : List (String × Shelf)} {cs ds : OrderedMap String Container},
    cs.Sorted (fun _ => True) → (es.map Prod.fst).Nodup → k.readShelves cs es = .ok ds → ∀ name,
      (name ∉ es.map Prod.fst ∧ ds.find? name = cs.find? name) ∨
        ∃ shelf d, (name, shelf) ∈ es ∧ k.readShelf name shelf = .ok d ∧ ds.find? name = some d
  | [], cs, ds, _, _, h, name => by
    cases h
    exact .inl ⟨List.not_mem_nil, rfl⟩
  | (n, shelf) :: es, cs, ds, hcs, hnd, h, name => by
    rw [List.map_cons, List.nodup_cons] at hnd
    rw [readShelves] at h
    cases hd : k.readShelf n shelf with
    | error e =>
      rw [hd] at h
      cases h
    | ok d =>
      rw [hd] at h
      rcases find?_readShelves (hcs.insert trivial d) hnd.2 h name with ⟨hnot, hf⟩ | ⟨shelf', d', hmem, hd', hf⟩
      · rw [hcs.find?_insert trivial d trivial] at hf
        by_cases hname : name = n
        · subst hname
          rw [if_pos rfl] at hf
          exact .inr ⟨shelf, d, List.mem_cons_self, hd, hf⟩
        · rw [if_neg hname] at hf
          exact .inl ⟨by simp [hname, hnot], hf⟩
      · exact .inr ⟨shelf', d', List.mem_cons_of_mem _ hmem, hd', hf⟩

theorem Files.count_eq {name : String} {shelf : Shelf} (hs : k.shelves.find? name = some shelf) :
    k.count name = (k.texts shelf.partition).size := by
  rw [count, hs]
  rfl

/-- **The containers come back with as many records exactly if all of them survive.** -/
theorem Files.readShelves_iff {containers : OrderedMap String Container} (h : k.Files containers)
    (hname : ∀ {name c}, containers.find? name = some c → c.name = name) :
    (∃ ds, k.readShelves .empty k.shelves.entries = .ok ds ∧
        ∀ name, (ds.find? name).map Container.size = (containers.find? name).map Container.size) ↔
      ∀ name c, containers.find? name = some c → c.Survives (k.count name) := by
  have hnd : (k.shelves.entries.map Prod.fst).Nodup := h.shelves_sorted.nodup_keys
  have hmem : ∀ {name shelf}, (name, shelf) ∈ k.shelves.entries ↔ k.shelves.find? name = some shelf :=
    (h.shelves_sorted.find?_eq_some trivial).symm
  constructor
  · rintro ⟨ds, hds, hsize⟩ name c hc
    have hsz := hsize name
    rw [hc] at hsz
    rcases find?_readShelves sorted_empty hnd hds name with ⟨-, hf⟩ | ⟨shelf, d, hin, hd, hf⟩
    · rw [hf] at hsz
      cases hsz
    · rw [hf] at hsz
      have hs := hmem.1 hin
      rw [count_eq hs]
      refine (h.keeps hs hc).readShelf_iff.1 ⟨d, ?_, by simpa using hsz⟩
      rw [hname hc]
      exact hd
  · intro hsurvives
    have hread : ∀ {name shelf}, k.shelves.find? name = some shelf →
        ∃ c d, containers.find? name = some c ∧ k.readShelf name shelf = .ok d ∧ d.size = c.size := by
      intro name shelf hs
      obtain ⟨c, hc⟩ : ∃ c, containers.find? name = some c := by
        refine Option.isSome_iff_exists.1 ((h.same name).symm.trans ?_)
        rw [hs]
        rfl
      have hsv := hsurvives name c hc
      rw [count_eq hs] at hsv
      obtain ⟨d, hd, hds⟩ := (h.keeps hs hc).readShelf_iff.2 hsv
      rw [hname hc] at hd
      exact ⟨c, d, hc, hd, hds⟩
    obtain ⟨ds, hds⟩ : ∃ ds, k.readShelves .empty k.shelves.entries = .ok ds := by
      refine readShelves_ok_iff.2 fun e he => ?_
      obtain ⟨_, d, -, hd, -⟩ := hread (hmem.1 he)
      exact ⟨d, hd⟩
    refine ⟨ds, hds, fun name => ?_⟩
    rcases find?_readShelves sorted_empty hnd hds name with ⟨hnot, hf⟩ | ⟨shelf, d, hin, hd, hf⟩
    · have hnone : containers.find? name = none := by
        cases hs : k.shelves.find? name with
        | some shelf => exact absurd (List.mem_map_of_mem (hmem.2 hs)) hnot
        | none =>
          have := h.same name
          rw [hs] at this
          simpa using this.symm
      rw [hf, hnone]
      rfl
    · obtain ⟨c, d', hc, hd', hds'⟩ := hread (hmem.1 hin)
      rw [hd] at hd'
      cases hd'
      rw [hf, hc, Option.map_some, Option.map_some, hds']

/-- What is loaded is what is read of the tables and of the containers. -/
theorem load_eq_some_iff {v : Nat} (hv : k.version = some v) {j : Image} : k.load = .ok (some j) ↔
    ∃ catalog containers, readTables {} k.tables.values = .ok catalog ∧
      k.readShelves .empty k.shelves.entries = .ok containers ∧ j = { version := v, catalog, containers } := by
  rw [load, hv]
  cases readTables {} k.tables.values with
  | error e => simp [bind, Except.bind]
  | ok catalog =>
    cases k.readShelves .empty k.shelves.entries with
    | error e => simp [bind, Except.bind]
    | ok containers => simp [bind, Except.bind, eq_comm]

/-- **A keyspace that holds an image is loaded with as many records exactly if the image survives.** -/
theorem Holds.load_iff {i : Image} (h : k.Holds i) (hv : k.version = some i.version) (hi : i.WellFormed) :
    (∃ j, k.load = .ok (some j) ∧ j.Matches i) ↔ i.Survives k := by
  have htables := readTables_iff hi.filed
  rw [← h.tables] at htables
  have hshelves := h.files.readShelves_iff fun hc => (hi.sound.settled hc).name_eq
  constructor
  · rintro ⟨j, hj, hm⟩
    obtain ⟨catalog, containers, hcat, hcs, rfl⟩ := (load_eq_some_iff hv).1 hj
    exact ⟨htables.1 ⟨catalog, hcat, hm.tables⟩, hshelves.1 ⟨containers, hcs, hm.records⟩⟩
  · rintro ⟨htypes, hsurvives⟩
    obtain ⟨catalog, hcat, hnames⟩ := htables.2 htypes
    obtain ⟨containers, hcs, hsizes⟩ := hshelves.2 hsurvives
    exact ⟨_, (load_eq_some_iff hv).2 ⟨catalog, containers, hcat, hcs, rfl⟩, hnames, hsizes⟩

end Keyspace

end TableStore
