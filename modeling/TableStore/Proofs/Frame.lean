import TableStore.Proofs.Loading
import TableStore.Proofs.Steady

/-!
# What comes back whatever the records are

- the frame of an image is what its tables and containers are apart from the types of the columns and the records; two
  images can have the `SameFrame`, and a change set that fits the one fits the other (`ChangeSet.Fits.transfer`);
- what is loaded from a keyspace has the frame of the image that the keyspace holds, and its records are under their
  own keys, even where JSON has made other records of them (`Keyspace.Holds.load_sound`).
-/

namespace TableStore

/-- What a container is apart from its name, its records and its journal. -/
def Container.frame (c : Container) : String × Bool × Int64 := (c.keyPath, c.autoIncrement, c.nextKey)

/-- Two images have tables of the same names with the same column names, and containers of the same names with the
same key columns and next keys. -/
structure Image.SameFrame (i j : Image) : Prop where
  columns : ∀ name, (i.catalog.find? name).map Table.columnNames = (j.catalog.find? name).map Table.columnNames
  frames : ∀ name, (i.find? name).map Container.frame = (j.find? name).map Container.frame

namespace Image.SameFrame

variable {i j : Image}

theorem refl (i : Image) : i.SameFrame i := ⟨fun _ => rfl, fun _ => rfl⟩

theorem symm (h : i.SameFrame j) : j.SameFrame i :=
  ⟨fun name => (h.columns name).symm, fun name => (h.frames name).symm⟩

theorem trans {k : Image} (h : i.SameFrame j) (h' : j.SameFrame k) : i.SameFrame k :=
  ⟨fun name => (h.columns name).trans (h'.columns name), fun name => (h.frames name).trans (h'.frames name)⟩

theorem isSome_find? (h : i.SameFrame j) (name : String) : (i.find? name).isSome = (j.find? name).isSome := by
  have := congrArg Option.isSome (h.frames name)
  simpa only [Option.isSome_map] using this

/-! ## Changes -/

/-- Containers that are dropped leave the same ones. -/
theorem foldl_erase {m n : OrderedMap String Container} (hm : m.Sorted fun _ => True) (hn : n.Sorted fun _ => True)
    (h : ∀ name, (m.find? name).map Container.frame = (n.find? name).map Container.frame) (dropped : List String)
    (name : String) : ((dropped.foldl .erase m).find? name).map Container.frame =
      ((dropped.foldl .erase n).find? name).map Container.frame := by
  rw [hm.find?_foldl_erase (fun _ _ => trivial) trivial, hn.find?_foldl_erase (fun _ _ => trivial) trivial]
  split
  · rfl
  · exact h name

/-- Containers that are set are the same afterwards. -/
theorem foldl_set (hi : i.containers.Sorted fun _ => True) (hj : j.containers.Sorted fun _ => True)
    (h : i.SameFrame j) (cs : List Container) :
    (cs.foldl (fun i c => i.set c.name c) i).SameFrame (cs.foldl (fun i c => i.set c.name c) j) := by
  induction cs generalizing i j with
  | nil => exact h
  | cons c cs ih =>
    refine ih (hi.insert trivial c) (hj.insert trivial c) ⟨h.columns, fun name => ?_⟩
    rw [Image.find?_set hi, Image.find?_set hj]
    split
    · rfl
    · exact h.frames name

/-- Changes give a container the next key that they name. -/
theorem foldl_update (hi : i.containers.Sorted fun _ => True) (hj : j.containers.Sorted fun _ => True)
    (h : i.SameFrame j) (updated : List Changes) : (updated.foldl update i).SameFrame (updated.foldl update j) := by
  induction updated generalizing i j with
  | nil => exact h
  | cons changes updated ih =>
    refine ih (sorted_update hi changes) (sorted_update hj changes) ⟨fun name => ?_, fun name => ?_⟩
    · rw [catalog_update, catalog_update]
      exact h.columns name
    · rw [find?_update hi, find?_update hj]
      split
      · have := congrArg (Option.map fun f => (f.1, f.2.1, changes.nextKey)) (h.frames name)
        rw [Option.map_map, Option.map_map] at this
        rwa [Option.map_map, Option.map_map]
      · exact h.frames name

theorem renewed (hi : i.containers.Sorted fun _ => True) (hj : j.containers.Sorted fun _ => True)
    (h : i.SameFrame j) (changes : ChangeSet) : (i.renewed changes).SameFrame (j.renewed changes) := by
  refine foldl_set (hi.foldl_erase fun _ _ => trivial) (hj.foldl_erase fun _ _ => trivial) ⟨fun name => ?_, ?_⟩ _
  · cases changes.catalog with
    | none => exact h.columns name
    | some c => rfl
  · exact foldl_erase hi hj h.frames changes.dropped

/-- The same changes lead to the same frame. -/
theorem applied (hi : i.containers.Sorted fun _ => True) (hj : j.containers.Sorted fun _ => True)
    (h : i.SameFrame j) (changes : ChangeSet) : (i.applied changes).SameFrame (j.applied changes) :=
  foldl_update (sorted_renewed hi changes) (sorted_renewed hj changes) (h.renewed hi hj changes) changes.updated

end Image.SameFrame

/-- **What fits an image fits those with the same frame.** -/
theorem ChangeSet.Fits.transfer {changes : ChangeSet} {i j j' : Image} (hf : changes.Fits j j')
    (hi : i.containers.Sorted fun _ => True) (hj : j.containers.Sorted fun _ => True) (h : i.SameFrame j) :
    changes.Fits i (i.applied changes) where
  apply_eq := by
    have ha := hf.apply_eq
    have hmissing : i.missing? changes.updated = j.missing? changes.updated := by
      simp only [Image.missing?, Image.contains_eq_isSome, h.isSome_find?]
    rw [Image.apply] at ha ⊢
    rw [hmissing]
    split at ha
    · cases ha
    · rfl
  ordered := hf.ordered
  present c hc := by
    rw [(h.renewed hi hj changes).isSome_find?]
    exact hf.present c hc
  nonempty := hf.nonempty
  exact := hf.exact

/-! ## Loading -/

namespace Container

variable {c d : Container} {r : Record}

/-- A record that is read from a store changes nothing but the records. -/
theorem restore_eq (h : c.restore r = .ok d) : d = { c with records := d.records } := by
  unfold restore at h
  split at h <;> cases h
  rfl

end Container

namespace Keyspace

open OrderedMap

variable {k : Keyspace}

/-- Records that are read are put under their keys, and change nothing else. -/
theorem readRecords_keyed : ∀ {ts : List String} {c d : Container}, readRecords c ts = .ok d → c.Keyed →
    d.Keyed ∧ d = { c with records := d.records }
  | [], c, d, h, hc => by
    cases h
    exact ⟨hc, rfl⟩
  | t :: ts, c, d, h, hc => by
    rw [readRecords] at h
    split at h
    · cases h
    · rename_i r _
      cases hr : c.restore r with
      | error e =>
        rw [hr] at h
        cases h
      | ok c' =>
        rw [hr] at h
        obtain ⟨hd, he⟩ := readRecords_keyed h (hc.restore hr)
        rw [Container.restore_eq hr] at he
        exact ⟨hd, he⟩

theorem readShelf_keyed {name : String} {shelf : Shelf} {d : Container} (h : k.readShelf name shelf = .ok d) :
    d.Keyed ∧ d.Settled name ∧ d.frame = (shelf.keyPath, shelf.autoIncrement, shelf.nextKey) := by
  obtain ⟨hd, he⟩ := readRecords_keyed h (.empty name shelf.keyPath shelf.autoIncrement shelf.nextKey)
  exact ⟨hd, ⟨by rw [he], hd.ordered, by rw [he]⟩, by rw [he, Container.frame]⟩

theorem sorted_readShelves : ∀ {es : List (String × Shelf)} {cs ds : OrderedMap String Container},
    cs.Sorted (fun _ => True) → k.readShelves cs es = .ok ds → ds.Sorted fun _ => True
  | [], _, _, hcs, h => by
    cases h
    exact hcs
  | (name, shelf) :: es, cs, ds, hcs, h => by
    rw [readShelves] at h
    cases hd : k.readShelf name shelf with
    | error e =>
      rw [hd] at h
      cases h
    | ok d =>
      rw [hd] at h
      exact sorted_readShelves (hcs.insert trivial d) h

/-- The tables that are read are those that were written, with the types that the texts of their types describe. -/
theorem readTables_eq {ts : List Table} {c d : Catalog}
    (h : readTables c (ts.map fun t => String.ofList (Json.writeTable t)) = .ok d) :
    d = (ts.map fun t => t.reread?.getD t).foldl .put c := by
  induction ts generalizing c with
  | nil =>
    cases h
    rfl
  | cons t ts ih =>
    rw [List.map_cons, readTables, String.toList_ofList, Json.readTable?_writeTable] at h
    cases ht : t.reread? with
    | none =>
      rw [ht] at h
      cases h
    | some t' =>
      rw [ht] at h
      rw [List.map_cons, List.foldl_cons, ht, Option.getD_some]
      exact ih h

theorem name_reread (t : Table) : (t.reread?.getD t).name = t.name := by
  cases ht : t.reread? with
  | none => rfl
  | some t' =>
    obtain ⟨cs, -, rfl⟩ := Option.map_eq_some_iff.1 ht
    rfl

theorem columnNames_reread (t : Table) : (t.reread?.getD t).columnNames = t.columnNames := by
  cases ht : t.reread? with
  | none => rfl
  | some t' =>
    obtain ⟨cs, hcs, rfl⟩ := Option.map_eq_some_iff.1 ht
    rw [Option.getD_some, Table.columnNames, Table.columnNames]
    clear ht
    generalize t.columns = columns at hcs
    induction columns generalizing cs with
    | nil =>
      cases hcs
      rfl
    | cons c columns ih =>
      rw [List.mapM_cons] at hcs
      obtain ⟨c', hc, hcs⟩ := Option.bind_eq_some_iff.1 hcs
      obtain ⟨cs', hcs', hcs⟩ := Option.bind_eq_some_iff.1 hcs
      cases hcs
      obtain ⟨ty, -, rfl⟩ := Option.map_eq_some_iff.1 hc
      rw [List.map_cons, List.map_cons, ih cs' hcs']

/-- A catalog comes back with the same definitions but for the types of the columns. -/
theorem tables_readTables {c d : Catalog} (hc : c.Filed) (h : readTables {} (tableTexts c).values = .ok d) :
    d.tables = c.tables.mapValues fun t => t.reread?.getD t := by
  rw [values_tableTexts hc] at h
  have hentries : (c.list.map fun t => t.reread?.getD t).map (fun t => (t.name, t)) =
      (c.tables.mapValues fun t => t.reread?.getD t).entries := by
    rw [Catalog.list, OrderedMap.values, OrderedMap.mapValues, List.map_map, List.map_map]
    refine List.map_congr_left fun e he => ?_
    have hname := hc.name_eq ((hc.sorted.find?_eq_some trivial).2 he)
    simp [name_reread, hname]
  have htables : ∀ (ts : List Table) (c : Catalog), (ts.foldl .put c).tables =
      (ts.map fun t => (t.name, t)).foldl (fun m e => m.insert e.1 e.2) c.tables := by
    intro ts
    induction ts with
    | nil => exact fun _ => rfl
    | cons t ts ih => exact fun c => ih (c.put t)
  rw [readTables_eq h, htables, hentries]
  exact (hc.sorted.mapValues _).foldl_entries

/-- **What is loaded has the frame of what is held**, and its records are under their keys. -/
theorem Holds.load_sound {i j : Image} (h : k.Holds i) (hi : i.catalog.Filed) (hl : k.load = .ok (some j)) :
    i.SameFrame j ∧ j.WellFormed ∧ j.Each Container.Keyed := by
  obtain ⟨v, hv⟩ : ∃ v, k.version = some v := by
    refine Option.ne_none_iff_exists'.1 fun hn => ?_
    rw [load, hn] at hl
    cases hl
  obtain ⟨catalog, containers, hcat, hcs, rfl⟩ := (load_eq_some_iff hv).1 hl
  rw [h.tables] at hcat
  have htables := tables_readTables hi hcat
  have hsorted := sorted_readShelves sorted_empty hcs
  have hread := find?_readShelves sorted_empty h.files.shelves_sorted.nodup_keys hcs
  have hshelf : ∀ {name shelf}, (name, shelf) ∈ k.shelves.entries ↔ k.shelves.find? name = some shelf :=
    (h.files.shelves_sorted.find?_eq_some trivial).symm
  have hfound : ∀ {name d}, containers.find? name = some d → ∃ shelf, k.shelves.find? name = some shelf ∧
      k.readShelf name shelf = .ok d := by
    intro name d hd
    rcases hread name with ⟨-, hn⟩ | ⟨shelf, d', hmem, hd', hf⟩
    · rw [hd] at hn
      cases hn
    · rw [hd] at hf
      cases hf
      exact ⟨shelf, hshelf.1 hmem, hd'⟩
  refine ⟨⟨fun name => ?_, fun name => ?_⟩, ⟨⟨hsorted, fun {name d} hd => ?_⟩, ⟨?_, fun {name t} ht => ?_⟩⟩, ?_⟩
  · show _ = (catalog.tables.find? name).map Table.columnNames
    rw [htables, find?_mapValues, Option.map_map]
    exact congrArg (Option.map · _) (funext fun t => (columnNames_reread t).symm)
  · show _ = (containers.find? name).map Container.frame
    have hsame := h.files.same name
    rcases hread name with ⟨hnot, hn⟩ | ⟨shelf, d, hmem, hd, hf⟩
    · have hnone : i.containers.find? name = none := by
        cases hs : k.shelves.find? name with
        | some shelf => exact absurd (List.mem_map_of_mem (hshelf.2 hs)) hnot
        | none =>
          rw [hs] at hsame
          simpa using hsame.symm
      rw [hn, Image.find?, hnone]
      rfl
    · have hs := hshelf.1 hmem
      rw [hs] at hsame
      obtain ⟨c, hc⟩ := Option.isSome_iff_exists.1 hsame.symm
      rw [hf, Image.find?, hc, Option.map_some, Option.map_some, (readShelf_keyed hd).2.2,
        (h.files.keeps hs hc).shelf_eq, Container.frame]
  · obtain ⟨shelf, -, hd⟩ := hfound hd
    exact (readShelf_keyed hd).2.1
  · rw [htables]
    exact hi.sorted.mapValues _
  · change catalog.tables.find? name = some t at ht
    rw [htables, find?_mapValues] at ht
    obtain ⟨t', ht', rfl⟩ := Option.map_eq_some_iff.1 ht
    exact (name_reread t').trans (hi.name_eq ht')
  · intro d hd
    obtain ⟨name, -, hd⟩ := hsorted.mem_values.1 hd
    obtain ⟨shelf, -, hd⟩ := hfound hd
    exact (readShelf_keyed hd).1

end Keyspace

end TableStore
