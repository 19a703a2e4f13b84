import TableStore.Proofs.RecordKeys
import Mathlib.Data.List.Infix

/-!
# Keyspaces that give the image back as it was

- an image is `Legible` when its reals are finite and JSON reads the text of each as the same real, and the text of
  each column type describes that type;
- a keyspace that holds a legible image is loaded as this image, with its version, its catalog and all of its
  containers, down to the order of the columns in the records (`Keyspace.Holds.load_exact`);
- so a run of requests over a keyspace through legible images can be stopped anywhere: a new engine opens exactly the
  image that was live (`Engine.reopened_image_is_exact`).
-/

namespace TableStore

/-! ## Legible images -/

/-- The real that a value is, if it is one. -/
def Value.reals : Value → List Binary64
  | .real x => [x]
  | _ => []

/-- The reals in a record. -/
def Record.reals (r : Record) : List Binary64 := r.cells.flatMap fun c => c.2.reals

/-- All reals that are stored in an image. -/
def Image.reals (i : Image) : List Binary64 := i.containers.values.flatMap fun c => c.scan.flatMap Record.reals

/-- The reals are finite and come back from their JSON texts, the column types from theirs. -/
structure Image.Legible (i : Image) : Prop where
  finite : ∀ x ∈ i.reals, x.isFinite
  reread : ∀ x ∈ i.reals, Json.rereadReal? x = some (.real x)
  types : ∀ t ∈ i.catalog.list, ∀ c ∈ t.columns, c.type.reread? = some c.type

instance (i : Image) : Decidable i.Legible :=
  decidable_of_iff ((∀ x ∈ i.reals, x.isFinite) ∧ (∀ x ∈ i.reals, Json.rereadReal? x = some (.real x)) ∧
      ∀ t ∈ i.catalog.list, ∀ c ∈ t.columns, c.type.reread? = some c.type)
    ⟨fun h => ⟨h.1, h.2.1, h.2.2⟩, fun h => ⟨h.finite, h.reread, h.types⟩⟩

namespace Record

variable {r : Record}

theorem setIn_of_notMem {name : String} {v : Value} :
    ∀ {cells : List (String × Value)}, name ∉ cells.map Prod.fst → setIn name v cells = cells ++ [(name, v)]
  | [], _ => rfl
  | (n, w) :: rest, h => by
    rw [List.map_cons, List.mem_cons, not_or] at h
    rw [setIn, if_neg fun hn => h.1 hn.symm, setIn_of_notMem h.2]
    rfl

/-- Cells that come back are set one after another. -/
theorem foldlM_reread {cells : List (String × Value)} (hc : ∀ c ∈ cells, c.2.reread? = some c.2) (s : Record)
    (hs : ((s.cells ++ cells).map Prod.fst).Nodup) :
    ∃ t : Record, cells.foldlM (fun s c => c.2.reread?.map fun v => s.set c.1 v) s = some t ∧
      t.cells = s.cells ++ cells := by
  induction cells generalizing s with
  | nil => exact ⟨s, rfl, (List.append_nil _).symm⟩
  | cons c cells ih =>
    obtain ⟨hc, hcs⟩ := List.forall_mem_cons.1 hc
    have hnew : c.1 ∉ s.cells.map Prod.fst := by
      rw [List.map_append, List.map_cons] at hs
      exact fun hmem => (List.nodup_append.1 hs).2.2 _ hmem _ List.mem_cons_self rfl
    have hset : (s.set c.1 c.2).cells = s.cells ++ [c] := setIn_of_notMem hnew
    obtain ⟨t, ht, hcells⟩ := ih hcs (s.set c.1 c.2) (by rwa [hset, List.append_assoc, List.singleton_append])
    refine ⟨t, ?_, by rw [hcells, hset, List.append_assoc, List.singleton_append]⟩
    rw [List.foldlM_cons, hc]
    exact ht

/-- A record whose values come back comes back, with its columns in the same order. -/
theorem reread?_eq (hr : ∀ c ∈ r.cells, c.2.reread? = some c.2) : r.reread? = some r := by
  obtain ⟨⟨cells, hd⟩, ht, hcells⟩ := foldlM_reread hr .empty (by simpa [empty] using r.distinct)
  obtain ⟨cells', hd'⟩ := r
  obtain rfl : cells = cells' := hcells
  exact ht

end Record

/-- Every type of a table definition is shown in a text that is read as it. -/
def Table.Settled (t : Table) : Prop := ∀ c ∈ t.columns, c.type.reread? = some c.type

/-- Every definition of a catalog is settled. -/
def Catalog.Settled (c : Catalog) : Prop := ∀ t ∈ c.list, t.Settled

/-- A table definition comes back if the types of its columns do. -/
theorem Table.reread?_eq {t : Table} (ht : t.Settled) : t.reread? = some t := by
  have hcolumns : ∀ cs : List Column, (∀ c ∈ cs, c.type.reread? = some c.type) → cs.mapM Column.reread? = some cs := by
    intro cs h
    induction cs with
    | nil => rfl
    | cons c cs ih =>
      obtain ⟨hc, hcs⟩ := List.forall_mem_cons.1 h
      rw [List.mapM_cons, Column.reread?, hc, ih hcs]
      rfl
  rw [Table.reread?, hcolumns t.columns ht]
  rfl

namespace Image.Legible

variable {i : Image} {name : String} {c : Container} {k : Key} {r : Record}

theorem mem_reals (hc : i.find? name = some c) (hr : r ∈ c.scan) {n : String} {x : Binary64}
    (hx : (n, .real x) ∈ r.cells) : x ∈ i.reals :=
  List.mem_flatMap.2 ⟨c, OrderedMap.mem_values_of_find? hc, List.mem_flatMap.2 ⟨r, hr,
    List.mem_flatMap.2 ⟨_, hx, List.mem_singleton_self x⟩⟩⟩

/-- Every record comes back. -/
theorem record_reread (h : i.Legible) (hc : i.find? name = some c) (hr : r ∈ c.scan) : r.reread? = some r := by
  refine Record.reread?_eq fun ⟨n, v⟩ hcell => ?_
  cases v with
  | real x =>
    have hx := mem_reals hc hr hcell
    rw [Value.reread?, if_pos (h.finite x hx)]
    exact h.reread x hx
  | _ => rfl

/-- The text of every key tells it. -/
theorem written (h : i.Legible) (hc : i.find? name = some c) (hk : c.Keyed) (he : (k, r) ∈ c.records.entries) :
    k.Written := by
  obtain ⟨v, hv, -, hkey⟩ := hk.arranged.key_eq k r he
  cases k with
  | real x =>
    -- only the real itself has it as its key
    obtain rfl : v = .real x := by
      unfold Key.ofValue? at hkey
      split at hkey
      · cases hkey
      · split at hkey
        · cases hkey
        · split at hkey <;> cases hkey
          rfl
      all_goals cases hkey
    exact h.finite x (mem_reals hc (List.mem_map_of_mem he) (Record.mem_of_find? hv))
  | _ => trivial

end Image.Legible

/-! ## Loading -/

namespace Keyspace

open OrderedMap

variable {k : Keyspace} {shelf : Shelf} {c : Container} {name : String}

/-- Records that come back are put under their keys. -/
theorem readRecords_eq {es : List (Key × Record)} : ∀ {c : Container}, (∀ e ∈ es, e.2.reread? = some e.2) →
    (∀ e ∈ es, c.keyed e.2 = .ok e) → readRecords c (es.map fun e => writeRecord e.2) =
      .ok { c with records := es.foldl (fun m e => m.insert e.1 e.2) c.records } := by
  induction es with
  | nil => exact fun _ _ => rfl
  | cons e es ih =>
    intro c hr hk
    obtain ⟨hre, hr⟩ := List.forall_mem_cons.1 hr
    obtain ⟨hke, hk⟩ := List.forall_mem_cons.1 hk
    have hread : Json.readRecord? (writeRecord e.2).toList = some e.2 := by
      rw [writeRecord, String.toList_ofList, Json.readRecord?_writeRecord, hre]
    rw [List.map_cons, readRecords, hread]
    simp only [Container.restore, hke, bind, Except.bind]
    exact ih hr hk

/-- The texts of records with keys that are told by their texts are the texts of all of them. -/
theorem Kept.exists_all {texts : OrderedMap String String} {records : OrderedMap Key Record}
    (h : Kept texts records) (hr : records.Sorted Key.Proper) (hw : ∀ e ∈ records.entries, e.1.Written) :
    ∃ es : List (Key × Record), texts.values = es.map (fun e => writeRecord e.2) ∧ (∀ e, e ∈ es ↔ e ∈ records.entries) ∧
      (es.map Prod.fst).Nodup := by
  obtain ⟨es, hes, hsub⟩ := h.exists_entries
  have hvalues : texts.values = es.map fun e => writeRecord e.2 := by
    rw [OrderedMap.values, hes, List.map_map]
    rfl
  have hnodup : ((es.map Prod.fst).map keyText).Nodup := by
    have := h.sorted.nodup_keys
    rw [OrderedMap.keys, hes, List.map_map] at this
    rwa [List.map_map]
  refine ⟨es, hvalues, fun e => ⟨fun he => hsub.subset he, fun he => ?_⟩, .of_map _ hnodup⟩
  have hfound := h.found (hr.2 e he) (hw e he)
  rw [(hr.find?_eq_some (hr.2 e he)).2 he, Option.map_some, h.sorted.find?_eq_some trivial, hes] at hfound
  obtain ⟨f, hf, heq⟩ := List.mem_map.1 hfound
  have hkey : f.1 = e.1 := keyText_inj (hw e he) (Prod.mk.inj heq).1
  have hrecord := (hr.find?_eq_some (hr.2 e he)).2 he
  rw [← hkey, (hr.find?_eq_some (hr.2 f (hsub.subset hf))).2 (hsub.subset hf)] at hrecord
  obtain rfl : f = e := Prod.ext hkey (Option.some.inj hrecord)
  exact hf

/-- **A container comes back as it was.** -/
theorem Keeps.readShelf_eq (h : k.Keeps shelf c) (hc : c.Settled name) (hk : c.Keyed)
    (hr : ∀ r ∈ c.scan, r.reread? = some r) (hw : ∀ e ∈ c.records.entries, e.1.Written) :
    k.readShelf name shelf = .ok c := by
  obtain ⟨es, hvalues, hmem, hnodup⟩ := h.kept.exists_all hk.ordered hw
  have hempty : (Container.mk name shelf.keyPath shelf.autoIncrement shelf.nextKey .empty none) =
      { c with records := .empty } := by
    rw [h.shelf_eq, ← hc.name_eq, ← hc.closed]
  have hrecords : es.foldl (fun m e => m.insert e.1 e.2) .empty = c.records := by
    have hproper : ∀ e ∈ es, e.1.Proper := fun e he => hk.ordered.2 e ((hmem e).1 he)
    refine (sorted_empty.foldl_insert hproper).ext hk.ordered fun l hl => ?_
    cases hf : c.records.find? l with
    | some r =>
      exact sorted_empty.find?_foldl_insert_of_mem hproper hnodup ((hmem _).2 ((hk.ordered.find?_eq_some hl).1 hf))
    | none =>
      rw [sorted_empty.find?_foldl_insert_of_notMem hproper hl fun hin => ?_, find?_empty]
      obtain ⟨e, he, rfl⟩ := List.mem_map.1 hin
      rw [(hk.ordered.find?_eq_some hl).2 ((hmem e).1 he)] at hf
      cases hf
  have hread := readRecords_eq (c := { c with records := .empty })
    (fun e he => hr e.2 (List.mem_map_of_mem ((hmem e).1 he)))
    fun e he => Container.keyed_of_ofValue? (hk.key_eq ((hmem e).1 he))
  rw [readShelf, hvalues, hempty, hread, hrecords]

/-- A settled catalog is read back from its texts. -/
theorem readTables_tableTexts {c : Catalog} (hf : c.Filed) (hc : c.Settled) :
    readTables {} (tableTexts c).values = .ok c := by
  obtain ⟨d, hd⟩ : ∃ d, readTables {} (tableTexts c).values = .ok d := by
    rw [values_tableTexts hf]
    exact readTables_ok_iff.2 fun t ht col hcol => Option.isSome_iff_exists.2 ⟨_, hc t ht col hcol⟩
  have hsame : c.tables.mapValues (fun t => t.reread?.getD t) = c.tables := by
    refine (hf.sorted.mapValues _).ext hf.sorted fun name _ => ?_
    rw [find?_mapValues]
    cases ht : c.tables.find? name with
    | none => rfl
    | some t => rw [Option.map_some, Table.reread?_eq (hc t (mem_values_of_find? ht)), Option.getD_some]
  rw [hd]
  obtain ⟨tables⟩ := d
  exact congrArg (fun tables => Except.ok (Catalog.mk tables)) ((tables_readTables hf hd).trans hsame)

/-- **A keyspace that holds a legible image is loaded as this image.** -/
theorem Holds.load_exact {i : Image} (h : k.Holds i) (hv : k.version = some i.version) (hi : i.WellFormed)
    (hk : i.Each Container.Keyed) (hl : i.Legible) : k.load = .ok (some i) := by
  have hcatalog : readTables {} k.tables.values = .ok i.catalog := h.tables ▸ readTables_tableTexts hi.filed hl.types
  have hshelf : ∀ {name shelf}, (name, shelf) ∈ k.shelves.entries ↔ k.shelves.find? name = some shelf :=
    (h.files.shelves_sorted.find?_eq_some trivial).symm
  have hread : ∀ {name shelf}, k.shelves.find? name = some shelf →
      ∃ c, i.containers.find? name = some c ∧ k.readShelf name shelf = .ok c := by
    intro name shelf hs
    have hsame := h.files.same name
    rw [hs] at hsame
    obtain ⟨c, hc⟩ := Option.isSome_iff_exists.1 hsame.symm
    have hkeyed := hk.of_find? hc
    refine ⟨c, hc, (h.files.keeps hs hc).readShelf_eq (hi.sound.settled hc) hkeyed (fun r hr => hl.record_reread hc hr)
      fun e he => hl.written hc hkeyed he⟩
  obtain ⟨containers, hcs⟩ : ∃ ds, k.readShelves .empty k.shelves.entries = .ok ds :=
    readShelves_ok_iff.2 fun e he => by
      obtain ⟨c, -, hc⟩ := hread (hshelf.1 he)
      exact ⟨c, hc⟩
  have hcontainers : containers = i.containers := by
    refine (sorted_readShelves sorted_empty hcs).ext hi.sound.sorted fun name _ => ?_
    rcases find?_readShelves sorted_empty h.files.shelves_sorted.nodup_keys hcs name with
      ⟨hnot, hn⟩ | ⟨shelf, d, hmem, hd, hf⟩
    · rw [hn]
      cases hc : i.containers.find? name with
      | none => rfl
      | some c =>
        have hsame := h.files.same name
        rw [hc] at hsame
        obtain ⟨shelf, hs⟩ := Option.isSome_iff_exists.1 hsame
        exact absurd (List.mem_map_of_mem (hshelf.2 hs)) hnot
    · obtain ⟨c, hc, hd'⟩ := hread (hshelf.1 hmem)
      rw [hd] at hd'
      cases hd'
      rw [hf, hc]
  exact (load_eq_some_iff hv).2 ⟨i.catalog, containers, hcatalog, hcs, by rw [hcontainers]⟩

end Keyspace

/-! ## Sessions -/

/-- What a keyspace holds of a legible image is loaded as that image. -/
theorem Medium.Archives.load_eq {m : Medium} {i : Image} (h : m.Archives i) (hq : i.Each Container.Keyed)
    (hi : i.Legible) : m.load = .ok (some i) := by
  obtain ⟨k, rfl, hv, hk, hw⟩ := h
  exact hk.load_exact hv hw hq hi

/-- A session over a keyspace that holds its image exactly; while the session is closed, the image is legible. -/
abbrev Mirrored : Session → Prop := Archived (Image.Each Container.Keyed) Image.Legible

namespace Mirrored

/-- What units do to a session over a keyspace keeps its image in the keyspace. -/
theorem passage : Session.Passage (Image.Each Container.Keyed)
    (fun i j => i.Each Container.Keyed → j.Each Container.Keyed) (fun _ => Mirrored) fun _ => Mirrored :=
  Archived.passage (.empty 1 {}) Container.steady_keyed.makes_fill (fun _ => id) (fun _ _ hq hd => hd hq)
    fun h hq hi => h.load_eq hq hi

end Mirrored

namespace Engine

/-- A request keeps the image in the keyspace; where the engine is started again, the live image must be legible. -/
theorem mirrored_serve {e : Engine} (he : Mirrored e.session) (hi : ∀ i, e.session.live = some i → i.Legible)
    (r : Request) : Mirrored (serve r e).2.session := by
  by_cases hr : ∃ settings, r = .restart settings
  · obtain ⟨settings, rfl⟩ := hr
    exact he.restart hi
  · have hmeets := meets_serve_of_leads (n := 0) Mirrored.passage (fun _ => Session.Over.of_medium)
      (fun settings hs => absurd ⟨settings, hs⟩ hr) (Container.steady_keyed.leads r)
    exact Attempt.Meets.keeps hmeets he

/-- A run through legible images keeps the image in the keyspace. -/
theorem mirrored_after : ∀ {rs : List Request} {e : Engine}, Mirrored e.session →
    (∀ p, p <+: rs → ∀ i, (after p e).session.live = some i → i.Legible) → Mirrored (after rs e).session
  | [], _, he, _ => he
  | r :: rs, e, he, hi => by
    have hstep := mirrored_serve he (hi [] (List.nil_prefix)) r
    have hrest : ∀ p, p <+: rs → ∀ i, (after p (serve r e).2).session.live = some i → i.Legible := fun p hp =>
      hi (r :: p) ((List.cons_prefix_cons).2 ⟨rfl, hp⟩)
    show Mirrored (after rs (serve r e).2).session
    exact mirrored_after hstep hrest

/-- **A keyspace is reopened exactly as it was left.** After every run of requests over a new keyspace, restarts among
them and whichever commits fail, if no image on the way had a stored real that is infinite, not a number or read by JSON
as another one, or a column type that its own text does not describe, then the store loads the live image, and so a new
session opens it: the same version, the same catalog and the same containers with the same records. -/
theorem reopened_image_is_exact (settings : Settings) (fates : List Bool) (rs : List Request)
    (hlegible : ∀ p, p <+: rs → ∀ i, (after p (overKeyspace settings fates)).session.live = some i → i.Legible)
    {i : Image} (hi : (after rs (overKeyspace settings fates)).session.live = some i) :
    (after rs (overKeyspace settings fates)).session.store.load = .ok (some i) ∧
      ∀ init, Session.openWith init (after rs (overKeyspace settings fates)).session.restart =
        (.ok .opened, ⟨(after rs (overKeyspace settings fates)).session.store, some i⟩) := by
  have h := mirrored_after (Archived.new_overKeyspace settings fates) hlegible
  have hleg := hlegible rs (List.prefix_refl rs) i hi
  cases hs : (after rs (overKeyspace settings fates)).session with
  | mk store live =>
    rw [hs] at h hi
    obtain rfl : live = some i := hi
    have hload : store.load = .ok (some i) := h.of_live.1.load_eq h.of_live.2 hleg
    refine ⟨hload, fun init => ?_⟩
    simp only [Session.openWith, Session.restart, hload]

/-- Records with integers, an integral real and another real as keys, a renaming, a statement that fails, and a
restart before the last deletion. -/
def reopenings : List Request :=
  [.run "CREATE TABLE t (id INTEGER, x VARCHAR(9))", .run "INSERT INTO t (x) VALUES ('a'), ('b')",
    .run "INSERT INTO t (x, id) VALUES ('c', 7.0), ('d', -2.5)", .run "INSERT INTO t (id) VALUES (7)",
    .rename "t" "u", .restart { seeded := false }, .run "DELETE FROM u WHERE id = 2"]

theorem reopened_after_restart : ∃ i, (after reopenings (overKeyspace { seeded := false } [])).session.live = some i ∧
    (i.find? "u").map (fun c => (c.records.keys, c.nextKey)) =
      some ([.real ⟨0xC004000000000000⟩, .integer 1, .integer 7], 8) ∧
    (after reopenings (overKeyspace { seeded := false } [])).session.store.load = .ok (some i) := by
  have hlive : ((after reopenings (overKeyspace { seeded := false } [])).session.live.bind fun i =>
      (i.find? "u").map fun c => (c.records.keys, c.nextKey)) =
        some ([.real ⟨0xC004000000000000⟩, .integer 1, .integer 7], 8) := by decide +kernel
  have hlegible : ∀ p ∈ reopenings.inits, ∀ i, (after p (overKeyspace { seeded := false } [])).session.live = some i →
      i.Legible := by
    have hall : ∀ p ∈ reopenings.inits,
        (after p (overKeyspace { seeded := false } [])).session.live.all (fun i => decide i.Legible) = true := by
      decide +kernel
    intro p hp i hi
    have := hall p hp
    rw [hi] at this
    exact of_decide_eq_true this
  obtain ⟨i, hi, hc⟩ := Option.bind_eq_some_iff.1 hlive
  exact ⟨i, hi, hc, (reopened_image_is_exact _ _ _ (fun p hp => hlegible p ((List.mem_inits p reopenings).2 hp)) hi).1⟩

end Engine

end TableStore
