import Mathlib.Data.List.Permutation
import TableStore.Proofs.Relocation

/-!
# Tables made of literal rows

- a table that is loaded has the records that it was loaded with, under their values in the first column
  (`Migration.of_run_load`);
- records of literal rows are scanned as those rows, in the order of their keys (`Container.Keyed.exists_parts`);
- so a table is shown as its rows are under the names of the first one (`Engine.ShowsRows`), or nothing has changed
  (`Engine.literal_rows_are_shown`).
-/

namespace TableStore

open Attempt

/-! ## Containers -/

/-- A new entry is put among the others. -/
theorem OrderedMap.perm_insertIn {κ α : Type} [Ord κ] {k : κ} (a : α) : ∀ {l : List (κ × α)}, findIn k l = none →
    (insertIn k a l).Perm ((k, a) :: l)
  | [], _ => .refl _
  | (k', a') :: l, h => by
    rw [findIn] at h
    rw [insertIn]
    cases hk : compare k k' with
    | lt => exact .refl _
    | eq =>
      rw [hk] at h
      cases h
    | gt =>
      rw [hk] at h
      exact ((perm_insertIn a h).cons _).trans (.swap _ _ _)

namespace Container

variable {c d : Container} {k : Key} {r : Record}

/-- A container without a generator takes a record as it is. -/
theorem perm_of_add (hc : c.autoIncrement = false) (h : c.add r = .ok (k, d)) :
    d.keyPath = c.keyPath ∧ d.autoIncrement = false ∧ d.scan.Perm (r :: c.scan) := by
  rw [add] at h
  split at h
  · cases h
  · rename_i k' r' hkeyed
    split at h <;> cases h
    rename_i hfree
    obtain rfl : r' = r := by
      rw [keyed, hc] at hkeyed
      split at hkeyed
      · cases hkeyed
      · split at hkeyed <;> cases hkeyed
        rfl
    refine ⟨rfl, hc, ?_⟩
    exact (OrderedMap.perm_insertIn r' (Option.not_isSome_iff_eq_none.1 hfree)).map Prod.snd

end Container

/-! ## Migrations -/

namespace Migration

open Upgrade

variable {i : Image} {table : Table} {records : List Record} {u v : Upgrade} {name : String} {c : Container}

/-- Records are added one after another to a container that was created. -/
theorem perm_of_addAll (hsorted : u.image.containers.Sorted fun _ => True) (hcreated : u.created.contains name) :
    ∀ {rs : List Record} {c : Container}, c.autoIncrement = false →
      addAll name rs { u with image := u.image.set name c } = (.ok ⟨⟩, v) →
      ∃ d, v = { u with image := u.image.set name d } ∧ d.keyPath = c.keyPath ∧ d.scan.Perm (rs ++ c.scan)
  | [], c, _, h => by
    cases h
    exact ⟨c, rfl, rfl, .refl _⟩
  | r :: rs, c, hc, h => by
    change (edit name _ >>= fun _ => addAll name rs) _ = _ at h
    rw [bind_apply, edit_created hsorted hcreated, Attempt.whole] at h
    cases hadd : c.add r with
    | error e =>
      rw [hadd] at h
      cases h
    | ok kd =>
      rw [hadd] at h
      obtain ⟨hpath, hauto, hperm⟩ := Container.perm_of_add hc hadd
      obtain ⟨d, hd, hpath', hperm'⟩ := perm_of_addAll hsorted hcreated hauto h
      exact ⟨d, hd, hpath'.trans hpath, (hperm'.trans (hperm.append_left rs)).trans List.perm_middle⟩

theorem of_newKeyPath {keyPath : String} (h : newKeyPath table u = .ok keyPath) :
    table.columnNames.head? = some keyPath ∧ u.image.Vacant table.name := by
  rw [newKeyPath, Table.keyColumn?] at h
  split at h
  · cases h
  · rename_i key hkey
    split at h <;> cases h
    rename_i hfree
    rw [Table.columnNames, List.head?_map, hkey]
    exact ⟨rfl, not_not.1 fun hv => hfree (Image.contains_iff_not_vacant.2 hv)⟩

/-- **A table that is loaded is defined, and holds the records under its first column.** -/
theorem of_run_load (hi : i.Sound) (h : (Migration.load table records).run (start i (i.version + 1)) = (.ok ⟨⟩, u)) :
    u.image.catalog.find? table.name = some table ∧ ∃ d, u.image.find? table.name = some d ∧
      table.columnNames.head? = some d.keyPath ∧ d.scan.Perm records := by
  have hsorted : (start i (i.version + 1)).image.containers.Sorted fun _ => True := hi.sorted
  rw [run, bind_apply, read_apply] at h
  cases hkey : newKeyPath table (start i (i.version + 1)) with
  | error e =>
    rw [hkey] at h
    cases h
  | ok keyPath =>
    obtain ⟨hhead, hvacant⟩ := of_newKeyPath hkey
    rw [hkey] at h
    dsimp only at h
    rw [bind_of_ok (create_of_none hvacant.2 _ _), bind_apply] at h
    cases hadd : addAll table.name records { start i (i.version + 1) with
        image := (start i (i.version + 1)).image.set table.name { name := table.name, keyPath, autoIncrement := false }
        created := (start i (i.version + 1)).created.insert table.name () } with
    | mk outcome v =>
      rw [hadd] at h
      cases outcome with
      | error e => cases h
      | ok _ =>
        obtain ⟨d, rfl, hpath, hperm⟩ := @perm_of_addAll { start i (i.version + 1) with
          created := (start i (i.version + 1)).created.insert table.name () } v table.name hsorted
            (OrderedMap.contains_insert_self _ _ _) records _ rfl hadd
        cases h
        refine ⟨Catalog.find?_put_self _ _, d, ?_, by rw [hhead, hpath], ?_⟩
        · exact (Image.find?_set hsorted _ _ _).trans (if_pos rfl)
        · exact hperm.trans (.of_eq (List.append_nil _))

end Migration

/-! ## Engines -/

/-- Records of literal rows are scanned as those rows, in the order of their keys. -/
theorem Container.Keyed.exists_parts {c : Container} (hc : c.Keyed) {names : List String}
    (hpath : names.head? = some c.keyPath) {rows : List (List Item)}
    (hscan : c.scan.Perm (rows.map fun items => .ofList (Statement.cellsOf names items))) :
    ∃ parts : List (List Item), parts.Perm rows ∧
      c.scan.map (Query.project names) = parts.map (Statement.shown names) ∧
      parts.map (Statement.key? names) = c.records.keys.map some := by
  obtain ⟨parts, hparts, hperm⟩ : Relation.Comp
      (· = List.map (fun items => Record.ofList (Statement.cellsOf names items)) ·) List.Perm c.scan rows := by
    rw [List.eq_map_comp_perm]
    exact hscan
  have hshown : c.scan.map (Query.project names) = parts.map (Statement.shown names) := by
    rw [hparts, List.map_map]
    exact List.map_congr_left fun items _ => Statement.project_ofList names items
  refine ⟨parts, hperm, hshown, ?_⟩
  calc parts.map (Statement.key? names)
      = (parts.map (Statement.shown names)).map fun row => row.head?.bind Key.ofValue? := by
        rw [List.map_map]
        rfl
    _ = c.scan.map fun r => Key.ofValue? (r.valueOf c.keyPath) := by
        rw [← hshown, List.map_map]
        refine List.map_congr_left fun r _ => ?_
        rw [Function.comp_apply, Query.project, List.head?_map, hpath]
        rfl
    _ = c.records.keys.map some := by
        rw [scan, OrderedMap.values, OrderedMap.keys, List.map_map, List.map_map]
        exact List.map_congr_left fun entry hentry => hc.key_eq hentry

namespace Engine

variable {e : Engine} {i : Image} {text name : String} {rows : List (List Item)} {table : Table} {records : List Record}

/-- A text that makes a table of literal rows loads it. -/
theorem serve_createAs (h : e.Shows i) (hparse : Statement.parse text = .ok (.createAs name rows))
    (hrows : Statement.literalTable name rows = .ok (table, records)) :
    ∃ answer, serve (.run text) e = ((migrate [.load table records] (serve .ready e).2.session).1.map fun _ => answer,
      { e with session := (migrate [.load table records] (serve .ready e).2.session).2 }) := by
  obtain ⟨b, hr⟩ := exists_of_shows h
  refine ⟨.resultSet { ResultSet.status ("Table " ++ Error.shown name ++ " created with " ++
    toString records.length ++ " rows.") with schemaChanged := true }, ?_⟩
  have hread : Attempt.read (fun _ => Statement.literalTable name rows) (serve .ready e).2.session =
      (.ok (table, records), (serve .ready e).2.session) := Prod.ext hrows rfl
  rw [serve_run, run_of_ready hr, hparse]
  dsimp only
  rw [execute, bind_apply, perform, bind_of_ok hread]
  dsimp only
  rw [bind_apply]
  cases migrate [.load table records] (serve .ready e).2.session with
  | mk outcome s => cases outcome <;> rfl

theorem serve_createAs_of_error (h : e.Shows i) (hparse : Statement.parse text = .ok (.createAs name rows))
    {error : Error} (hrows : Statement.literalTable name rows = .error error) :
    serve (.run text) e = (.error error, (serve .ready e).2) := by
  obtain ⟨b, hr⟩ := exists_of_shows h
  have hread : Attempt.read (fun _ => Statement.literalTable name rows) (serve .ready e).2.session =
      (.error error, (serve .ready e).2.session) := Prod.ext hrows rfl
  rw [serve_run, run_of_ready hr, hparse]
  dsimp only
  rw [execute, bind_apply, perform, bind_apply, hread]
  rfl

/-- A text that makes a table of literal rows loads it and is committed, or it leaves the image as it was. -/
theorem serve_createAs_settles (hw : i.WellFormed) (h : e.Shows i)
    (hparse : Statement.parse text = .ok (.createAs name rows)) :
    (∃ table records u answer, Statement.literalTable name rows = .ok (table, records) ∧
        (Migration.load table records).run (.start i (i.version + 1)) = (.ok ⟨⟩, u) ∧
        u.image.version = i.version + 1 ∧ (serve (.run text) e).1 = .ok answer ∧
        (serve (.run text) e).2.session.live = some u.image) ∨
      ∃ error, (serve (.run text) e).1 = .error error ∧ (serve (.run text) e).2.session.live = some i := by
  cases hrows : Statement.literalTable name rows with
  | error error =>
    rw [serve_createAs_of_error h hparse hrows]
    exact .inr ⟨error, rfl, h⟩
  | ok loaded =>
    obtain ⟨table, records⟩ := loaded
    obtain ⟨answer, hserve⟩ := serve_createAs h hparse hrows
    rw [hserve]
    rcases migrate_settles hw h [.load table records] with ⟨u, store, hr, hversion, hm⟩ | ⟨error, store, hm⟩
    · rw [Migration.runAll_singleton] at hr
      rw [hm]
      exact .inl ⟨table, records, u, answer, rfl, hr, hversion, rfl, rfl⟩
    · rw [hm]
      exact .inr ⟨error, rfl, rfl⟩

/-- What a session shows of a table that was made of literal rows, in the order in which it shows them. -/
structure ShowsRows (s : Session) (table : String) (rows : List (List Item)) (names : List String)
    (parts : List (List Item)) : Prop where
  /-- The first row has a name for each of its items. -/
  names_eq : (rows.head?.map fun first => first.map Item.name) = some (names.map some)
  /-- All rows are as long as the first one. -/
  length_eq : ∀ items ∈ rows, items.length = names.length
  /-- Every row is shown once. -/
  perm : parts.Perm rows
  /-- The rows are in the order of their keys, and no key comes twice. -/
  ascending : ∃ keys : List Key, parts.map (Statement.key? names) = keys.map some ∧
    keys.Pairwise fun k l => compare k l = .lt
  /-- A selection of everything shows the rows under the names. -/
  selected : ∀ m, execute m (.select .all table none) s =
    (.ok { columns := names, rows := parts.map (Statement.shown names) }, s)
  /-- If no name comes again, every row is shown with all its values. -/
  whole : names.Nodup → ∀ items ∈ rows, Statement.shown names items = items.map Item.value
  /-- In any case a row is shown with all its values exactly if its values under the same name are the same. -/
  whole_iff : ∀ items ∈ rows, Statement.shown names items = items.map Item.value ↔ Statement.Unambiguous names items

/-- A table is shown as the literal rows that it was made of. -/
theorem showsRows_of_load {s : Session} {u : Upgrade} (hi : i.Sound)
    (hrows : Statement.literalTable name rows = .ok (table, records))
    (hr : (Migration.load table records).run (.start i (i.version + 1)) = (.ok ⟨⟩, u))
    (hlive : s.live = some u.image) (hk : u.image.Each Container.Keyed) :
    ∃ names parts, ShowsRows s name rows names parts := by
  obtain ⟨rfl, hnames, hlengths, rfl⟩ := Statement.of_literalTable hrows
  obtain ⟨htable, c, hc, hpath, hscan⟩ := Migration.of_run_load hi hr
  obtain ⟨parts, hperm, hshown, hkeys⟩ := (hk.of_find? hc).exists_parts hpath hscan
  refine ⟨table.columnNames, parts, hnames, hlengths, hperm,
    ⟨c.records.keys, hkeys, (hk.of_find? hc).ordered.ascending⟩, fun m => ?_,
    fun hn items hitems => Statement.shown_of_nodup (hlengths items hitems) hn,
    fun items hitems => Statement.shown_eq_iff (hlengths items hitems)⟩
  rw [execute_selection hlive, ← hshown]
  unfold Query.select
  rw [hc, Query.columnsOf, htable]
  rfl

/-- **Literal rows are shown by the names of the first row.** On every image that requests over a new store lead to, a
text that makes a table of literal rows makes a table at the next version that is shown as these rows, each once and in
the order of their keys; or it fails and leaves the image as it was. A row is shown with all its values if no name
comes again; of the values under one name the last is shown. -/
theorem literal_rows_are_shown (he : e.IsNew) (rs : List Request) (hi : (after rs e).Shows i) (text : String) :
    let before := (serve .ready (after rs e)).2
    let result := serve (.run text) (after rs e)
    (∀ name rows, Statement.parse text = .ok (.createAs name rows) →
      (∀ answer, result.1 = .ok answer → ∃ j names parts, result.2.session.live = some j ∧
        j.version = i.version + 1 ∧ ShowsRows result.2.session name rows names parts) ∧
      ∀ error, result.1 = .error error → result.2.session.live = some i) ∧
    ∀ error, Statement.parse text = .error error → result = (.error error, before) := by
  intro before result
  obtain ⟨hw, -, -⟩ := he.of_shows hi
  refine ⟨fun name rows hparse => ?_, fun error hparse => ?_⟩
  · rcases serve_createAs_settles hw hi hparse with
      ⟨table, records, u, answer, hrows, hr, hversion, hok, hlive⟩ | ⟨error, herror, hlive⟩
    · have hafter : (after (rs ++ [.run text]) e).session.live = some u.image := by
        rw [after, List.foldl_concat]
        exact hlive
      obtain ⟨names, parts, hshows⟩ := showsRows_of_load hw.sound hrows hr hlive (he.keyed_of_live hafter).2
      exact ⟨fun _ _ => ⟨u.image, names, parts, hlive, hversion, hshows⟩, fun _ h => (by cases hok.symm.trans h)⟩
    · exact ⟨fun _ h => (by cases herror.symm.trans h), fun _ _ => hlive⟩
  · obtain ⟨b, hr⟩ := exists_of_shows hi
    change serve (.run text) (after rs e) = _
    rw [serve_run, run_of_ready hr, hparse]
    rfl

/-- Two literal rows, the second with two values under one name. -/
def repeatedName : String := "CREATE TABLE t AS SELECT 2 AS a, 'x' AS b, 'x' AS b UNION ALL SELECT 1, 'y', 'z'"

theorem value_under_repeated_name_is_lost :
    let result := serve (.run repeatedName) (after [.openStore] (inMemory {} []))
    (execute .key (.select .all "t" none) result.2.session).1 =
      .ok ⟨["a", "b", "b"], [[.integer 1, .text "z", .text "z"], [.integer 2, .text "x", .text "x"]], false⟩ := by
  intro result
  let first : List Item := [⟨"2", .integer 2, some "a"⟩, ⟨"'x'", .text "x", some "b"⟩, ⟨"'x'", .text "x", some "b"⟩]
  let second : List Item := [⟨"1", .integer 1, none⟩, ⟨"'y'", .text "y", none⟩, ⟨"'z'", .text "z", none⟩]
  have hparse : Statement.parse repeatedName = .ok (.createAs "t" [first, second]) :=
    Except.eq_ok_of_toOption (by decide +kernel)
  have hi : (after [.openStore] (inMemory {} [])).Shows { version := 1 } := by rw [Shows]; decide +kernel
  have hok : (serve (.run repeatedName) (after [.openStore] (inMemory {} []))).1.toOption.isSome := by decide +kernel
  obtain ⟨answer, hok⟩ := Option.isSome_iff_exists.1 hok
  obtain ⟨j, names, parts, -, -, hnames, -, hperm, ⟨keys, hkeys, hascending⟩, hselect, -, -⟩ :=
    ((literal_rows_are_shown (isNew_inMemory {} []) [.openStore] hi repeatedName).1 _ _ hparse).1 answer
      (Except.eq_ok_of_toOption hok)
  have hinjective := List.map_injective_iff.2 (Option.some_injective String)
  obtain rfl : ["a", "b", "b"] = names := hinjective (Option.some.inj hnames)
  rw [hselect]
  rcases List.mem_pair.1 (List.mem_permutations'.2 hperm) with rfl | rfl
  · -- the greater key does not come first
    obtain rfl : [.integer 2, .integer 1] = keys :=
      List.map_injective_iff.2 (Option.some_injective Key) (Eq.trans (by decide +kernel) hkeys)
    exact absurd hascending (by decide +kernel)
  · exact congrArg Except.ok (by decide +kernel)

end Engine

end TableStore
