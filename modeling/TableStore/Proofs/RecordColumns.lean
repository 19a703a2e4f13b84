import TableStore.Proofs.Deletion
import TableStore.Proofs.Insertion
import TableStore.Proofs.LiteralRows

/-!
# The columns of records

- a record has the columns that its insertion names, and the key column (`Container.mem_names_of_keyed`); nothing
  compares them with the columns of the table in the catalog;
- an image is `Within` some columns when the records of each table have, beside the columns of the catalog and the key
  column, only those;
- a migration leaves the records of a table as they are, under the name that the table has then, or makes a new table
  whose records have its columns only (`Migration.origin`), and only an insertion that names columns brings others
  (`Query.passes_insert`).
-/

namespace TableStore

open Attempt

/-! ## Records -/

namespace Record

variable {r : Record} {x name : String} {v : Value}

theorem mem_names_set : x ∈ (r.set name v).names ↔ x ∈ r.names ∨ x = name := by
  rw [names, set, map_fst_setIn]
  split
  · rename_i hname
    refine ⟨.inl, ?_⟩
    rintro (hx | rfl)
    · exact hx
    · exact hname
  · rw [List.mem_append, List.mem_singleton]
    rfl

theorem mem_names_setFirst : x ∈ (r.setFirst name v).names ↔ x ∈ r.names ∨ x = name := by
  by_cases hx : x = name
  · simp [names, setFirst, hx]
  · simp [names, setFirst, dropIn, hx]

theorem mem_names_ofList {cells : List (String × Value)} : x ∈ (ofList cells).names ↔ x ∈ cells.map Prod.fst := by
  have hfold : ∀ r : Record, x ∈ (cells.foldl (fun r c => r.set c.1 c.2) r).names ↔
      x ∈ r.names ∨ x ∈ cells.map Prod.fst := by
    induction cells with
    | nil => simp
    | cons c cells ih =>
      intro r
      rw [List.foldl_cons, ih, mem_names_set, List.map_cons, List.mem_cons, or_assoc]
  exact (hfold empty).trans (or_iff_right List.not_mem_nil)

/-- A record with a key in a column has that column. -/
theorem mem_names_of_ofValue? {k : Key} (h : Key.ofValue? (r.valueOf name) = some k) : name ∈ r.names := by
  rw [valueOf] at h
  cases hfind : r.find? name with
  | none =>
    rw [hfind] at h
    cases h
  | some v => exact List.mem_map_of_mem (mem_of_find? hfind)

end Record

/-! ## Containers -/

namespace Container

variable {X Y : Set String} {c d : Container} {r r' : Record} {k : Key} {x : String}

/-- A record that is stored has its columns and the key column. -/
theorem mem_names_of_keyed (h : c.keyed r = .ok (k, r')) : x ∈ r'.names ↔ x ∈ r.names ∨ x = c.keyPath := by
  have hkey := Record.mem_names_of_ofValue? (ofValue?_of_keyed h)
  rcases of_keyed h with rfl | ⟨n, rfl⟩
  · refine ⟨.inl, ?_⟩
    rintro (hx | rfl)
    · exact hx
    · exact hkey
  · exact Record.mem_names_setFirst

/-- The records of a container have no columns but those of a set and the key column. -/
def Confined (X : Set String) (c : Container) : Prop := ∀ r ∈ c.scan, ∀ x ∈ r.names, x ∈ X ∨ x = c.keyPath

theorem Confined.mono (h : c.Confined X) (hXY : X ⊆ Y) : c.Confined Y := fun r hr x hx =>
  (h r hr x hx).imp_left fun hX => hXY hX

/-- Fewer records with the same key column. -/
theorem Confined.of_scan (h : c.Confined X) (hp : d.keyPath = c.keyPath) (hs : ∀ r ∈ d.scan, r ∈ c.scan) :
    d.Confined X := fun r hr x hx => by
  rw [hp]
  exact h r (hs r hr) x hx

theorem hereditary_confined (X : Set String) : Hereditary (Confined X) :=
  hereditary_of_records (p := fun keyPath r => ∀ x ∈ r.names, x ∈ X ∨ x = keyPath)

theorem admits_confined (hr : ∀ x ∈ r.names, x ∈ X) : Admits (Confined X) r :=
  admits_of_record (p := fun keyPath r => ∀ x ∈ r.names, x ∈ X ∨ x = keyPath) (fun _ x hx => .inl (hr x hx))
    fun _ _ x hx => (Record.mem_names_setFirst.1 hx).imp_left (hr x)

end Container

/-! ## Images -/

namespace Image

variable {S S' : String → Set String} {i j : Image} {table : String} {c d : Container}

/-- The columns that records of a table may have: those of the catalog, and some others. -/
def bound (S : String → Set String) (i : Image) (table : String) : Set String :=
  {x | x ∈ Query.columnsOf i table} ∪ S table

/-- The records of all tables have no columns but those of the catalog, some others and the key column. -/
def Within (S : String → Set String) (i : Image) : Prop := ∀ name c, i.find? name = some c → c.Confined (i.bound S name)

/-- An image is made within some columns of one that is within some others, and the tables that stay may have all
columns that they could have before. -/
structure Passes (S S' : String → Set String) (i j : Image) : Prop where
  within : i.Within S → j.Within S'
  grows : ∀ name c d, i.find? name = some c → j.find? name = some d → i.bound S name ⊆ j.bound S' name

theorem within_empty (S : String → Set String) (version : Nat) : Within S { version } := fun _ _ h => by cases h

theorem bound_mono (i : Image) (hS : ∀ name, S name ⊆ S' name) (table : String) : i.bound S table ⊆ i.bound S' table :=
  Set.union_subset_union_right _ (hS table)

theorem Within.mono (h : i.Within S) (hS : ∀ name, S name ⊆ S' name) : i.Within S' := fun name c hc =>
  (h name c hc).mono (i.bound_mono hS name)

/-- Records of one table are changed. -/
theorem passes_set (hi : i.Sound) (hS : ∀ name, S name ⊆ S' name)
    (hd : i.Within S → d.Confined (i.bound S' table)) : Passes S S' i (i.set table d) where
  within h name e he := by
    rw [find?_set hi.sorted] at he
    split at he
    · rename_i hname
      cases he
      rw [hname]
      exact hd h
    · exact (h.mono hS) name e he
  grows name _ _ _ _ := i.bound_mono hS name

end Image

/-! ## Insertions and deletions -/

namespace Query

variable {S S' : String → Set String} {i j : Image} {table : String} {n : Nat}

/-- **An insertion stays within the columns that it names.** -/
theorem passes_insert {columns : Option (List String)} {rows : List (List Value)} (hi : i.Sound)
    (hr : insert table columns rows i = (.ok n, j)) (hS : ∀ name, S name ⊆ S' name)
    (hcolumns : rows ≠ [] → ∀ x ∈ columns.getD (columnsOf i table), x ∈ i.bound S' table) :
    Image.Passes S S' i (Transaction.finished j) := by
  cases hc : i.find? table with
  | none =>
    rw [insert_of_none hc] at hr
    cases hr
  | some c =>
    rw [insert_eq hc] at hr
    obtain rfl := (Prod.mk.inj hr).2
    rw [hi.finished_set]
    refine Image.passes_set hi hS fun hwithin => ?_
    have hQ := Container.hereditary_confined (i.bound S' table)
    have hrows : ∀ row ∈ rows, Container.Admits (Container.Confined (i.bound S' table))
        (.ofList ((columns.getD (columnsOf i table)).zip row)) := fun row hrow => by
      refine Container.admits_confined fun x hx => hcolumns (List.ne_nil_of_mem hrow) x ?_
      obtain ⟨cell, hcell, rfl⟩ := List.mem_map.1 (Record.mem_names_ofList.1 hx)
      exact (List.of_mem_zip hcell).1
    exact hQ.commit (Container.Hereditary.keeps_addRows hrows c.begin (hQ.begin ((hwithin.mono hS) table c hc)))

theorem passes_delete {m : Matching} {condition : Condition} (hi : i.Sound) (hk : i.Each Container.Keyed)
    (hr : delete m table condition i = (.ok n, j)) (hS : ∀ name, S name ⊆ S' name) :
    Image.Passes S S' i (Transaction.finished j) := by
  cases hc : i.find? table with
  | none =>
    have hcontains : i.contains table = false := by
      rw [Image.contains_eq_isSome, hc]
      rfl
    simp [delete, bind_apply, hcontains] at hr
  | some c =>
    obtain ⟨d, hd, hcommit⟩ := delete_eq hi hc (hk.of_find? hc) m condition
    rw [hd] at hr
    obtain rfl := (Prod.mk.inj hr).2
    rw [hi.finished_set, hcommit]
    refine Image.passes_set hi hS fun hwithin => ((hwithin.mono hS) table c hc).of_scan rfl fun r hr => ?_
    obtain ⟨entry, hentry, rfl⟩ := List.mem_map.1 hr
    exact List.mem_map_of_mem (List.mem_of_mem_filter hentry)

end Query

/-! ## Migrations -/

namespace Migration

open Upgrade

variable {S : String → Set String} {m : Migration} {i j : Image} {table : Table} {name : String} {u v : Upgrade}
  {d : Container}

/-- The records that a migration brings have columns of their table only. -/
def Declared : Migration → Prop
  | .load table records => ∀ r ∈ records, ∀ x ∈ r.names, x ∈ table.columnNames
  | _ => True

/-- Where a table comes from: it was there, perhaps under another name, or it is new and its records have its columns
only. -/
inductive Origin (m : Migration) (i j : Image) (name : String) (d : Container) : Prop
  | kept {source : String} {c : Container} (hc : i.find? source = some c) (hname : m.nameAfter source = some name)
      (hfree : source = name ∨ i.find? name = none) (hcolumns : Query.columnsOf j name = Query.columnsOf i source)
      (hpath : d.keyPath = c.keyPath) (hscan : d.scan = c.scan)
  | new (hfree : i.find? name = none) (hrecords : ∀ r ∈ d.scan, ∀ x ∈ r.names, x ∈ Query.columnsOf j name)

/-- A migration leaves other tables as they are. -/
theorem agreeOn_of_run (hi : i.WellFormed) (hr : m.run (start i (i.version + 1)) = (.ok ⟨⟩, u)) :
    i.AgreeOn {name | name ∈ m.names}ᶜ u.finished := by
  have hparallel := m.parallel_run_of_names (congruence_matched {name | name ∈ m.names} i i) (fun _ h => h) _ _
    (.start hi hi (.refl i) (i.version + 1) (i.version + 1))
  rw [hr] at hparallel
  cases hparallel with
  | ok h => exact (h.image.finished hi hi).2.1

theorem nameAfter_of_notMem (hn : name ∉ m.names) : m.nameAfter name = some name := by
  cases m with
  | create table => rfl
  | drop n =>
    have hne : n ≠ name := fun h => hn (by simp [names, h])
    rw [nameAfter, if_neg hne]
  | rename source target =>
    have hne : source ≠ name := fun h => hn (by simp [names, h])
    rw [nameAfter, if_neg hne]
  | load table records => rfl

/-- Only a name that is vacant is given to a new table. -/
theorem vacant_of_newKeyPath {α : Type} {f : String → Attempt Upgrade α} {a : α}
    (h : (Attempt.read (newKeyPath table) >>= f) u = (.ok a, v)) : u.image.Vacant table.name := by
  rw [bind_apply, read_apply] at h
  cases hkey : newKeyPath table u with
  | error e =>
    rw [hkey] at h
    cases h
  | ok keyPath => exact (of_newKeyPath hkey).2

theorem scan_of_run_create (hi : i.Sound) (h : (Migration.create table).run (start i (i.version + 1)) = (.ok ⟨⟩, u))
    (hd : u.finished.find? table.name = some d) : d.scan = [] := by
  have hsorted : (start i (i.version + 1)).image.containers.Sorted fun _ => True := hi.sorted
  have hvacant := vacant_of_newKeyPath h
  rw [run, bind_apply, read_apply] at h
  cases hkey : newKeyPath table (start i (i.version + 1)) with
  | error e =>
    rw [hkey] at h
    cases h
  | ok keyPath =>
    rw [hkey] at h
    dsimp only at h
    rw [bind_of_ok (create_of_none hvacant.2 _ _)] at h
    cases h
    rw [find?_finished] at hd
    obtain ⟨c, hc, rfl⟩ := Option.map_eq_some_iff.1 hd
    obtain rfl := Option.some.inj (hc.symm.trans ((Image.find?_set hsorted _ _ _).trans (if_pos rfl)))
    rfl

theorem find?_of_run_drop (hi : i.WellFormed) (h : (Migration.drop name).run (start i (i.version + 1)) = (.ok ⟨⟩, u)) :
    u.finished.find? name = none := by
  have hoff := (meets_outline_delete name).bind (fun _ => meets_outline_erase name) (start i (i.version + 1))
    (Image.outline hi.sound.sorted hi.filed)
  have hrun : (Upgrade.delete name >>= fun _ => editCatalog (·.erase name)) (start i (i.version + 1)) = _ := h
  rw [hrun] at hoff
  have hnone := hoff.keyPaths_eq name
  rw [Function.update_self, Option.map_eq_none_iff] at hnone
  rw [find?_finished, hnone, Option.map_none]

/-- A rename that succeeds had nothing to do, or has moved the table to a vacant name. -/
theorem of_run_rename {source target : String} (hi : i.WellFormed) (hk : i.Each Container.Keyed)
    (h : (Migration.rename source target).run (start i (i.version + 1)) = (.ok ⟨⟩, u)) :
    source = target ∧ u.image = { i with version := i.version + 1 } ∨ source ≠ target ∧ i.Vacant target ∧
      ∃ t c, i.catalog.find? source = some t ∧ i.find? source = some c ∧ u.image = i.renamed source target t c := by
  have hfails : ∀ {e}, renameParts source target (start i (i.version + 1)) ≠ .error e := fun he => by
    cases (run_rename_of_error he).symm.trans h
  cases ht : i.catalog.find? source with
  | none => exact absurd (renameParts_of_missing ht) hfails
  | some t =>
    by_cases hne : source = target
    · subst hne
      cases (run_rename_self ht).symm.trans h
      exact .inl ⟨rfl, rfl⟩
    · by_cases hv : i.Vacant target
      · cases hc : i.find? source with
        | none => exact absurd (renameParts_of_lost ht hc hv) hfails
        | some c =>
          obtain ⟨v, hv', himage⟩ := run_rename hi ht hc (hk.of_find? hc) hv
          cases hv'.symm.trans h
          exact .inr ⟨hne, hv, t, c, rfl, rfl, himage⟩
      · exact absurd (renameParts_of_taken ht hne hv) hfails

theorem columnsOf_finished {v : Image} (h : u.image = v) (name : String) :
    Query.columnsOf u.finished name = Query.columnsOf v name := by
  rw [← h]
  rfl

theorem origin_of_run_rename {source target : String} (hi : i.WellFormed) (hk : i.Each Container.Keyed)
    (hr : (Migration.rename source target).run (start i (i.version + 1)) = (.ok ⟨⟩, u))
    (hn : name = source ∨ name = target) (hd : u.finished.find? name = some d) :
    (Migration.rename source target).Origin i u.finished name d := by
  rw [find?_finished] at hd
  obtain ⟨c, hc, rfl⟩ := Option.map_eq_some_iff.1 hd
  rcases of_run_rename hi hk hr with ⟨rfl, himage⟩ | ⟨hne, hv, t, b, ht, hb, himage⟩
  · obtain rfl : name = source := by simpa using hn
    have hcolumns := columnsOf_finished himage name
    rw [himage] at hc
    exact .kept hc (if_pos rfl) (.inl rfl) hcolumns rfl rfl
  · rw [himage, Image.find?_renamed hi] at hc
    split at hc
    · cases hc
    · rename_i hsource
      obtain rfl : name = target := hn.resolve_left hsource
      rw [if_pos rfl] at hc
      obtain rfl := Option.some.inj hc
      refine .kept hb (if_pos rfl) (.inr hv.2) ?_ rfl rfl
      rw [columnsOf_finished himage, Query.columnsOf, Query.columnsOf, Image.catalog_find?_renamed hi, if_pos rfl, ht]
      rfl

theorem origin_of_run_load {records : List Record} (hm : (Migration.load table records).Declared) (hi : i.Sound)
    (hr : (Migration.load table records).run (start i (i.version + 1)) = (.ok ⟨⟩, u))
    (hd : u.finished.find? table.name = some d) :
    (Migration.load table records).Origin i u.finished table.name d := by
  obtain ⟨htable, c, hc, -, hscan⟩ := of_run_load hi hr
  have hcolumns : Query.columnsOf u.finished table.name = table.columnNames := by
    have htable' : u.finished.catalog.find? table.name = some table := htable
    rw [Query.columnsOf, htable']
  rw [find?_finished, hc] at hd
  obtain rfl := Option.some.inj hd
  refine .new (vacant_of_newKeyPath hr).2 fun r hmem x hx => ?_
  rw [hcolumns]
  exact hm r (hscan.mem_iff.1 hmem) x hx

/-- **The containers that a migration leaves come from those before, or are new.** -/
theorem origin (hm : m.Declared) (hi : i.WellFormed) (hk : i.Each Container.Keyed)
    (hr : m.run (start i (i.version + 1)) = (.ok ⟨⟩, u)) (hd : u.finished.find? name = some d) :
    m.Origin i u.finished name d := by
  have hagree := agreeOn_of_run hi hr
  by_cases hn : name ∈ m.names
  · cases m with
    | create table =>
      obtain rfl : name = table.name := List.mem_singleton.1 hn
      refine .new (vacant_of_newKeyPath hr).2 fun r hmem => ?_
      rw [scan_of_run_create hi.sound hr hd] at hmem
      exact absurd hmem List.not_mem_nil
    | drop n =>
      obtain rfl : name = n := List.mem_singleton.1 hn
      cases (find?_of_run_drop hi hr).symm.trans hd
    | rename source target => exact origin_of_run_rename hi hk hr (by simpa [names] using hn) hd
    | load table records =>
      obtain rfl : name = table.name := List.mem_singleton.1 hn
      exact origin_of_run_load hm hi.sound hr hd
  · exact .kept ((hagree.containers name hn).trans hd) (nameAfter_of_notMem hn) (.inl rfl)
      (Query.columnsOf_eq hagree.symm hn) rfl rfl

/-- **A migration stays within the columns that are passed on with the names of the tables.** -/
theorem passes (hm : m.Declared) (hi : i.WellFormed) (hk : i.Each Container.Keyed)
    (hr : m.run (start i (i.version + 1)) = (.ok ⟨⟩, u))
    (hS : ∀ source name, m.nameAfter source = some name → S source ⊆ S' name) : Image.Passes S S' i u.finished := by
  have hbound : ∀ {source name}, m.nameAfter source = some name →
      Query.columnsOf u.finished name = Query.columnsOf i source → i.bound S source ⊆ u.finished.bound S' name :=
    fun {source name} hname hcolumns => by
      rw [Image.bound, Image.bound, hcolumns]
      exact Set.union_subset_union_right _ (hS source name hname)
  constructor
  · intro hwithin name d hd
    cases origin hm hi hk hr hd with
    | @kept source c hc hname _ hcolumns hpath hscan =>
      exact ((hwithin source c hc).mono (hbound hname hcolumns)).of_scan hpath fun r hr => hscan ▸ hr
    | new _ hrecords => exact fun r hr x hx => .inl (.inl (hrecords r hr x hx))
  · intro name c d hc hd
    cases origin hm hi hk hr hd with
    | kept _ hname hfree hcolumns =>
      rcases hfree with rfl | hfree
      · exact hbound hname hcolumns
      · cases hfree.symm.trans hc
    | new hfree => cases hfree.symm.trans hc

end Migration

/-! ## Literal rows and demo tables -/

/-- The records of literal rows have the columns of the table that the rows define. -/
theorem Statement.declared_of_literalTable {name : String} {rows : List (List Item)} {table : Table}
    {records : List Record} (h : literalTable name rows = .ok (table, records)) :
    (Migration.load table records).Declared := by
  obtain ⟨-, -, -, rfl⟩ := of_literalTable h
  intro r hr x hx
  obtain ⟨items, -, rfl⟩ := List.mem_map.1 hr
  obtain ⟨cell, hcell, rfl⟩ := List.mem_map.1 (Record.mem_names_ofList.1 hx)
  exact (List.of_mem_zip hcell).1

/-- The demo records have the columns of their tables. -/
theorem Demo.makes_within : Upgrade.Makes (Image.Within fun _ => ∅) fill := by
  have hnames : ∀ e ∈ (fill (.start {} 1)).2.finished.containers.entries, ∀ r ∈ e.2.scan, ∀ x ∈ r.names,
      x ∈ Query.columnsOf (fill (.start {} 1)).2.finished e.1 := by decide +kernel
  intro u hu name c hc r hr x hx
  have hworking := keeps_fill (.start {} 1) (.start Session.wellFormed_empty 1)
  rw [hu] at hnames hworking
  have hentry := (hworking.finished.sound.sorted.find?_eq_some trivial).1 hc
  exact .inl (.inl (hnames (name, c) hentry r hr x hx))

end TableStore
