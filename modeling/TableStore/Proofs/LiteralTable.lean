import Mathlib.Data.List.Nodup
import TableStore.Proofs.Readers
import TableStore.Query

/-!
# Tables that literal rows define

- a literal row is stored as a record of its values under the names of the first row, which has the last value of a
  name that comes again (`Record.valueOf_ofList`);
- so a row is shown with all its values exactly if those under the same name are the same (`Statement.shown_eq_iff`,
  `Statement.shown_of_nodup`);
- the table that literal rows define has the names of the first row, and a record for each row
  (`Statement.of_literalTable`).
-/

namespace TableStore

/-! ## Rows and records -/

namespace Statement

/-- The values of a literal row under names. -/
def cellsOf (names : List String) (items : List Item) : List (String × Value) := names.zip (items.map Item.value)

/-- What a literal row shows under names: for each of them the last value that has it. -/
def shown (names : List String) (items : List Item) : List Value :=
  names.map fun n => ((cellsOf names items).reverse.lookup n).getD .null

/-- The key of a literal row: what it shows under the first name. -/
def key? (names : List String) (items : List Item) : Option Key := (shown names items).head?.bind Key.ofValue?

/-- Items under the same name have the same value. -/
def Unambiguous (names : List String) (items : List Item) : Prop :=
  ∀ x ∈ cellsOf names items, ∀ y ∈ cellsOf names items, x.1 = y.1 → x.2 = y.2

end Statement

/-- A record has for every name the last value that comes with it. -/
theorem Record.valueOf_ofList (cells : List (String × Value)) (n : String) :
    (ofList cells).valueOf n = (cells.reverse.lookup n).getD .null := by
  have hfold : ∀ (cells : List (String × Value)) (r : Record),
      (cells.foldl (fun r c => r.set c.1 c.2) r).valueOf n = (cells.reverse.lookup n).getD (r.valueOf n) := by
    intro cells
    induction cells with
    | nil => exact fun r => rfl
    | cons c cells ih =>
      intro r
      rw [List.foldl_cons, ih, valueOf_set, List.reverse_cons, List.lookup_append]
      cases cells.reverse.lookup n with
      | some v => rfl
      | none =>
        obtain ⟨m, v⟩ := c
        rw [Option.none_or]
        by_cases hm : m = n
        · rw [if_pos hm, hm, List.lookup_cons_self]
          rfl
        · rw [if_neg hm, List.lookup_cons, beq_false_of_ne (Ne.symm hm)]
          rfl
  exact hfold cells empty

namespace Statement

variable {names : List String} {items : List Item} {columns : List Column} {name : String} {rows : List (List Item)}
  {table : Table} {records : List Record}

/-- A row is shown as the record that is made of it. -/
theorem project_ofList (names : List String) (items : List Item) :
    Query.project names (.ofList (cellsOf names items)) = shown names items :=
  List.map_congr_left fun n _ => Record.valueOf_ofList (cellsOf names items) n

/-- The last cell of a name is one of the cells. -/
theorem exists_of_lookup_reverse {cells : List (String × Value)} {x : String × Value} (hx : x ∈ cells) :
    ∃ v, cells.reverse.lookup x.1 = some v ∧ (x.1, v) ∈ cells := by
  have hsome : (cells.reverse.lookup x.1).isSome :=
    List.lookup_isSome_iff.2 ⟨x, List.mem_reverse.2 hx, beq_self_eq_true x.1⟩
  obtain ⟨v, hv⟩ := Option.isSome_iff_exists.1 hsome
  obtain ⟨before, later, hsplit, -⟩ := List.lookup_eq_some_iff.1 hv
  refine ⟨v, hv, List.mem_reverse.1 ?_⟩
  rw [hsplit]
  exact List.mem_append_right _ List.mem_cons_self

theorem map_fst_cellsOf (h : items.length = names.length) : (cellsOf names items).map Prod.fst = names :=
  List.map_fst_zip (by simp [h])

/-- **A row is shown with all its values exactly if those under one name are the same.** -/
theorem shown_eq_iff (h : items.length = names.length) :
    shown names items = items.map Item.value ↔ Unambiguous names items := by
  have hnames := map_fst_cellsOf h
  have hvalues : (cellsOf names items).map Prod.snd = items.map Item.value := List.map_snd_zip (by simp [h])
  have hshown : shown names items =
      (cellsOf names items).map fun x => ((cellsOf names items).reverse.lookup x.1).getD .null := by
    have hmap := List.map_map (f := Prod.fst)
      (g := fun n => ((cellsOf names items).reverse.lookup n).getD .null) (l := cellsOf names items)
    rw [hnames] at hmap
    exact hmap
  rw [hshown, ← hvalues, List.map_inj_left]
  constructor
  · intro hall x hx y hy hxy
    rw [← hall x hx, ← hall y hy, hxy]
  · intro hsame x hx
    obtain ⟨v, hv, hmem⟩ := exists_of_lookup_reverse hx
    rw [hv]
    exact hsame _ hmem x hx rfl

/-- Values under different names are all shown. -/
theorem shown_of_nodup (h : items.length = names.length) (hn : names.Nodup) :
    shown names items = items.map Item.value := by
  rw [← map_fst_cellsOf h] at hn
  exact (shown_eq_iff h).2 fun x hx y hy hxy => congrArg Prod.snd (List.inj_on_of_nodup_map hn hx hy hxy)

/-! ### Definitions of literal rows -/

theorem of_firstRow : ∀ {items : List Item} {columns : List Column} {cells : List (String × Value)},
    firstRow items = .ok (columns, cells) → items.map Item.name = (columns.map Column.name).map some ∧
      cells = cellsOf (columns.map Column.name) items
  | [], _, _, h => by
    cases h
    exact ⟨rfl, rfl⟩
  | item :: items, columns, cells, h => by
    rw [firstRow] at h
    split at h
    · cases h
    · rename_i hname
      obtain ⟨⟨columns', cells'⟩, hitems, h⟩ := Except.exists_of_bind h
      cases h
      obtain ⟨hnames, rfl⟩ := of_firstRow hitems
      exact ⟨congrArg₂ List.cons hname hnames, rfl⟩

theorem of_laterRow {r : Record} (h : laterRow columns items = .ok r) :
    items.length = columns.length ∧ r = .ofList (cellsOf (columns.map Column.name) items) := by
  rw [laterRow] at h
  split at h
  · cases h
    refine ⟨‹_›, ?_⟩
    rw [cellsOf, List.zip_eq_zipWith, List.zipWith_map]
  · cases h

theorem of_laterRows : ∀ {rows : List (List Item)} {records : List Record},
    rows.mapM (laterRow columns) = .ok records → (∀ items ∈ rows, items.length = columns.length) ∧
      records = rows.map fun items => .ofList (cellsOf (columns.map Column.name) items)
  | [], _, h => by
    cases h
    exact ⟨fun _ h => absurd h List.not_mem_nil, rfl⟩
  | items :: rows, records, h => by
    rw [List.mapM_cons] at h
    obtain ⟨r, hr, h⟩ := Except.exists_of_bind h
    obtain ⟨rs, hrs, h⟩ := Except.exists_of_bind h
    cases h
    obtain ⟨hlength, rfl⟩ := of_laterRow hr
    obtain ⟨hlengths, rfl⟩ := of_laterRows hrs
    exact ⟨List.forall_mem_cons.2 ⟨hlength, hlengths⟩, rfl⟩

/-- **Literal rows define a table with the names of the first row, and a record for each row.** -/
theorem of_literalTable (h : literalTable name rows = .ok (table, records)) :
    table.name = name ∧ (rows.head?.map fun first => first.map Item.name) = some (table.columnNames.map some) ∧
      (∀ items ∈ rows, items.length = table.columnNames.length) ∧
      records = rows.map fun items => .ofList (cellsOf table.columnNames items) := by
  cases rows with
  | nil => cases h
  | cons first later =>
    obtain ⟨⟨columns, cells⟩, hfirst, h⟩ := Except.exists_of_bind h
    obtain ⟨rs, hlater, h⟩ := Except.exists_of_bind h
    cases h
    obtain ⟨hnames, rfl⟩ := of_firstRow hfirst
    obtain ⟨hlengths, rfl⟩ := of_laterRows hlater
    have hlength : first.length = columns.length := by simpa using congrArg List.length hnames
    refine ⟨rfl, congrArg some hnames, ?_, rfl⟩
    rw [Table.columnNames, List.length_map]
    exact List.forall_mem_cons.2 ⟨hlength, hlengths⟩

end Statement

end TableStore
