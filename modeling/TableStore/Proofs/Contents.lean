import TableStore.Proofs.Accepted
import TableStore.Proofs.LiteralTable
import TableStore.Proofs.Tracking

/-!
# What texts bring into tables

- a record is `BoolFree` when none of its values is a boolean; every record that a statement stores is one, since no
  text is read as a boolean, and containers of such records stay so (`Container.hereditary_boolFree`);
- a session is `Unbroken` with a property when it has been open since its store was created and its live image has the
  property: without restarts nothing is read back from the store;
- so no table holds a boolean in an engine that was only asked by the texts of statements and for other names of
  tables (`Engine.boolFree_after`).
-/

namespace TableStore

open Attempt

/-! ## Records without booleans -/

namespace Record

/-- No value of the record is a boolean. -/
def BoolFree (r : Record) : Prop := ∀ cell ∈ r.cells, cell.2.BoolFree

variable {r : Record} {name : String} {v : Value}

theorem boolFree_empty : empty.BoolFree := fun _ h => absurd h List.not_mem_nil

theorem BoolFree.set (hr : r.BoolFree) (hv : v.BoolFree) : (r.set name v).BoolFree := fun cell hcell => by
  rcases of_mem_setIn hcell with h | h
  · rwa [h]
  · exact hr cell h

theorem BoolFree.setFirst (hr : r.BoolFree) (hv : v.BoolFree) : (r.setFirst name v).BoolFree := fun cell hcell => by
  rcases List.mem_cons.1 hcell with rfl | h
  · exact hv
  · exact hr cell (List.mem_of_mem_filter h)

theorem boolFree_ofList {cells : List (String × Value)} (h : ∀ cell ∈ cells, cell.2.BoolFree) :
    (ofList cells).BoolFree := by
  have hfold : ∀ {cells : List (String × Value)} {r : Record}, (∀ cell ∈ cells, cell.2.BoolFree) → r.BoolFree →
      (cells.foldl (fun r c => r.set c.1 c.2) r).BoolFree := fun {cells} => by
    induction cells with
    | nil => exact fun _ hr => hr
    | cons c cells ih =>
      intro r h hr
      obtain ⟨hc, hcells⟩ := List.forall_mem_cons.1 h
      exact ih hcells (hr.set hc)
  exact hfold h boolFree_empty

theorem BoolFree.valueOf (hr : r.BoolFree) (name : String) : (r.valueOf name).BoolFree := by
  rw [Record.valueOf]
  cases h : r.find? name with
  | none => exact fun b hb => by cases hb
  | some v => exact hr _ (mem_of_find? h)

end Record

namespace Container

/-- No record of the container has a boolean. -/
def BoolFree (c : Container) : Prop := ∀ r ∈ c.scan, r.BoolFree

theorem hereditary_boolFree : Hereditary BoolFree := hereditary_of_records (p := fun _ r => r.BoolFree)

/-- A key from the generator is an integer. -/
theorem admits_boolFree {r : Record} (hr : r.BoolFree) : Admits BoolFree r :=
  admits_of_record (p := fun _ r => r.BoolFree) (fun _ => hr) fun _ _ => hr.setFirst fun _ h => nomatch h

end Container

/-! ## Statements -/

namespace Statement

/-- A table of literal rows has a boolean only if one of their items has. -/
theorem boolFree_of_literalTable {name : String} {rows : List (List Item)} {table : Table} {records : List Record}
    (h : literalTable name rows = .ok (table, records)) (hrows : ∀ items ∈ rows, ∀ i ∈ items, i.value.BoolFree) :
    ∀ r ∈ records, r.BoolFree := by
  obtain ⟨-, -, -, rfl⟩ := of_literalTable h
  refine List.forall_mem_map.2 fun items hitems => Record.boolFree_ofList fun cell hcell => ?_
  obtain ⟨i, hi, hvalue⟩ := List.mem_map.1 (List.of_mem_zip hcell).2
  rw [← hvalue]
  exact hrows items hitems i hi

theorem Formed.leads_boolFree {s : Statement} (h : s.Formed) :
    s.Leads fun i j => i.Each Container.BoolFree → j.Each Container.BoolFree := by
  have hscan : ∀ c : Container, c.BoolFree → ∀ r ∈ c.scan, Container.Admits Container.BoolFree r := fun c hc r hr =>
    Container.admits_boolFree (hc r hr)
  have hmigrate : ∀ m : Migration, (∀ r ∈ m.records, r.BoolFree) →
      Upgrade.Leads (fun i j => i.Each Container.BoolFree → j.Each Container.BoolFree) (Migration.runAll [m]) :=
    fun m hm => Container.hereditary_boolFree.leads_migrations
      (fun m' hm' => by
        cases List.mem_singleton.1 hm'
        exact fun r hr => Container.admits_boolFree (hm r hr)) hscan
  cases s with
  | create table => exact hmigrate _ fun _ h => absurd h List.not_mem_nil
  | createAs name rows =>
    exact fun table records ht => hmigrate _ (boolFree_of_literalTable ht fun r hr => (h.2 r hr).2)
  | drop name => exact hmigrate _ fun _ h => absurd h List.not_mem_nil
  | select => trivial
  | insert table columns rows =>
    refine Container.hereditary_boolFree.leads_insert fun columns row hrow =>
      Container.admits_boolFree (Record.boolFree_ofList fun cell hcell => ?_)
    exact (h.2.2 row hrow).2 _ (List.of_mem_zip hcell).2
  | delete table condition =>
    cases condition with
    | none => trivial
    | some condition => exact fun m => Container.hereditary_boolFree.leads_delete m table condition

end Statement

/-- No demo row has a boolean. -/
theorem Demo.boolFree : ∀ r ∈ employees ++ departments, r.BoolFree := by
  have hrows : ∀ r ∈ employees ++ departments, ∀ cell ∈ r.cells, ∀ b, cell.2 ≠ .boolean b := by decide
  exact hrows

/-! ## Sessions without restarts -/

/-- A session that has been open since its store was created, with a property of the live image; before that the store
is not written. -/
abbrev Session.Unbroken (P : Image → Prop) : Session → Prop := Retaining P P fun _ => False

/-- Units that lead from images with the property to such images keep it in the session. -/
theorem Session.Unbroken.passage {P : Image → Prop} (hblank : P { version := 1 }) (hfill : Upgrade.Makes P Demo.fill) :
    Passage P (fun i j => P i → P j) (fun _ => Unbroken P) fun _ => Unbroken P :=
  Retaining.passage hblank hfill (fun _ _ h => h.elim) fun _ _ _ hp hd => hd hp

namespace Engine

variable {P : Image → Prop} {e : Engine} {i : Image}

/-- A run of requests without restarts over a new store keeps what all its units keep. -/
theorem unbroken_after (hblank : P { version := 1 }) (hfill : Upgrade.Makes P Demo.fill) {rs : List Request}
    (hrs : ∀ r ∈ rs, r.Leads P (fun i j => P i → P j) ∧ ∀ settings, r ≠ .restart settings) (he : e.IsNew) :
    (after rs e).session.Unbroken P := by
  refine invariant_after (I := fun _ => Session.Unbroken P) (n := 0) (fun r hr n => ?_)
    (.new ⟨he.medium_unwritten, fun _ => id⟩ he.closed)
  obtain ⟨hleads, hne⟩ := hrs r hr
  exact meets_serve_of_leads (n := n) (Session.Unbroken.passage hblank hfill) (fun _ => Session.Over.of_medium)
    (fun settings h => absurd h (hne settings)) hleads

/-- **Texts of statements bring no boolean into a table.** -/
theorem boolFree_after (he : e.IsNew) (calls : List Call)
    (hi : (after (calls.map Call.request ++ [.ready]) e).session.live = some i) : i.Each Container.BoolFree := by
  have hfill : Upgrade.Makes (Image.Each Container.BoolFree) Demo.fill :=
    Container.hereditary_boolFree.makes_fill (fun r hr => Container.admits_boolFree (Demo.boolFree r hr))
      fun _ hc r hr => Container.admits_boolFree (hc r hr)
  have hleads : ∀ r ∈ calls.map Call.request ++ [.ready], r.Leads (Image.Each Container.BoolFree)
      (fun i j => i.Each Container.BoolFree → j.Each Container.BoolFree) ∧ ∀ settings, r ≠ .restart settings := by
    refine List.forall_mem_append.2 ⟨List.forall_mem_map.2 fun c _ => ?_,
      List.forall_mem_singleton.2 ⟨trivial, fun _ h => nomatch h⟩⟩
    cases c with
    | run text => exact ⟨fun s hs => (Statement.formed_of_parse hs).1.leads_boolFree, fun _ h => nomatch h⟩
    | rename source target =>
      refine ⟨Container.hereditary_boolFree.leads_migrations (fun m hm => ?_) fun _ hc r hr =>
        Container.admits_boolFree (hc r hr), fun _ h => nomatch h⟩
      cases List.mem_singleton.1 hm
      exact fun _ h => absurd h List.not_mem_nil
  have hunbroken := unbroken_after (.empty 1 {}) hfill hleads he
  cases hs : (after (calls.map Call.request ++ [.ready]) e).session with
  | mk store live =>
    rw [hs] at hunbroken hi
    obtain rfl : live = some i := hi
    exact hunbroken.of_live.2.2

end Engine

end TableStore
