import TableStore.Demo
import TableStore.Proofs.Plan
import TableStore.Query

/-!
# The bodies that an engine runs

- a catalog is `Filed` when its definitions stand under their own names; every operation keeps that
  (`UpgradeOp.keeps_filed`);
- `Upgrade.Working i v` and `Transaction.Working i` say that a unit is at work on an image; the bodies of all
  statements, of migrations, of scripts and of the demo tables keep them.
-/

namespace TableStore

/-! ## Catalogs -/

/-- Definitions are in order, under their own names. -/
structure Catalog.Filed (c : Catalog) : Prop where
  sorted : c.tables.Sorted fun _ => True
  name_eq : ∀ {name : String} {t : Table}, c.find? name = some t → t.name = name

namespace Catalog.Filed

variable {c : Catalog}

theorem empty : Filed {} := ⟨OrderedMap.sorted_empty, fun h => by cases h⟩

theorem put (hc : c.Filed) (t : Table) : (c.put t).Filed := by
  refine ⟨hc.sorted.insert trivial t, fun {name t'} h => ?_⟩
  have hf : (c.put t).find? name = if name = t.name then some t else c.find? name :=
    hc.sorted.find?_insert trivial t trivial
  rw [hf] at h
  split at h
  · rename_i he
    cases h
    exact he.symm
  · exact hc.name_eq h

theorem erase (hc : c.Filed) (name : String) : (c.erase name).Filed := by
  refine ⟨hc.sorted.erase trivial, fun {name' t} h => ?_⟩
  have hf : (c.erase name).find? name' = if name' = name then none else c.find? name' :=
    hc.sorted.find?_erase trivial trivial
  rw [hf] at h
  split at h
  · cases h
  · exact hc.name_eq h

end Catalog.Filed

/-- An image that no unit is at work on, with its catalog in order. -/
structure Image.WellFormed (i : Image) : Prop where
  sound : i.Sound
  filed : i.catalog.Filed

/-! ## Operations and the catalog -/

namespace Upgrade

/-- The catalog of an upgrade is in order. -/
def Filed (u : Upgrade) : Prop := u.image.catalog.Filed

open Attempt

theorem keeps_filed_edit {α : Type} (name : String) (f : Attempt Container α) : Keeps Filed (edit name f) := by
  intro u hu
  simp only [edit, Image.edit]
  cases u.image.find? name <;> exact hu

theorem keeps_filed_create (name keyPath : String) (autoIncrement : Bool) :
    Keeps Filed (create name keyPath autoIncrement) := by
  intro u hu
  unfold create
  split <;> exact hu

theorem keeps_filed_delete (name : String) : Keeps Filed (delete name) := by
  intro u hu
  unfold delete
  split
  · exact hu
  · split <;> exact hu

theorem keeps_filed_put (t : Table) : Keeps Filed (editCatalog (·.put t)) := fun _ hu => Catalog.Filed.put hu t

theorem keeps_filed_erase (name : String) : Keeps Filed (editCatalog (·.erase name)) :=
  fun _ hu => Catalog.Filed.erase hu name

end Upgrade

open Attempt Upgrade

theorem structural_filed : Structural Filed :=
  ⟨keeps_filed_put, keeps_filed_erase, keeps_filed_create, keeps_filed_delete⟩

theorem Migration.keeps_filed (m : Migration) : Keeps Filed m.run :=
  structural_filed.keeps_migration (fun name _ _ => keeps_filed_edit name _) fun _ _ name _ _ => keeps_filed_edit name _

theorem UpgradeOp.keeps_filed (op : UpgradeOp) : Keeps Filed op.run :=
  structural_filed.keeps_run Migration.keeps_filed fun _ => keeps_filed_edit _ _

/-! ## Units at work -/

/-- An upgrade to a version is at work on an image. -/
structure Upgrade.Working (i : Image) (v : Nat) (u : Upgrade) : Prop where
  since : ∃ h, Since i v h u
  filed : u.Filed

/-- A transaction is at work on an image. -/
def Transaction.Working (i j : Image) : Prop := ∃ h, Transaction.Since i h j

theorem Transaction.Working.wellFormed {i j : Image} (hi : i.WellFormed) (hj : Working i j) :
    (finished j).WellFormed := by
  obtain ⟨h, hj⟩ := hj
  refine ⟨hj.finished_sound, ?_⟩
  rw [show (Transaction.finished j).catalog = i.catalog from hj.catalog]
  exact hi.filed

namespace Upgrade

variable {i : Image} {v : Nat} {α : Type}

theorem Working.start (hi : i.WellFormed) (v : Nat) : Working i v (start i v) := ⟨⟨_, .start hi.sound v⟩, hi.filed⟩

theorem Working.finished (hu : Working i v u) : u.finished.WellFormed := by
  obtain ⟨h, hs⟩ := hu.since
  exact ⟨hs.finished_sound, hu.filed⟩

theorem keeps_working {x : Attempt Upgrade α} (hs : ∀ h, Keeps (Since i v h) x) (hf : Keeps Filed x) :
    Keeps (Working i v) x := fun u hu => ⟨hu.since.imp fun h hs' => hs h u hs', hf u hu.filed⟩

theorem keeps_working_edit (name : String) {f : Attempt Container α} (hf : Edits f) :
    Keeps (Working i v) (edit name f) := by
  intro u hu
  obtain ⟨h, hs⟩ := hu.since
  refine ⟨?_, keeps_filed_edit name f u hu.filed⟩
  cases hc : u.image.find? name with
  | none =>
    have hnone : ∀ c, u.image.find? name = some c → (u.ready name c).Edited [] (f (u.ready name c)).2 := by
      simp [hc]
    exact ⟨_, hs.edit hnone⟩
  | some c =>
    obtain ⟨ks, hks⟩ := hf.edited (u.ready name c)
    exact ⟨_, hs.edit fun c' hc' => by cases hc.symm.trans hc'; exact hks⟩

end Upgrade

theorem Migration.keeps_working {i : Image} {v : Nat} (ms : List Migration) : Keeps (Working i v) (runAll ms) :=
  Keeps.forEach (fun m => Upgrade.keeps_working (fun _ => m.keeps_run) m.keeps_filed) ms

theorem UpgradeOp.keeps_working {i : Image} {v : Nat} (op : UpgradeOp) : Keeps (Working i v) op.run := by
  intro u hu
  obtain ⟨h, hs⟩ := hu.since
  exact ⟨⟨_, op.since_run hs⟩, op.keeps_filed u hu.filed⟩

theorem TransactionOp.keeps_working {i : Image} (op : TransactionOp) : Keeps (Transaction.Working i) op.run :=
  fun _ ⟨_, hj⟩ => ⟨_, op.since_run hj⟩

theorem Demo.keeps_fill {i : Image} {v : Nat} : Keeps (Working i v) Demo.fill :=
  (Migration.keeps_working _).bind fun _ =>
    (Keeps.forEach (fun r => keeps_working_edit _ (.whole_put r)) _).bind fun _ =>
      Keeps.forEach (fun r => keeps_working_edit _ (.whole_put r)) _

/-! ## Insertions and deletions -/

namespace Query

theorem edits_addRow (columns : List String) (row : List Value) : Edits (addRow columns row) := by
  unfold addRow
  split
  · exact .whole_add _
  · exact fun c => Keeps.fail _

theorem edits_addRows (columns : List String) (rows : List (List Value)) : Edits (addRows columns rows) :=
  fun c => Keeps.forEach (fun row => edits_addRow columns row c) rows

theorem lookUp_proper {c : Container} {v : Value} : ∀ k ∈ lookUp c v, k.Proper := by
  intro k hk
  unfold lookUp at hk
  split at hk
  · rename_i k' hv
    split at hk
    · obtain rfl := List.mem_singleton.1 hk
      exact Key.proper_of_ofValue? hv
    · cases hk
  · cases hk

theorem matching_proper {m : Matching} {condition : Condition} {c : Container} :
    ∀ k ∈ matching m condition c, k.Proper := by
  intro k hk
  unfold matching at hk
  split at hk
  · exact lookUp_proper k hk
  · split at hk
    · exact lookUp_proper k hk
    · obtain ⟨r, -, hr⟩ := List.mem_filterMap.1 hk
      unfold keyIf at hr
      split at hr
      · split at hr
        · exact Key.proper_of_ofValue? hr
        · cases hr
      · cases hr

/-- Deleting keys one after another edits the container. -/
theorem edited_deleteKeys : ∀ {ks : List Key} (n : Nat) {c d : Container} {ls : List Key}, (∀ k ∈ ks, k.Proper) →
    c.Edited ls d → ∃ ls', c.Edited ls'
      (ks.foldl (fun nc k => ((if (nc.2.delete k).1 then nc.1 + 1 else nc.1), (nc.2.delete k).2)) (n, d)).2
  | [], _, _, _, ls, _, h => ⟨ls, h⟩
  | k :: ks, _, _, d, _, hks, h => by
    obtain ⟨hk, hks⟩ := List.forall_mem_cons.1 hks
    rw [List.foldl_cons]
    exact edited_deleteKeys _ hks (h.trans (.delete d hk))

theorem edits_delete (m : Matching) (condition : Condition) :
    Edits (.whole fun c => .ok (deleteKeys (matching m condition c) c)) :=
  .of_edited fun _ => edited_deleteKeys 0 matching_proper .refl

variable {i : Image}

theorem keeps_transaction_edit {α : Type} (name : String) {f : Attempt Container α} (hf : Edits f) :
    Keeps (Transaction.Working i) (Transaction.edit name f) := fun _ ⟨_, hj⟩ => hj.edit name hf

theorem keeps_insert (table : String) (columns : Option (List String)) (rows : List (List Value)) :
    Keeps (Transaction.Working i) (insert table columns rows) :=
  (Keeps.read _).bind fun columns => (keeps_transaction_edit table (edits_addRows columns rows)).bind fun _ =>
    Keeps.pure _

theorem keeps_delete (m : Matching) (table : String) (condition : Condition) :
    Keeps (Transaction.Working i) (delete m table condition) :=
  (Keeps.read _).bind fun _ => keeps_transaction_edit table (edits_delete m condition)

end Query

end TableStore
