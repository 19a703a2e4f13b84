import TableStore.Proofs.Work
import TableStore.Script

/-!
# Operations of units

- an operation on a container edits it under the keys that its reply tells of (`RecordOp.touched`,
  `RecordOp.edited_run`);
- a migration changes the records of containers only that it has created (`Migration.keeps_run`), so it touches no
  container that stays;
- every operation of an upgrade keeps `Upgrade.Since`, with the keys that it has touched added to the history
  (`UpgradeOp.since_run`); an operation of a transaction is one of an upgrade that has created and dropped nothing
  (`TransactionOp.run_eq`).
-/

namespace TableStore

/-! ## Operations on containers -/

namespace Container

variable {c d : Container}

theorem Edited.add {r : Record} {k : Key} (h : c.add r = .ok (k, d)) : c.Edited [k] d := by
  unfold Container.add at h
  cases hk : c.keyed r with
  | error e =>
    rw [hk] at h
    cases h
  | ok kr =>
    rw [hk] at h
    dsimp only at h
    split at h
    · cases h
    · cases h
      exact .store .refl (keyed_proper hk) _

theorem Edited.put {r : Record} {k : Key} (h : c.put r = .ok (k, d)) : c.Edited [k] d := by
  unfold Container.put at h
  cases hk : c.keyed r with
  | error e =>
    rw [hk] at h
    cases h
  | ok kr =>
    rw [hk] at h
    cases h
    exact .store .refl (keyed_proper hk) _

/-- A deletion touches the key if there was a record. -/
theorem Edited.delete (c : Container) {k : Key} (hk : k.Proper) :
    c.Edited (if (c.delete k).1 then [k] else []) (c.delete k).2 := by
  cases h : c.records.find? k with
  | none =>
    rw [delete_of_none h]
    exact .refl
  | some r =>
    rw [show (c.delete k).1 = true by rw [delete_of_find? h]]
    exact .erase .refl hk h

end Container

namespace RecordOp

/-- The keys that an operation has touched, as its reply tells. -/
def touched : RecordOp → Except Error Reply → List Key
  | .add _, .ok (.key k) => [k]
  | .put _, .ok (.key k) => [k]
  | .delete v, .ok (.flag true) => (Key.ofValue? v).toList
  | _, _ => []

/-- **An operation edits a container under the keys that it has touched.** -/
theorem edited_run (op : RecordOp) (c : Container) :
    c.Edited (op.touched (Attempt.whole op.run c).1) (Attempt.whole op.run c).2 := by
  cases op with
  | add r =>
    cases h : c.add r with
    | error e =>
      simp only [Attempt.whole, run, h]
      exact .refl
    | ok kc =>
      simp only [Attempt.whole, run, h]
      exact .add h
  | put r =>
    cases h : c.put r with
    | error e =>
      simp only [Attempt.whole, run, h]
      exact .refl
    | ok kc =>
      simp only [Attempt.whole, run, h]
      exact .put h
  | get v =>
    simp only [Attempt.whole, run]
    cases Key.ofValue? v <;> exact .refl
  | delete v =>
    simp only [Attempt.whole, run]
    cases hk : Key.ofValue? v with
    | none => exact .refl
    | some k =>
      have h := Container.Edited.delete c (Key.proper_of_ofValue? hk)
      cases hd : (c.delete k).1 with
      | false =>
        rw [hd] at h
        simpa [touched, hd] using h
      | true =>
        rw [hd] at h
        simpa [touched, hd, hk] using h
  | scan => exact .refl
  | size => exact .refl
  | changes => exact .refl
  | state => exact .refl

end RecordOp

/-- An attempt that only edits a container, whether it succeeds or not. -/
def Edits {α : Type} (f : Attempt Container α) : Prop := ∀ c : Container, f.Keeps fun d => ∃ ks, c.Edited ks d

namespace Edits

variable {α : Type}

theorem edited {f : Attempt Container α} (hf : Edits f) (c : Container) : ∃ ks, c.Edited ks (f c).2 :=
  hf c c ⟨[], .refl⟩

theorem of_edited {f : Attempt Container α} (hf : ∀ c : Container, ∃ ks, c.Edited ks (f c).2) :
    Edits f := by
  rintro c d ⟨ks, h⟩
  obtain ⟨ks', h'⟩ := hf d
  exact ⟨_, h.trans h'⟩

theorem whole_add (r : Record) : Edits (.whole fun c => (c.add r).map fun kc => ((), kc.2)) := by
  refine of_edited fun c => ?_
  cases h : c.add r with
  | error e => exact ⟨[], by simp only [Attempt.whole, h]; exact .refl⟩
  | ok kc => exact ⟨[kc.1], by simp only [Attempt.whole, h]; exact .add h⟩

theorem whole_put (r : Record) : Edits (.whole fun c => (c.put r).map fun kc => ((), kc.2)) := by
  refine of_edited fun c => ?_
  cases h : c.put r with
  | error e => exact ⟨[], by simp only [Attempt.whole, h]; exact .refl⟩
  | ok kc => exact ⟨[kc.1], by simp only [Attempt.whole, h]; exact .put h⟩

theorem run (op : RecordOp) : Edits (.whole op.run) := of_edited fun c => ⟨_, op.edited_run c⟩

end Edits

/-! ## What operations keep -/

open Attempt

/-- A property of upgrades that changes of the catalog and creating and deleting containers keep. -/
structure Upgrade.Structural (P : Upgrade → Prop) : Prop where
  put : ∀ t, Keeps P (Upgrade.editCatalog (·.put t))
  erase : ∀ name, Keeps P (Upgrade.editCatalog (·.erase name))
  create : ∀ name keyPath autoIncrement, Keeps P (Upgrade.create name keyPath autoIncrement)
  delete : ∀ name, Keeps P (Upgrade.delete name)

/-- The records that a migration brings. -/
def Migration.records : Migration → List Record
  | .load _ records => records
  | _ => []

/-- The parts of a table that gets another name. -/
theorem Migration.of_renameParts {source target : String} {u : Upgrade} {table : Table} {c : Container}
    (h : renameParts source target u = .ok (some (table, c))) :
    source ≠ target ∧ u.image.catalog.find? source = some table ∧ u.image.find? source = some c := by
  unfold renameParts at h
  split at h
  · cases h
  · rename_i htable
    split at h
    · cases h
    · rename_i hne
      split at h
      · cases h
      · split at h
        · cases h
        · rename_i hc
          cases h
          exact ⟨hne, htable, hc⟩

namespace Upgrade.Structural

variable {P : Upgrade → Prop} (hP : Structural P)
include hP

/-- A migration keeps a structural property that storing its records, and those of a table that gets another name,
keeps. -/
theorem keeps_migration {m : Migration}
    (hload : ∀ name, ∀ r ∈ m.records,
      Keeps P (Upgrade.edit name (.whole fun c => (c.add r).map fun kc => ((), kc.2))))
    (hmove : ∀ {u source c}, P u → u.image.find? source = some c → ∀ name, ∀ r ∈ c.scan,
      Keeps P (Upgrade.edit name (.whole fun c => (c.put r).map fun kc => ((), kc.2)))) : Keeps P m.run := by
  cases m with
  | create table => exact (Keeps.read _).bind fun _ => (hP.create _ _ _).bind fun _ => hP.put table
  | drop name => exact (hP.delete name).bind fun _ => hP.erase name
  | rename source target =>
    have hmeets : Meets P (Migration.run (.rename source target)) (fun _ => P) P := by
      refine (Meets.read fun _ hu => hu).bind fun parts u ⟨hu, hparts⟩ => ?_
      match parts, hparts with
      | none, _ => exact hu
      | some (table, c), hparts =>
        have hrecords := Keeps.forEach_of_mem (hmove hu (Migration.of_renameParts hparts).2.2 target)
        have hcatalog :
            Keeps P (Upgrade.editCatalog fun catalog => (catalog.erase source).put ⟨target, table.columns⟩) :=
          fun u hu => hP.put ⟨target, table.columns⟩ _ (hP.erase source u hu)
        exact ((hP.create target c.keyPath c.autoIncrement).bind fun _ => hrecords.bind fun _ =>
          (hP.delete source).bind fun _ => hcatalog).meets u hu
    exact fun u hu => hmeets.keeps hu
  | load table records =>
    exact (Keeps.read _).bind fun _ => (hP.create _ _ _).bind fun _ =>
      (Keeps.forEach_of_mem (hload table.name)).bind fun _ => hP.put table

/-- An operation keeps a structural property that migrations keep, and work on records where it is such. -/
theorem keeps_run {op : UpgradeOp} (hm : ∀ m : Migration, Keeps P m.run)
    (hon : ∀ {table} {record : RecordOp}, op = .common (.on table record) →
      Keeps P (Upgrade.edit table (.whole record.run))) : Keeps P op.run := by
  cases op with
  | common op =>
    cases op with
    | on table op => exact hon rfl
    | abort message => exact Keeps.fail _
    | has table => exact Keeps.read _
    | peek table => exact Keeps.read _
    | tables => exact Keeps.read _
  | version => exact Keeps.read _
  | define table => exact (hP.put table).bind fun _ => Keeps.pure _
  | undefine table => exact (Keeps.read _).bind fun _ => (hP.erase table).bind fun _ => Keeps.pure _
  | create table keyPath autoIncrement => exact (hP.create _ _ _).bind fun _ => Keeps.pure _
  | drop table => exact (hP.delete table).bind fun _ => Keeps.pure _
  | migrate m => exact (hm m).bind fun _ => Keeps.pure _

end Upgrade.Structural

/-- What becomes of containers is structural. -/
theorem Upgrade.structural_tracks {b : String → Bond} (hb : ∀ name, (b name).Lawful name) (i : Image) (v : Nat) :
    Structural (Tracks b i v) where
  put _ := fun _ hu => hu.editCatalog _
  erase _ := fun _ hu => hu.editCatalog _
  create name keyPath autoIncrement := keeps_create (hb name) keyPath autoIncrement
  delete name := fun _ hu => hu.delete (hb name)

/-! ## Migrations -/

namespace Upgrade

variable {i : Image} {v : Nat} {h : History} {α : Type}

theorem structural_since (i : Image) (v : Nat) (h : History) : Structural (Since i v h) :=
  structural_tracks (fun _ => Bond.exact_lawful _ _ _) i v

/-- Work on a container that was created touches nothing that stays. -/
theorem Since.edit_created {u : Upgrade} (hu : Since i v h u) {name : String} (hc : u.created.contains name)
    {f : Attempt Container α} (hf : Edits f) : Since i v h (Upgrade.edit name f u).2 := by
  refine Tracks.edit hu (fun _ _ => rfl) id (fun _ hcr => ?_) fun {c} _ _ hs => ?_
  · rw [hc] at hcr
    cases hcr
  · obtain ⟨ks, hks⟩ := hf.edited c
    exact Container.Settled.edit hs hks

/-- A created container stays created while records are edited. -/
theorem keeps_edit_created (name : String) {f : Attempt Container α} (hf : Edits f) :
    Keeps (fun u => Since i v h u ∧ u.created.contains name) (edit name f) :=
  fun _ ⟨hu, hc⟩ => ⟨hu.edit_created hc hf, hc⟩

end Upgrade

namespace Migration

open Upgrade Attempt

variable {i : Image} {v : Nat} {h : History}

theorem keeps_addAll (name : String) (rs : List Record) :
    Keeps (fun u => Since i v h u ∧ u.created.contains name) (addAll name rs) :=
  Keeps.forEach (fun r => keeps_edit_created name (.whole_add r)) rs

theorem keeps_putAll (name : String) (rs : List Record) :
    Keeps (fun u => Since i v h u ∧ u.created.contains name) (putAll name rs) :=
  Keeps.forEach (fun r => keeps_edit_created name (.whole_put r)) rs

/-- Work on a container right after it was created. -/
theorem keeps_create_bind {α : Type} {name keyPath : String} {autoIncrement : Bool}
    {f : Container → Attempt Upgrade α}
    (hf : ∀ c, Meets (fun u => Since i v h u ∧ u.created.contains name) (f c) (fun _ => Since i v h) (Since i v h)) :
    Keeps (Since i v h) (Upgrade.create name keyPath autoIncrement >>= f) :=
  fun _ hu => ((meets_create (Bond.exact_lawful _ _ _) keyPath autoIncrement).bind hf).keeps hu

/-- **A migration touches no container that stays.** -/
theorem keeps_run (m : Migration) : Keeps (Since i v h) m.run := by
  have hs := structural_since i v h
  cases m with
  | create table =>
    refine (Keeps.read _).bind fun keyPath => keeps_create_bind fun c => ?_
    exact (hs.put table).meets.imp (fun _ h => h.1) (fun _ _ h => h) fun _ h => h
  | drop name => exact (hs.delete name).bind fun _ => hs.erase name
  | rename source target =>
    refine (Keeps.read _).bind fun parts => ?_
    match parts with
    | none => exact Keeps.pure _
    | some (table, c) =>
      refine keeps_create_bind fun _ => ?_
      refine Meets.bind (Q := fun _ => Since i v h)
        ((keeps_putAll target c.scan).meets.imp (fun _ h => h) (fun _ _ h => h.1) fun _ h => h.1) fun _ => ?_
      exact ((hs.delete source).bind fun _ u hu => hs.put _ _ (hs.erase source u hu)).meets
  | load table records =>
    refine (Keeps.read _).bind fun keyPath => keeps_create_bind fun _ => ?_
    refine Meets.bind (Q := fun _ => Since i v h)
      ((keeps_addAll table.name records).meets.imp (fun _ h => h) (fun _ _ h => h.1) fun _ h => h.1) fun _ => ?_
    exact (hs.put table).meets

end Migration

/-! ## Operations of transactions and upgrades -/

namespace TransactionOp

/-- The keys that an operation has touched in a container. -/
def touched (name : String) : TransactionOp → Except Error Reply → List Key
  | .on table op, outcome => if name = table then op.touched outcome else []
  | _, _ => []

end TransactionOp

namespace UpgradeOp

/-- The keys that an operation has touched in a container that stays. -/
def touched (name : String) : UpgradeOp → Except Error Reply → List Key
  | .common op, outcome => op.touched name outcome
  | _, _ => []

end UpgradeOp

/-- The history with what an operation has touched. -/
def History.record (h : History) (touched : String → List Key) : History :=
  { h with touched := fun name => touched name ++ h.touched name }

namespace UpgradeOp

open Upgrade Attempt

variable {i : Image} {v : Nat} {h : History} {u : Upgrade}

/-- **An operation of an upgrade keeps what is known of it**, whatever its outcome. -/
theorem since_run (op : UpgradeOp) (hu : Since i v h u) :
    Since i v (h.record fun name => op.touched name (op.run u).1) (op.run u).2 := by
  cases op with
  | common op =>
    cases op with
    | on table op =>
      have hedit : Since i v (h.touch table (op.touched (UpgradeOp.run (.common (.on table op)) u).1))
          (edit table (.whole op.run) u).2 := by
        refine hu.edit fun c hc => ?_
        have hreply : (UpgradeOp.run (.common (.on table op)) u).1 = (Attempt.whole op.run (u.ready table c)).1 := by
          simp only [UpgradeOp.run, TransactionOp.runIn, edit, Image.edit, hc]
        rw [hreply]
        exact op.edited_run _
      have hhist : (h.record fun name => UpgradeOp.touched name (.common (.on table op))
          (UpgradeOp.run (.common (.on table op)) u).1) =
          h.touch table (op.touched (UpgradeOp.run (.common (.on table op)) u).1) := by
        simp only [History.record, History.touch, touched, TransactionOp.touched]
        congr
        funext name
        split <;> rfl
      rw [hhist]
      exact hedit
    | abort message => exact hu
    | has table => exact hu
    | peek table => exact hu
    | tables => exact hu
  | version | define _ | undefine _ | create _ _ _ | drop _ | migrate _ =>
    exact (structural_since i v h).keeps_run (fun m => m.keeps_run) (fun he => by cases he) u hu

end UpgradeOp

/-! ## Transactions as upgrades -/

/-- An image that came out of another one by the operations of a transaction with some history. -/
abbrev Transaction.Since (i : Image) (h : History) (j : Image) : Prop :=
  Transaction.Tracks (fun name => .exact name (h.touched name) (h.missing name)) i j

namespace Transaction

variable {i j : Image} {h : History}

theorem Since.start (hi : i.Sound) : Since i {} i := ⟨rfl, Upgrade.Since.start hi i.version⟩

theorem Since.toUpgrade (hj : Since i h j) : Upgrade.Since i i.version h (asUpgrade i j) := hj.upgrade

/-- **A transaction that is undone leaves the image as it was.** -/
theorem Since.aborted_eq (hi : i.Sound) (hj : Since i h j) : aborted j = i :=
  (Transaction.aborted_eq hj).trans (hj.toUpgrade.aborted_eq hi)

theorem Since.finished_sound (hj : Since i h j) : (finished j).Sound := hj.toUpgrade.finished_sound

/-- **The change set of a transaction made to the image from before gives the image that is kept.** -/
theorem Since.apply_changeSet (hi : i.Sound) (hj : Since i h j) : i.apply (changeSet j) = .ok (finished j) := by
  have ha := hj.toUpgrade.apply_changeSet hi
  have heq : i.apply (changeSet j) = i.apply (asUpgrade i j).changeSet := by
    simp only [Image.apply, Image.applied, Image.renewed, changeSet, Upgrade.changeSet, asUpgrade, hj.catalog]
    rfl
  rw [heq, ha]
  rfl

/-- A transaction whose journals tell of no changes keeps the image as it was. -/
theorem Since.finished_eq (hi : i.Sound) (hj : Since i h j) (hn : (changeSet j).updated = []) : finished j = i := by
  have ha := hj.apply_changeSet hi
  have hv : (changeSet j).version = i.version := hj.upgrade.version
  simp only [Image.apply, hn, Image.missing?, Image.applied, Image.renewed, hv] at ha
  exact (Except.ok.inj ha).symm

theorem Since.pause (hj : Since i h j) : Since i (h.pause j) j := { hj with upgrade := hj.toUpgrade.pause }

theorem Since.edit (hj : Since i h j) (name : String) {α : Type} {f : Attempt Container α} (hf : Edits f) :
    ∃ h', Since i h' (edit name f j).2 := by
  have hcatalog := (catalog_edit name f j).trans hj.catalog
  cases hc : j.find? name with
  | none => exact ⟨h.touch name [], hcatalog, hj.toUpgrade.edit fun c hc' => by cases hc.symm.trans hc'⟩
  | some c =>
    obtain ⟨ks, hks⟩ := hf.edited c.begin
    exact ⟨h.touch name ks, hcatalog, hj.toUpgrade.edit fun c' hc' => by cases hc.symm.trans hc'; exact hks⟩

end Transaction

namespace TransactionOp

/-- An operation of a transaction is one of an upgrade that has created and dropped nothing. -/
theorem run_eq (i j : Image) (op : TransactionOp) : UpgradeOp.run (.common op) (Transaction.asUpgrade i j) =
    ((op.run j).1, Transaction.asUpgrade i (op.run j).2) := by
  cases op <;> rfl

theorem catalog_run (op : TransactionOp) (j : Image) : (op.run j).2.catalog = j.catalog := by
  cases op with
  | on table op => exact Transaction.catalog_edit table _ j
  | _ => rfl

/-- **An operation of a transaction keeps what is known of it**, whatever its outcome. -/
theorem since_run {i j : Image} {h : History} (op : TransactionOp) (hj : Transaction.Since i h j) :
    Transaction.Since i (h.record fun name => op.touched name (op.run j).1) (op.run j).2 := by
  refine ⟨(op.catalog_run j).trans hj.catalog, ?_⟩
  have hu := UpgradeOp.since_run (.common op) hj.toUpgrade
  rw [run_eq] at hu
  exact hu

end TransactionOp

end TableStore
