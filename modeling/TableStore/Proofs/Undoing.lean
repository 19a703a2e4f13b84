import TableStore.Proofs.EqualKeys
import TableStore.Proofs.Plan

/-!
# Units that name keys as they are

- a script names the key of a deletion by a value, which makes it a proper one; the body of a unit can ask for any key
  (`Direct`). When such a deletion is undone the record comes back under the key that was asked for, so images are the
  `Same` as before up to equal keys, and `AtRest` when no unit is at work on them and their keys are regular;
- `Container.Reverting c d` says that undoing the journal of `d` gives `c` back up to equal keys, whichever equal keys
  the records stand under by then; every change of records keeps it (`Container.stable_reverting`);
- `Upgrade.Near i v u` tracks containers under this bond; all operations keep it, and an upgrade or a transaction that
  is undone leaves the same image (`Upgrade.same_aborted`, `Transaction.same_aborted`).
-/

namespace TableStore

/-! ## The same up to equal keys -/

/-- The containers are the same, up to equal keys of their records. -/
structure Container.Same (c d : Container) : Prop where
  name_eq : c.name = d.name
  keyPath_eq : c.keyPath = d.keyPath
  autoIncrement_eq : c.autoIncrement = d.autoIncrement
  nextKey_eq : c.nextKey = d.nextKey
  journal_eq : c.journal = d.journal
  records : c.records.Same d.records

/-- The images are the same, up to equal keys of the records. -/
structure Image.Same (i j : Image) : Prop where
  version_eq : i.version = j.version
  catalog_eq : i.catalog = j.catalog
  names_eq : i.names = j.names
  container : ∀ {name : String} {c d : Container}, i.find? name = some c → j.find? name = some d → c.Same d

/-- A container that no unit is at work on, whose records stand under regular keys. -/
structure Container.AtRest (name : String) (c : Container) : Prop where
  name_eq : c.name = name
  regular : c.records.Regular
  closed : c.journal = none

/-- An image that no unit is at work on, whose records stand under regular keys. -/
structure Image.AtRest (i : Image) : Prop where
  sorted : i.containers.Sorted fun _ => True
  container : ∀ {name : String} {c : Container}, i.find? name = some c → c.AtRest name

theorem Container.Same.refl (c : Container) : c.Same c := ⟨rfl, rfl, rfl, rfl, rfl, .refl c.records⟩

theorem Container.Same.atRest {name : String} {c d : Container} (h : c.Same d) (hd : d.AtRest name) : c.AtRest name :=
  ⟨h.name_eq.trans hd.name_eq, h.records.regular hd.regular, h.journal_eq.trans hd.closed⟩

theorem Container.Settled.atRest {name : String} {c : Container} (hc : c.Settled name) : c.AtRest name :=
  ⟨hc.name_eq, hc.ordered.regular, hc.closed⟩

namespace Image

variable {i j : Image}

theorem Sound.atRest (hi : i.Sound) : i.AtRest := ⟨hi.sorted, fun hc => (hi.settled hc).atRest⟩

/-- The same image as one at rest is at rest. -/
theorem Same.atRest (h : i.Same j) (hj : j.AtRest) : i.AtRest := by
  have hkeys : i.containers.keys = j.containers.keys := h.names_eq
  have hascending : i.containers.Ascending := by
    rw [OrderedMap.Ascending, hkeys]
    exact hj.sorted.ascending
  have hsorted : i.containers.Sorted fun _ => True :=
    ⟨(List.pairwise_map (f := Prod.fst)).1 hascending, fun _ _ => trivial⟩
  refine ⟨hsorted, fun {name c} hc => ?_⟩
  have hmem : name ∈ i.containers.keys := (hsorted.mem_keys trivial).2 ⟨c, hc⟩
  rw [hkeys] at hmem
  obtain ⟨d, hd⟩ := (hj.sorted.mem_keys trivial).1 hmem
  exact (h.container hc hd).atRest (hj.container hd)

end Image

/-! ## Changes of records -/

namespace Container

variable {name : String} {c d : Container} {k : Key} {m n : OrderedMap Key Record} {α : Type}

/-- What was stored is undone, whichever equal keys the records stand under. -/
theorem same_undo_insert (hk : k.Proper) (hm : m.Regular) {r : Record} (h : n.Same (m.insert k r)) :
    (undo n (k, m.find? k)).Same m := by
  have hundo := OrderedMap.SameIn.undo_insertIn hk hm h
  rw [OrderedMap.find?, OrderedMap.findEntry?]
  cases hf : OrderedMap.findIn k m.entries <;> rw [hf] at hundo <;> exact hundo

/-- What was deleted is undone, also if the key that was asked for is equal to the one of the record only. -/
theorem same_undo_erase (hm : m.Regular) {r : Record} (hr : m.find? k = some r) (h : n.Same (m.erase k)) :
    (undo n (k, some r)).Same m := by
  obtain ⟨e, he, rfl⟩ := Option.map_eq_some_iff.1 hr
  exact OrderedMap.SameIn.undo_eraseIn hm he h

/-- A property that every change of records keeps, under whichever key it is asked for. -/
structure Stable (Q : Container → Prop) : Prop where
  store : ∀ {c k}, Q c → k.Proper → ∀ r, Q (c.store k r)
  delete : ∀ {c}, Q c → ∀ k, Q (c.delete k).2

theorem Stable.keeps {Q : Container → Prop} (hQ : Stable Q) {f : Attempt Container α} (hf : Edits f) :
    f.Keeps Q := by
  intro c hc
  obtain ⟨ks, h⟩ := hf.edited c
  generalize (f c).2 = d at h ⊢
  induction h with
  | refl => exact hc
  | store _ hk r ih => exact hQ.store ih hk r
  | erase _ _ _ ih => exact hQ.delete ih _

theorem stable_atRest (name : String) : Stable (AtRest name) where
  store hc hk r := ⟨hc.name_eq, OrderedMap.RegularIn.insertIn hk r hc.regular, by simp [store, note, hc.closed]⟩
  delete {c} hc k := by
    cases hr : c.records.find? k with
    | none =>
      rw [delete_of_none hr]
      exact hc
    | some r =>
      rw [delete_of_find? hr]
      exact ⟨hc.name_eq, OrderedMap.RegularIn.eraseIn k hc.regular, by simp [note, hc.closed]⟩

/-- Undoing the journal gives back a container up to equal keys, whichever equal keys the records stand under. -/
structure Reverting (c d : Container) : Prop where
  name_eq : d.name = c.name
  keyPath_eq : d.keyPath = c.keyPath
  autoIncrement_eq : d.autoIncrement = c.autoIncrement
  regular : d.records.Regular
  undoes : ∃ j, d.journal = some j ∧ j.nextKey = c.nextKey ∧
    ∀ n : OrderedMap Key Record, n.Same d.records → (j.prior.foldl undo n).Same c.records

namespace Reverting

theorem begin (hc : c.AtRest name) : Reverting c c.begin := by
  rw [begin_of_none hc.closed]
  exact ⟨rfl, rfl, rfl, hc.regular, _, rfl, rfl, fun _ hn => hn⟩

theorem same_rollback (hc : c.AtRest name) (h : Reverting c d) : d.rollback.Same c := by
  obtain ⟨j, hj, hnext, hundo⟩ := h.undoes
  rw [rollback, hj]
  exact ⟨h.name_eq, h.keyPath_eq, h.autoIncrement_eq, hnext, hc.closed.symm, hundo d.records (.refl _)⟩

end Reverting

theorem stable_reverting (c : Container) : Stable (Reverting c) where
  store {d k} h hk r := by
    obtain ⟨j, hj, hnext, hundo⟩ := h.undoes
    refine ⟨h.name_eq, h.keyPath_eq, h.autoIncrement_eq, OrderedMap.RegularIn.insertIn hk r h.regular,
      { j with prior := (k, d.records.find? k) :: j.prior }, by simp [store, note, hj], hnext, fun n hn => ?_⟩
    exact hundo _ (same_undo_insert hk h.regular hn)
  delete {d} h k := by
    cases hr : d.records.find? k with
    | none =>
      rw [delete_of_none hr]
      exact h
    | some r =>
      obtain ⟨j, hj, hnext, hundo⟩ := h.undoes
      rw [delete_of_find? hr]
      refine ⟨h.name_eq, h.keyPath_eq, h.autoIncrement_eq, OrderedMap.RegularIn.eraseIn k h.regular,
        { j with prior := (k, some r) :: j.prior }, by simp [note, hj], hnext, fun n hn => ?_⟩
      exact hundo _ (same_undo_erase h.regular hr hn)

end Container

/-! ## Units at work -/

/-- The bond of a container that comes back up to equal keys. -/
def Bond.near (name : String) : Bond where
  kept c d := c.AtRest name ∧ (d = c ∨ Container.Reverting c d)
  fresh := Container.AtRest name
  back := Container.Same

theorem Bond.near_lawful (name : String) : (Bond.near name).Lawful name where
  new _ _ := ⟨rfl, OrderedMap.regular_empty, rfl⟩
  back_of_kept {c d} h := by
    rcases h.2 with rfl | hd
    · rw [Container.rollback_of_none h.1.closed]
      exact .refl d
    · exact hd.same_rollback h.1

namespace Fate

variable {name : String} {before dropped : Option Container} {created : Bool} {c : Container}

/-- The containers that are kept are at rest. -/
theorem atRest_commit (h : Fate (.near name) before created dropped (some c)) : c.commit.AtRest name := by
  have hrest : ∀ {d : Container}, d.AtRest name → d.commit.AtRest name := fun h => ⟨h.name_eq, h.regular, rfl⟩
  cases h with
  | kept h =>
    rcases h.2 with rfl | hc
    · exact hrest h.1
    · exact ⟨hc.name_eq.trans h.1.name_eq, hc.regular, rfl⟩
  | created hc => exact hrest hc
  | replaced _ hc => exact hrest hc

/-- Where there was no container there is no journal. -/
theorem closed_of_none (h : Fate (.near name) none created dropped (some c)) : c.journal = none := by
  cases h with
  | created hc => exact hc.closed

end Fate

namespace Upgrade

open Attempt

variable {i : Image} {v : Nat} {u : Upgrade} {α : Type}

/-- An upgrade that came out of an image, and brings all containers back up to equal keys. -/
abbrev Near (i : Image) (v : Nat) (u : Upgrade) : Prop := Tracks Bond.near i v u

theorem Near.start (hi : i.AtRest) (v : Nat) : Near i v (start i v) :=
  Tracks.start hi.sorted (fun hc => And.intro (hi.container hc) (.inl rfl)) v

/-- Work on a container, with its journal open. -/
theorem kept_begin {name : String} {f : Attempt Container α} (hf : ∀ {Q}, Container.Stable Q → Keeps Q f)
    {c d : Container} (h : (Bond.near name).kept c d) : (Bond.near name).kept c (f d.begin).2 := by
  refine ⟨h.1, .inr (hf (Container.stable_reverting c) _ ?_)⟩
  rcases h.2 with rfl | hd
  · exact .begin h.1
  · obtain ⟨j, hj, -⟩ := hd.undoes
    rwa [Container.begin_of_ne_none (by simp [hj])]

theorem keeps_near_edit (name : String) {f : Attempt Container α} (hf : ∀ {Q}, Container.Stable Q → Keeps Q f) :
    Keeps (Near i v) (edit name f) := fun _ hu =>
  Tracks.edit hu (fun _ _ => rfl) id (fun _ _ => kept_begin hf) fun _ _ h => hf (Container.stable_atRest name) _ h

end Upgrade

namespace Transaction

open Attempt

/-- An image that came out of another one in a transaction that brings all containers back up to equal keys. -/
abbrev Near (i j : Image) : Prop := Tracks Bond.near i j

variable {i j : Image} {α : Type}

theorem Near.start (hi : i.AtRest) : Near i i := ⟨rfl, Upgrade.Near.start hi i.version⟩

theorem keeps_near_edit (name : String) {f : Attempt Container α} (hf : ∀ {Q}, Container.Stable Q → Keeps Q f) :
    Keeps (Near i) (edit name f) := fun _ hj =>
  Tracks.edit hj (fun _ _ => rfl) id fun _ => Upgrade.kept_begin hf

end Transaction

/-! ## Operations -/

/-- An operation of a unit, or one on the container of a table under a key that is taken as it is. -/
inductive Direct (ω : Type) where
  | plain (op : ω)
  /-- The record under a key. -/
  | get (table : String) (k : Key)
  /-- Deletes the record under a key. -/
  | delete (table : String) (k : Key)

/-- Runs an operation, given how containers are worked on and how the operations of the unit run. -/
def Direct.run {σ ω : Type} (edit : String → Attempt Container Reply → Attempt σ Reply) (runOp : ω → Attempt σ Reply) :
    Direct ω → Attempt σ Reply
  | .plain op => runOp op
  | .get table k => edit table (.whole fun c => .ok (.record (c.find? k), c))
  | .delete table k => edit table (.whole fun c => .ok (.flag (c.delete k).1, (c.delete k).2))

/-- Runs an operation of a transaction. -/
def Direct.runTransaction : Direct TransactionOp → Attempt Image Reply := run Transaction.edit TransactionOp.run

/-- Runs an operation of an upgrade. -/
def Direct.runUpgrade : Direct UpgradeOp → Attempt Upgrade Reply := run Upgrade.edit UpgradeOp.run

open Attempt

/-- What operations keep, also on a container with stable properties, they keep under any keys. -/
theorem Direct.keeps_run {σ ω : Type} {P : σ → Prop} {edit : String → Attempt Container Reply → Attempt σ Reply}
    {runOp : ω → Attempt σ Reply} (hop : ∀ op, Keeps P (runOp op))
    (hedit : ∀ name {f}, (∀ {Q}, Container.Stable Q → Keeps Q f) → Keeps P (edit name f)) (d : Direct ω) :
    Keeps P (d.run edit runOp) := by
  cases d with
  | plain op => exact hop op
  | get table k => exact hedit table fun _ _ hc => hc
  | delete table k => exact hedit table fun hQ _ hc => hQ.delete hc k

theorem UpgradeOp.keeps_near {i : Image} {v : Nat} (op : UpgradeOp) : Keeps (Upgrade.Near i v) op.run := by
  have hs := Upgrade.structural_tracks Bond.near_lawful i v
  refine hs.keeps_run (fun m => hs.keeps_migration (fun name r _ => ?_) fun _ _ name r _ => ?_) fun _ => ?_
  · exact Upgrade.keeps_near_edit name fun hQ => hQ.keeps (.whole_add r)
  · exact Upgrade.keeps_near_edit name fun hQ => hQ.keeps (.whole_put r)
  · exact Upgrade.keeps_near_edit _ fun hQ => hQ.keeps (.run _)

theorem TransactionOp.keeps_near {i : Image} (op : TransactionOp) : Keeps (Transaction.Near i) op.run := by
  cases op with
  | on table op => exact Transaction.keeps_near_edit table fun hQ => hQ.keeps (.run op)
  | abort message => exact Keeps.fail _
  | has table => exact Keeps.read _
  | peek table => exact Keeps.read _
  | tables => exact Keeps.read _

namespace Plan

variable {i : Image} {v : Nat} {α : Type}

/-- **A run of an upgrade brings all containers back up to equal keys**, whichever keys it asks for. -/
theorem keeps_near (p : Plan (Direct UpgradeOp) α) : Keeps (Upgrade.Near i v) (p.run Direct.runUpgrade) :=
  p.keeps_run (Direct.keeps_run UpgradeOp.keeps_near fun name => Upgrade.keeps_near_edit name)

/-- **A run of a transaction brings all containers back up to equal keys**, whichever keys it asks for. -/
theorem keeps_near_transaction (p : Plan (Direct TransactionOp) α) :
    Keeps (Transaction.Near i) (p.run Direct.runTransaction) :=
  p.keeps_run (Direct.keeps_run TransactionOp.keeps_near fun name => Transaction.keeps_near_edit name)

end Plan

/-! ## The ends of units -/

namespace Upgrade

variable {i : Image} {v : Nat} {u : Upgrade}

/-- **An upgrade that is undone leaves the same image**, up to equal keys. -/
theorem same_aborted (hi : i.AtRest) (hu : Near i v u) : u.aborted.Same i := by
  have hback := hu.find?_aborted Bond.near_lawful
  refine ⟨hu.priorVersion, hu.priorCatalog, ?_, fun {name c d} hc hd => ?_⟩
  · -- names in order are known by which of them have a container
    have hkeys : ∀ j : Image, j.names = (j.containers.mapValues fun _ => ()).keys := fun j => by
      simp [Image.names, OrderedMap.keys, OrderedMap.mapValues]
    rw [hkeys, hkeys]
    refine congrArg _ ((hu.sorted_aborted.mapValues _).ext (hi.sorted.mapValues _) fun name _ => ?_)
    rw [OrderedMap.find?_mapValues, OrderedMap.find?_mapValues]
    have hrel := hback name
    simp only [Image.find?] at hrel
    generalize u.aborted.containers.find? name = now, i.containers.find? name = before at hrel ⊢
    cases hrel <;> rfl
  · have hrel := hback name
    rw [hc, hd] at hrel
    exact Option.rel_some_some.1 hrel

/-- An upgrade that is kept leaves an image at rest. -/
theorem atRest_finished (hu : Near i v u) : u.finished.AtRest := by
  refine ⟨hu.sorted.mapValues _, fun {name c} hc => ?_⟩
  rw [find?_finished] at hc
  obtain ⟨d, hd, rfl⟩ := Option.map_eq_some_iff.1 hc
  have hf := hu.fate name
  rw [hd] at hf
  exact hf.atRest_commit

/-- The change set of an upgrade of an empty image has new containers only, so it fits. -/
theorem apply_changeSet_of_empty (hu : Near {} v u) : ∃ j, Image.apply {} u.changeSet = .ok j := by
  have hnil : u.changeSet.updated = [] := by
    refine List.filter_eq_nil_iff.2 fun changes hch => ?_
    obtain ⟨c, hc, hsome⟩ := List.mem_filterMap.1 hch
    obtain ⟨name, -, hfind⟩ := hu.sorted.mem_values.1 hc
    have hf := hu.fate name
    rw [show u.image.find? name = some c from hfind] at hf
    rw [Container.changes?_of_none (hf.closed_of_none)] at hsome
    cases hsome
  rw [Image.apply, hnil]
  exact ⟨_, rfl⟩

end Upgrade

namespace Transaction

variable {i j : Image}

/-- **A transaction that is undone leaves the same image**, up to equal keys. -/
theorem same_aborted (hi : i.AtRest) (hj : Near i j) : (aborted j).Same i := by
  rw [aborted_eq hj]
  exact Upgrade.same_aborted hi hj.upgrade

theorem atRest_finished (hj : Near i j) : (finished j).AtRest := Upgrade.atRest_finished hj.upgrade

end Transaction

end TableStore
