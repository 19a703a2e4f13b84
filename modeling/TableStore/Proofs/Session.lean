import TableStore.Proofs.Undoing

/-!
# Units on sessions

- a unit that fails, or whose commit fails, leaves the live image as it was, up to equal keys where it has asked for
  keys that are no proper ones, and exactly where all keys come from values; one that was to create a store leaves the
  session closed and the store without an image (`Session.failed_unit_leaves_no_trace`);
- a unit that succeeds has committed a change set that makes the new live image out of the old one, and names the
  containers and keys that the unit has touched and no others (`Session.committed_changes_are_exact`).
-/

namespace TableStore

/-! ## A sample -/

/-- A container with some integers as keys. -/
def Container.ofIntegers (name : String) (keys : List Int64) (nextKey : Int64) : Container where
  name := name
  keyPath := "id"
  autoIncrement := true
  nextKey := nextKey
  records := ⟨keys.map fun n => (.integer n, .ofList [("id", .integer n)])⟩

/-- An image with two containers. -/
def Image.sample : Image where
  version := 1
  containers := ⟨[("s", .ofIntegers "s" [1, 2] 3), ("t", .ofIntegers "t" [1] 2)]⟩

theorem Image.sound_sample : Image.sample.Sound := by
  have hs : Image.sample.containers.Sorted fun _ => True := ⟨by decide +kernel, fun _ _ => trivial⟩
  refine ⟨hs, fun {name c} h => ?_⟩
  have hmem := (hs.find?_eq_some trivial).1 h
  rcases List.mem_cons.1 hmem with he | hmem
  · cases he
    exact ⟨rfl, ⟨by decide +kernel, by decide +kernel⟩, rfl⟩
  · cases List.mem_singleton.1 hmem
    exact ⟨rfl, ⟨by decide +kernel, by decide +kernel⟩, rfl⟩

/-- Changes, deletes and adds records of a container that stays; drops the other one, creates it again with another key
column, and passes over a record without a key. -/
def Plan.sampleSteps : List (Step UpgradeOp) :=
  [⟨.common (.on "s" (.put (.ofList [("id", .integer 1), ("a", .null)]))), false⟩,
    ⟨.common (.on "s" (.delete (.integer 2))), false⟩, ⟨.common (.on "s" (.add .empty)), false⟩,
    ⟨.drop "t", false⟩, ⟨.create "t" "k" false, false⟩, ⟨.common (.on "t" (.add .empty)), true⟩]

/-! ## Failed units -/

namespace Store

/-- A commit that fails leaves what the store keeps, if the change set fits the image that is kept. -/
theorem load_of_failed_commit {store : Store} (hn : store.load = .ok none) {changes : ChangeSet} {i : Image}
    (ha : Image.apply {} changes = .ok i) {e : Error} (he : (store.commit changes).1 = .error e) :
    (store.commit changes).2.load = .ok none := by
  obtain ⟨medium, fates, failing, log⟩ := store
  simp only [Store.commit] at he ⊢
  split
  · exact hn
  · rename_i hf
    rw [if_neg hf] at he
    cases medium with
    | memory image =>
      obtain rfl : image = none := by simpa [Store.load, Medium.load] using hn
      simp only [Medium.commit, Option.getD_none, ha] at he
      cases he
    | keyspace k =>
      simp only [Medium.commit] at he ⊢
      cases hk : k.commit changes with
      | ok k' =>
        rw [hk] at he
        cases he
      | error e' => exact hn

end Store

/-- How a unit fails on a store: its body gives an error, or the commit of what it has changed does; with the store
after it. -/
inductive Fails {α : Type} (store : Store) (outcome : Except Error α) (commit : Except Error Unit × Store) :
    Error → Store → Prop
  | body {e : Error} (h : outcome = .error e) : Fails store outcome commit e store
  | commit {a : α} {e : Error} {store' : Store} (ha : outcome = .ok a) (h : commit = (.error e, store')) :
      Fails store outcome commit e store'

namespace Session

variable {α : Type} {i : Image} {store : Store}

/-- The commit of a transaction: there is none if no record was changed. -/
def commitTransaction (j : Image) (store : Store) : Except Error Unit × Store :=
  if (Transaction.changeSet j).updated.isEmpty then (.ok (), store) else store.commit (Transaction.changeSet j)

theorem settleTransaction_ok (a : α) (j : Image) (store : Store) : settleTransaction (.ok a) j store =
    match commitTransaction j store with
    | (.ok (), store) => (.ok a, Transaction.finished j, store)
    | (.error e, store) => (.error e, Transaction.aborted j, store) := by
  simp only [settleTransaction, commitTransaction]
  split <;> rfl

theorem write_of_live (body : Attempt Image α) {outcome : Except Error α} {j : Image}
    (h : body i = (outcome, j)) : write body ⟨store, some i⟩ =
    ((settleTransaction outcome j store).1,
      ⟨(settleTransaction outcome j store).2.2, some (settleTransaction outcome j store).2.1⟩) := by
  simp only [write, image, openWith, h]

theorem upgrade_of_live (body : Attempt Upgrade α) {outcome : Except Error α} {u : Upgrade}
    (h : body (Upgrade.start i (i.version + 1)) = (outcome, u)) : upgrade body ⟨store, some i⟩ =
    ((settleUpgrade outcome u store).1,
      ⟨(settleUpgrade outcome u store).2.2, some (settleUpgrade outcome u store).2.1⟩) := by
  simp only [upgrade, image, openWith, h]

/-- An image without anything in it is sound. -/
theorem sound_empty : Image.Sound {} := ⟨OrderedMap.sorted_empty, fun h => by cases h⟩

theorem write_of_fails {body : Attempt Image α} {outcome : Except Error α} {j : Image} {e : Error} {store' : Store}
    (hr : body i = (outcome, j)) (hf : Fails store outcome (commitTransaction j store) e store') :
    write body ⟨store, some i⟩ = (.error e, ⟨store', some (Transaction.aborted j)⟩) := by
  rw [write_of_live _ hr]
  cases hf with
  | body h =>
    subst h
    rfl
  | commit ha h =>
    subst ha
    simp only [settleTransaction_ok, h]

theorem upgrade_of_fails {body : Attempt Upgrade α} {outcome : Except Error α} {u : Upgrade} {e : Error}
    {store' : Store} (hr : body (Upgrade.start i (i.version + 1)) = (outcome, u))
    (hf : Fails store outcome (store.commit u.changeSet) e store') :
    upgrade body ⟨store, some i⟩ = (.error e, ⟨store', some u.aborted⟩) := by
  rw [upgrade_of_live _ hr]
  cases hf with
  | body h =>
    subst h
    rfl
  | commit ha h =>
    subst ha
    simp only [settleUpgrade, h]

/-- An initializer that fails leaves the session closed, and the store without an image. -/
theorem openWith_of_fails (hn : store.load = .ok none) (p : Plan (Direct UpgradeOp) Unit) {u : Upgrade}
    {outcome : Except Error Unit} {e : Error} {store' : Store}
    (hr : p.run Direct.runUpgrade (Upgrade.start {} 1) = (outcome, u))
    (hf : Fails store outcome (store.commit u.changeSet) e store') :
    openWith (p.run Direct.runUpgrade) ⟨store, none⟩ = (.error e, ⟨store', none⟩) ∧ store'.load = .ok none := by
  have hu := p.keeps_near _ (.start sound_empty.atRest 1)
  rw [hr] at hu
  cases hf with
  | body h =>
    subst h
    exact ⟨by simp only [openWith, hn, hr, settleUpgrade], hn⟩
  | commit ha h =>
    subst ha
    refine ⟨by simp only [openWith, hn, hr, settleUpgrade, h], ?_⟩
    obtain ⟨j, hj⟩ := Upgrade.apply_changeSet_of_empty hu
    have hload := Store.load_of_failed_commit hn hj (e := e) (by rw [h])
    rw [h] at hload
    exact hload

theorem settleTransaction_cases (outcome : Except Error α) (j : Image) (store : Store) :
    (settleTransaction outcome j store).2.1 = Transaction.finished j ∨
      (settleTransaction outcome j store).2.1 = Transaction.aborted j := by
  cases outcome with
  | error e => exact .inr rfl
  | ok a =>
    rw [settleTransaction_ok]
    split
    · exact .inl rfl
    · exact .inr rfl

theorem settleUpgrade_cases (outcome : Except Error α) (u : Upgrade) (store : Store) :
    (settleUpgrade outcome u store).2.1 = u.finished ∨ (settleUpgrade outcome u store).2.1 = u.aborted := by
  cases outcome with
  | error e => exact .inr rfl
  | ok a =>
    rw [settleUpgrade]
    split
    · exact .inl rfl
    · exact .inr rfl

/-- A transaction leaves an image at rest, whether it fails or not and whichever keys it asks for. -/
theorem atRest_of_write (hi : i.AtRest) (store : Store) (p : Plan (Direct TransactionOp) α) :
    ∃ i', (write (p.run Direct.runTransaction) ⟨store, some i⟩).2.live = some i' ∧ i'.AtRest := by
  have hj := p.keeps_near_transaction i (.start hi)
  rw [write_of_live _ (Prod.eta (p.run Direct.runTransaction i)).symm]
  refine ⟨_, rfl, ?_⟩
  rcases settleTransaction_cases (p.run Direct.runTransaction i).1 (p.run Direct.runTransaction i).2 store with h | h
  · rw [h]
    exact Transaction.atRest_finished hj
  · rw [h]
    exact (Transaction.same_aborted hi hj).atRest hi

/-- An upgrade leaves an image at rest, whether it fails or not and whichever keys it asks for. -/
theorem atRest_of_upgrade (hi : i.AtRest) (store : Store) (p : Plan (Direct UpgradeOp) α) :
    ∃ i', (upgrade (p.run Direct.runUpgrade) ⟨store, some i⟩).2.live = some i' ∧ i'.AtRest := by
  have hu := p.keeps_near _ (.start hi (i.version + 1))
  rw [upgrade_of_live _ (Prod.eta (p.run Direct.runUpgrade (Upgrade.start i (i.version + 1)))).symm]
  refine ⟨_, rfl, ?_⟩
  rcases settleUpgrade_cases (p.run Direct.runUpgrade (Upgrade.start i (i.version + 1))).1
    (p.run Direct.runUpgrade (Upgrade.start i (i.version + 1))).2 store with h | h
  · rw [h]
    exact Upgrade.atRest_finished hu
  · rw [h]
    exact (Upgrade.same_aborted hi hu).atRest hi

/-- **A unit that fails leaves no trace.** Whatever a transaction or an upgrade has done, and whichever failures it has
passed over, if in the end it fails or its commit does, that error is given and the live image is the same as before:
its version, its catalog, its containers, and in each of them the next key and the records under equal keys, with the
journal closed. If the unit was to create the store, the session stays closed and the store still has no image. Where
keys are named by values, the live image is the very one from before; only a deletion that was asked for another key
than the one of the record, a real that is an integer, brings the record back under that key. Images at rest are those
that units start from and leave (`atRest_of_write`, `atRest_of_upgrade`), of whatever keys. -/
theorem failed_unit_leaves_no_trace (i : Image) (hi : i.AtRest) (store store' : Store) (e : Error) :
    (∀ {α : Type} (p : Plan (Direct TransactionOp) α) (outcome : Except Error α) (j : Image),
      p.run Direct.runTransaction i = (outcome, j) → Fails store outcome (commitTransaction j store) e store' →
      ∃ i', write (p.run Direct.runTransaction) ⟨store, some i⟩ = (.error e, ⟨store', some i'⟩) ∧
        i'.Same i ∧ i'.AtRest) ∧
    (∀ {α : Type} (p : Plan (Direct UpgradeOp) α) (outcome : Except Error α) (u : Upgrade),
      p.run Direct.runUpgrade (Upgrade.start i (i.version + 1)) = (outcome, u) →
      Fails store outcome (store.commit u.changeSet) e store' →
      ∃ i', upgrade (p.run Direct.runUpgrade) ⟨store, some i⟩ = (.error e, ⟨store', some i'⟩) ∧
        i'.Same i ∧ i'.AtRest) ∧
    (∀ (p : Plan (Direct UpgradeOp) Unit) (outcome : Except Error Unit) (u : Upgrade), store.load = .ok none →
      p.run Direct.runUpgrade (Upgrade.start {} 1) = (outcome, u) →
      Fails store outcome (store.commit u.changeSet) e store' →
      openWith (p.run Direct.runUpgrade) ⟨store, none⟩ = (.error e, ⟨store', none⟩) ∧ store'.load = .ok none) ∧
    (i.Sound →
      (∀ {α : Type} (p : Plan TransactionOp α) (outcome : Except Error α) (j : Image),
        p.run TransactionOp.run i = (outcome, j) → Fails store outcome (commitTransaction j store) e store' →
        write (p.run TransactionOp.run) ⟨store, some i⟩ = (.error e, ⟨store', some i⟩)) ∧
      ∀ {α : Type} (p : Plan UpgradeOp α) (outcome : Except Error α) (u : Upgrade),
        p.run UpgradeOp.run (Upgrade.start i (i.version + 1)) = (outcome, u) →
        Fails store outcome (store.commit u.changeSet) e store' →
        upgrade (p.run UpgradeOp.run) ⟨store, some i⟩ = (.error e, ⟨store', some i⟩)) := by
  refine ⟨fun p outcome j hr hf => ?_, fun p outcome u hr hf => ?_, fun p _ _ hn hr hf => openWith_of_fails hn p hr hf,
    fun hs => ⟨fun p outcome j hr hf => ?_, fun p outcome u hr hf => ?_⟩⟩
  · have hj := p.keeps_near_transaction i (.start hi)
    rw [hr] at hj
    have hsame := Transaction.same_aborted hi hj
    exact ⟨_, write_of_fails hr hf, hsame, hsame.atRest hi⟩
  · have hu := p.keeps_near _ (.start hi (i.version + 1))
    rw [hr] at hu
    have hsame := Upgrade.same_aborted hi hu
    exact ⟨_, upgrade_of_fails hr hf, hsame, hsame.atRest hi⟩
  · have hj := p.since_run_transaction (.start hs)
    rw [hr] at hj
    rw [write_of_fails hr hf, hj.aborted_eq hs]
  · have hu := p.since_run (.start hs (i.version + 1))
    rw [hr] at hu
    rw [upgrade_of_fails hr hf, hu.aborted_eq hs]

/-- A plan that deletes the record 1 by asking for the real 1, and fails. -/
def deleteAsReal : Plan (Direct UpgradeOp) Unit :=
  .next (.delete "s" (.real (.ofInt 1))) fun _ => .fail (.storage "no")

/-- The changes of the sample are undone, with the journal of the container that stays. A record that was deleted as
the real 1 comes back as that, in an image that is the same up to equal keys. -/
theorem failed_upgrade_of_sample :
    upgrade ((Plan.ofSteps (Plan.sampleSteps ++ [⟨.common (.abort "no"), false⟩])).run UpgradeOp.run)
        ⟨{ medium := .memory (some .sample) }, some .sample⟩ =
      (.error (.storage "no"), ⟨{ medium := .memory (some .sample) }, some .sample⟩) ∧
    ∃ i', upgrade (deleteAsReal.run Direct.runUpgrade) ⟨{ medium := .memory (some .sample) }, some .sample⟩ =
        (.error (.storage "no"), ⟨{ medium := .memory (some .sample) }, some i'⟩) ∧ i'.Same .sample ∧
      (i'.find? "s").map (·.records.keys) = some [.real (.ofInt 1), .integer 2] := by
  have h := failed_unit_leaves_no_trace .sample Image.sound_sample.atRest { medium := .memory (some .sample) }
    { medium := .memory (some .sample) } (.storage "no")
  refine ⟨(h.2.2.2 Image.sound_sample).2 _ _ _ rfl (.body rfl), ?_⟩
  obtain ⟨i', hi', hsame, -⟩ := h.2.1 deleteAsReal _ _ rfl (.body rfl)
  have hkeys : ((upgrade (deleteAsReal.run Direct.runUpgrade)
      ⟨{ medium := .memory (some .sample) }, some .sample⟩).2.live.bind (·.find? "s")).map (·.records.keys) =
      some [.real (.ofInt 1), .integer 2] := by decide +kernel
  rw [hi'] at hkeys
  exact ⟨i', hi', hsame, hkeys⟩

end Session

/-! ## Committed changes -/

/-- An entry of a change set is precise: the container was there before the unit, after every operation of it, and
after the unit, so it was neither dropped nor created; and the keys are exactly those that the unit has touched. -/
structure Changes.Precise (changes : Changes) (before after : Image) (traces : List Trace) (all : ChangeSet) :
    Prop where
  before : before.contains changes.name
  after : after.contains changes.name
  stayed : ∀ t ∈ traces, t.image.contains changes.name
  not_dropped : changes.name ∉ all.dropped
  not_created : changes.name ∉ all.created.map Container.name
  exact : changes.Exact (touchedBy traces changes.name)

theorem Changes.Exact.of_mem_iff {changes : Changes} {ks ks' : List Key} (h : changes.Exact ks)
    (hk : ∀ k, k ∈ ks ↔ k ∈ ks') : changes.Exact ks' :=
  ⟨fun k hk' => h.proper k ((hk k).2 hk'), h.put_ascending, h.deleted_ascending, h.disjoint,
    fun k => (h.mem_iff k).trans (hk k)⟩

namespace Upgrade

variable {i : Image} {v : Nat} {u : Upgrade}

/-- The entries of the change set of an upgrade are precise. -/
theorem Since.precise {traces : List Trace} (hu : Since i v (History.through {} traces) u) {changes : Changes}
    (hc : changes ∈ u.changeSet.updated) : changes.Precise i u.finished traces u.changeSet := by
  obtain ⟨hb, ha, hm, hd, hcr, hex⟩ := hu.mem_updated hc
  refine ⟨?_, ?_, fun t ht => ?_, hd, ?_, hex.of_mem_iff fun k => ?_⟩
  · rwa [Image.contains_eq_isSome]
  · rwa [Image.contains_eq_isSome, find?_finished, Option.isSome_map]
  · rw [Image.contains_eq_isSome]
    cases hn : t.image.find? changes.name with
    | none => exact absurd (History.missing_through ht hn) hm
    | some c => rfl
  · rwa [hu.names_created]
  · rw [History.mem_touched_through]
    exact or_iff_left List.not_mem_nil

end Upgrade

namespace Transaction

variable {i j : Image} {traces : List Trace}

theorem Since.precise (hj : Since i (History.through {} traces) j) {changes : Changes}
    (hc : changes ∈ (changeSet j).updated) : changes.Precise i (finished j) traces (changeSet j) := by
  have h := hj.toUpgrade.precise hc
  exact ⟨h.before, h.after, h.stayed, List.not_mem_nil, List.not_mem_nil, h.exact⟩

/-- A transaction that has touched no key has nothing to commit. -/
theorem Since.updated_eq_nil (hj : Since i (History.through {} traces) j)
    (hn : ∀ name, touchedBy traces name = []) : (changeSet j).updated = [] := by
  refine List.eq_nil_iff_forall_not_mem.2 fun changes hc => ?_
  have hex := (hj.precise hc).exact
  rw [hn] at hex
  obtain ⟨-, -, -, he⟩ := hj.toUpgrade.mem_journaled.1 hc
  rw [hex.isEmpty_iff.2 rfl] at he
  cases he

end Transaction

namespace Session

/-- The traces of the operations of an upgrade to the next version. -/
def upgradeTraces {α : Type} (p : Plan UpgradeOp α) (i : Image) : List Trace :=
  (p.events UpgradeOp.run (Upgrade.start i (i.version + 1))).map UpgradeOp.trace

/-- The traces of the operations of a transaction. -/
def transactionTraces {α : Type} (p : Plan TransactionOp α) (i : Image) : List Trace :=
  (p.events TransactionOp.run i).map TransactionOp.trace

variable {α : Type} {i i' : Image} {store store' : Store}

theorem upgrade_eq_ok {body : Attempt Upgrade α} {a : α}
    (h : upgrade body ⟨store, some i⟩ = (.ok a, ⟨store', some i'⟩)) :
    ∃ u, body (Upgrade.start i (i.version + 1)) = (.ok a, u) ∧ store.commit u.changeSet = (.ok (), store') ∧
      i' = u.finished := by
  cases hr : body (Upgrade.start i (i.version + 1)) with
  | mk outcome u =>
    rw [upgrade_of_live _ hr] at h
    cases outcome with
    | error e => cases h
    | ok a' =>
      cases hc : store.commit u.changeSet with
      | mk committed store'' =>
        simp only [settleUpgrade, hc] at h
        cases committed with
        | error e => cases h
        | ok _ =>
          cases h
          exact ⟨u, rfl, hc, rfl⟩

theorem write_eq_ok {body : Attempt Image α} {a : α}
    (h : write body ⟨store, some i⟩ = (.ok a, ⟨store', some i'⟩)) :
    ∃ j, body i = (.ok a, j) ∧ commitTransaction j store = (.ok (), store') ∧ i' = Transaction.finished j := by
  cases hr : body i with
  | mk outcome j =>
    rw [write_of_live _ hr] at h
    cases outcome with
    | error e => cases h
    | ok a' =>
      cases hc : commitTransaction j store with
      | mk committed store'' =>
        simp only [settleTransaction_ok, hc] at h
        cases committed with
        | error e => cases h
        | ok _ =>
          cases h
          exact ⟨j, rfl, hc, rfl⟩

/-- **What a unit commits is exactly what it has changed.** The change set made to the old image gives the new one, and
every entry of it is precise; a transaction commits changed records only, and nothing at all if it has touched none. -/
theorem committed_changes_are_exact (i : Image) (hi : i.Sound) (store store' : Store) (i' : Image) :
    (∀ {α : Type} (p : Plan UpgradeOp α) (a : α),
      upgrade (p.run UpgradeOp.run) ⟨store, some i⟩ = (.ok a, ⟨store', some i'⟩) →
      ∃ u, p.run UpgradeOp.run (Upgrade.start i (i.version + 1)) = (.ok a, u) ∧
        store.commit u.changeSet = (.ok (), store') ∧ i.apply u.changeSet = .ok i' ∧
        ∀ changes ∈ u.changeSet.updated, changes.Precise i i' (upgradeTraces p i) u.changeSet) ∧
    (∀ {α : Type} (p : Plan TransactionOp α) (a : α),
      write (p.run TransactionOp.run) ⟨store, some i⟩ = (.ok a, ⟨store', some i'⟩) →
      ∃ j, p.run TransactionOp.run i = (.ok a, j) ∧ commitTransaction j store = (.ok (), store') ∧
        i.apply (Transaction.changeSet j) = .ok i' ∧
        (∀ changes ∈ (Transaction.changeSet j).updated,
          changes.Precise i i' (transactionTraces p i) (Transaction.changeSet j)) ∧
        (Transaction.changeSet j).catalog = none ∧ (Transaction.changeSet j).dropped = [] ∧
        (Transaction.changeSet j).created = [] ∧
        ((∀ name, touchedBy (transactionTraces p i) name = []) → store' = store ∧ i' = i)) := by
  constructor
  · intro α p a h
    obtain ⟨u, hr, hc, rfl⟩ := upgrade_eq_ok h
    have hu := p.since_run (.start hi (i.version + 1))
    rw [hr] at hu
    exact ⟨u, hr, hc, hu.apply_changeSet hi, fun changes hch => hu.precise hch⟩
  · intro α p a h
    obtain ⟨j, hr, hc, rfl⟩ := write_eq_ok h
    have hj := p.since_run_transaction (.start hi)
    rw [hr] at hj
    refine ⟨j, hr, hc, hj.apply_changeSet hi, fun changes hch => hj.precise hch, rfl, rfl, rfl, fun hn => ?_⟩
    have hnil := hj.updated_eq_nil hn
    rw [commitTransaction, hnil] at hc
    exact ⟨(Prod.mk.inj hc).2.symm, hj.finished_eq hi hnil⟩

/-- The records of the container that stays are changed, deleted and added; the other one is dropped and created. -/
theorem committed_upgrade_of_sample : ∃ (u : Upgrade) (i' : Image), u.changeSet.dropped = ["t"] ∧
    u.changeSet.created = [{ name := "t", keyPath := "k", autoIncrement := false }] ∧
    u.changeSet.updated =
      [{ name := "s"
         nextKey := 4
         put := [(.integer 1, .ofList [("id", .integer 1), ("a", .null)]), (.integer 3, .ofList [("id", .integer 3)])]
         deleted := [.integer 2] }] ∧
    Image.sample.apply u.changeSet = .ok i' ∧ ∀ changes ∈ u.changeSet.updated,
      changes.Precise .sample i' (upgradeTraces (Plan.ofSteps Plan.sampleSteps) .sample) u.changeSet := by
  obtain ⟨u, hr, -, ha, hp⟩ := (committed_changes_are_exact .sample Image.sound_sample
    { medium := .memory (some .sample) } _ _).1 (Plan.ofSteps Plan.sampleSteps) () rfl
  have hu : u = (Plan.run UpgradeOp.run (Plan.ofSteps Plan.sampleSteps) (Upgrade.start .sample 2)).2 :=
    (congrArg Prod.snd hr).symm
  refine ⟨u, _, ?_, ?_, ?_, ha, hp⟩ <;> rw [hu] <;> decide +kernel

end Session

end TableStore
