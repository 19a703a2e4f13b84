import TableStore.Proofs.Invariant

/-!
# Properties that containers keep

- a property of containers is `Hereditary` when new containers have it and deleting records keeps it, and `Steady` when
  storing records keeps it too;
- all containers of an image keep a steady property through every unit (`Container.Steady.leads`);
- it is steady that records are `Keyed`: in order, each under the key that its key column has
  (`Container.steady_keyed`).
-/

namespace TableStore

open Attempt

/-- A property that new containers have, and that opening and closing journals and deleting records keep. -/
structure Container.Hereditary (Q : Container → Prop) : Prop where
  new : ∀ name keyPath autoIncrement, Q { name, keyPath, autoIncrement }
  begin : ∀ {c}, Q c → Q c.begin
  commit : ∀ {c}, Q c → Q c.commit
  delete : ∀ {c k}, Q c → k.Proper → Q (c.delete k).2

/-- Storing a record keeps a property. -/
structure Container.Admits (Q : Container → Prop) (r : Record) : Prop where
  add : ∀ {c d k}, Q c → c.add r = .ok (k, d) → Q d
  put : ∀ {c d k}, Q c → c.put r = .ok (k, d) → Q d

/-- A hereditary property that storing records keeps, too. -/
structure Container.Steady (Q : Container → Prop) : Prop extends Container.Hereditary Q where
  admits : ∀ r, Container.Admits Q r

/-- All containers have a property. -/
def Image.Each (Q : Container → Prop) (i : Image) : Prop := ∀ c ∈ i.containers.values, Q c

namespace Image.Each

variable {Q : Container → Prop} {i : Image}

theorem of_find? (h : i.Each Q) {name : String} {c : Container} (hc : i.find? name = some c) : Q c :=
  h c (OrderedMap.mem_values_of_find? hc)

theorem empty (version : Nat) (catalog : Catalog) : Each Q { version, catalog } := fun _ h => absurd h List.not_mem_nil

theorem set (h : i.Each Q) {name : String} {c : Container} (hc : Q c) : (i.set name c).Each Q := fun d hd => by
  rcases OrderedMap.of_mem_values_insert hd with rfl | hd
  · exact hc
  · exact h d hd

theorem mapContainers (h : i.Each Q) {f : Container → Container} (hf : ∀ {c}, Q c → Q (f c)) :
    (i.mapContainers f).Each Q := fun d hd => by
  rw [Image.mapContainers, OrderedMap.values_mapValues] at hd
  obtain ⟨c, hc, rfl⟩ := List.mem_map.1 hd
  exact hf (h c hc)

end Image.Each

/-- A change of a container that gives something made of the key. -/
theorem Container.keeps_whole_map {α : Type} {Q : Container → Prop} {f : Container → Except Error (Key × Container)}
    (g : Key → α) (hf : ∀ {c d k}, Q c → f c = .ok (k, d) → Q d) :
    Keeps Q (.whole fun c => (f c).map fun kc => (g kc.1, kc.2)) := by
  refine Keeps.whole fun {c a d} hc h => ?_
  cases hfc : f c with
  | error e =>
    rw [hfc] at h
    cases h
  | ok kc =>
    rw [hfc] at h
    cases h
    exact hf hc hfc

namespace Container.Admits

variable {Q : Container → Prop} {r : Record}

theorem keeps_add (h : Admits Q r) : Keeps Q (.whole fun c => (c.add r).map fun kc => ((), kc.2)) :=
  keeps_whole_map (fun _ => ()) h.add

theorem keeps_put (h : Admits Q r) : Keeps Q (.whole fun c => (c.put r).map fun kc => ((), kc.2)) :=
  keeps_whole_map (fun _ => ()) h.put

end Container.Admits

/-! ## Properties of records -/

namespace Container

variable {p : String → Record → Prop} {r r' : Record} {c d : Container} {k : Key}

/-- The record that is stored is the one that was given, or that one with a key of the generator. -/
theorem of_keyed (h : c.keyed r = .ok (k, r')) : r' = r ∨ ∃ n, r' = r.setFirst c.keyPath (.integer n) := by
  unfold keyed at h
  split at h
  · split at h
    · cases h
      exact .inr ⟨_, rfl⟩
    · cases h
  · split at h
    · cases h
      exact .inl rfl
    · cases h

/-- What all records of a container have, given the key column, is hereditary. -/
theorem hereditary_of_records : Hereditary fun c => ∀ r ∈ c.scan, p c.keyPath r where
  new _ _ _ := fun _ h => absurd h List.not_mem_nil
  begin {c} hc := by rwa [scan, begin_records, begin_keyPath]
  commit hc := hc
  delete {c k} hc _ := by
    cases hr : c.records.find? k with
    | none => rwa [delete_of_none hr]
    | some r =>
      rw [delete_of_find? hr]
      exact fun s hs => hc s (OrderedMap.of_mem_values_erase hs)

/-- A record that has it, with every key of a generator too, is admitted. -/
theorem admits_of_record (hr : ∀ keyPath, p keyPath r)
    (hkey : ∀ keyPath n, p keyPath (r.setFirst keyPath (.integer n))) :
    Admits (fun c => ∀ r ∈ c.scan, p c.keyPath r) r := by
  have hstore : ∀ {c : Container} {r' k}, (∀ s ∈ c.scan, p c.keyPath s) → c.keyed r = .ok (k, r') →
      ∀ s ∈ (c.store k r').scan, p (c.store k r').keyPath s := fun {c r' k} hc h s hs => by
    have hp : p c.keyPath r' := by
      rcases of_keyed h with rfl | ⟨n, rfl⟩
      · exact hr c.keyPath
      · exact hkey c.keyPath n
    rcases OrderedMap.of_mem_values_insert hs with rfl | hs
    · exact hp
    · exact hc s hs
  constructor
  · intro c d k hc h
    unfold add at h
    split at h
    · cases h
    · rename_i hk
      split at h
      · cases h
      · cases h
        exact hstore hc hk
  · intro c d k hc h
    unfold put at h
    split at h
    · cases h
    · rename_i hk
      cases h
      exact hstore hc hk

end Container

/-! ## Hereditary properties -/

namespace Container.Hereditary

variable {Q : Container → Prop} {α : Type}

theorem keeps_image_edit (name : String) {f : Attempt Container α} (hf : Keeps Q f)
    {ready : Container → Container} (hr : ∀ c, Q c → Q (ready c)) : Keeps (Image.Each Q) (Image.edit ready name f) := by
  intro i hi
  rw [Image.edit]
  cases hc : i.find? name with
  | none => exact hi
  | some c => exact hi.set (hf _ (hr c (hi.of_find? hc)))

theorem keeps_drop (name : String) : Keeps (fun u => u.image.Each Q) (Upgrade.delete name) := by
  intro u hu
  have hwithout : (u.without name).image.Each Q := fun c hc => hu c (OrderedMap.of_mem_values_erase hc)
  rw [Upgrade.delete]
  split
  · exact hu
  · split <;> exact hwithout

theorem keeps_editCatalog (f : Catalog → Catalog) : Keeps (fun u => u.image.Each Q) (Upgrade.editCatalog f) :=
  fun _ hu => hu

variable (hQ : Hereditary Q)
include hQ

theorem deleteKeys {ks : List Key} (hks : ∀ k ∈ ks, k.Proper) (n : Nat) {c : Container} (hc : Q c) :
    Q (ks.foldl (fun nc k => ((if (nc.2.delete k).1 then nc.1 + 1 else nc.1), (nc.2.delete k).2)) (n, c)).2 := by
  induction ks generalizing n c with
  | nil => exact hc
  | cons k ks ih =>
    obtain ⟨hk, hks⟩ := List.forall_mem_cons.1 hks
    rw [List.foldl_cons]
    exact ih hks _ (hQ.delete hc hk)

theorem keeps_delete (m : Matching) (condition : Condition) :
    Keeps Q (.whole fun c => .ok (Query.deleteKeys (Query.matching m condition c) c)) :=
  fun _ hc => hQ.deleteKeys Query.matching_proper 0 hc

theorem keeps_edit (name : String) {f : Attempt Container α} (hf : Keeps Q f) :
    Keeps (fun u => u.image.Each Q) (Upgrade.edit name f) := by
  intro u hu
  have hready : ∀ c, Q c → Q (u.ready name c) := fun c hc => by
    rw [Upgrade.ready]
    split
    · exact hc
    · exact hQ.begin hc
  exact keeps_image_edit name hf hready u.image hu

theorem keeps_create (name keyPath : String) (autoIncrement : Bool) :
    Keeps (fun u => u.image.Each Q) (Upgrade.create name keyPath autoIncrement) := by
  intro u hu
  rw [Upgrade.create]
  split
  · exact hu
  · exact Image.Each.set hu (hQ.new name keyPath autoIncrement)

/-- All containers have the property after a transaction that succeeds, if they had it before. -/
theorem leads_transaction {body : Attempt Image α} (hb : Keeps (Image.Each Q) body) :
    Transaction.Leads (fun i j => i.Each Q → j.Each Q) body := by
  intro i a j _ hr hi
  have hj := hb i hi
  rw [hr] at hj
  exact hj.mapContainers hQ.commit

theorem leads_delete (m : Matching) (table : String) (condition : Condition) :
    Transaction.Leads (fun i j => i.Each Q → j.Each Q) (Query.delete m table condition) :=
  hQ.leads_transaction <| (Keeps.read _).bind fun _ =>
    keeps_image_edit table (hQ.keeps_delete m condition) fun _ => hQ.begin

/-- All containers have the property after an upgrade that succeeds, if they had it before. -/
theorem leads_upgrade {body : Attempt Upgrade α} (hb : Keeps (fun u => u.image.Each Q) body) :
    Upgrade.Leads (fun i j => i.Each Q → j.Each Q) body := by
  intro i a u _ hr hi
  have hu := hb (Upgrade.start i (i.version + 1)) hi
  rw [hr] at hu
  exact hu.mapContainers hQ.commit

theorem makes {init : Attempt Upgrade Unit} (hb : Keeps (fun u => u.image.Each Q) init) :
    Upgrade.Makes (Image.Each Q) init := by
  intro u hr
  have hu := hb (Upgrade.start {} 1) (.empty 1 {})
  rw [hr] at hu
  exact hu.mapContainers hQ.commit

/-! ### What is stored -/

omit hQ in
theorem keeps_addRows {columns : List String} {rows : List (List Value)}
    (hrows : ∀ row ∈ rows, Admits Q (.ofList (columns.zip row))) : Keeps Q (Query.addRows columns rows) := by
  refine Keeps.forEach_of_mem fun row hrow => ?_
  rw [Query.addRow]
  split
  · exact (hrows row hrow).keeps_add
  · exact Keeps.fail _

theorem leads_insert {table : String} {columns : Option (List String)} {rows : List (List Value)}
    (hrows : ∀ columns : List String, ∀ row ∈ rows, Admits Q (.ofList (columns.zip row))) :
    Transaction.Leads (fun i j => i.Each Q → j.Each Q) (Query.insert table columns rows) :=
  hQ.leads_transaction <| (Keeps.read _).bind fun columns =>
    (keeps_image_edit table (keeps_addRows (hrows columns)) fun _ => hQ.begin).bind fun _ => Keeps.pure _

theorem keeps_putAll (name : String) {rs : List Record} (hrs : ∀ r ∈ rs, Admits Q r) :
    Keeps (fun u => u.image.Each Q) (Migration.putAll name rs) :=
  Keeps.forEach_of_mem fun r hr => hQ.keeps_edit name (hrs r hr).keeps_put

theorem structural : Upgrade.Structural fun u => u.image.Each Q :=
  ⟨fun _ => keeps_editCatalog _, fun _ => keeps_editCatalog _, hQ.keeps_create, keeps_drop⟩

/-- A migration stores the records that it brings, and those of a table that gets another name. -/
theorem keeps_migration {m : Migration} (hm : ∀ r ∈ m.records, Admits Q r)
    (hscan : ∀ c, Q c → ∀ r ∈ c.scan, Admits Q r) : Keeps (fun u => u.image.Each Q) m.run :=
  hQ.structural.keeps_migration (fun name r hr => hQ.keeps_edit name (hm r hr).keeps_add) fun hu hc name r hr =>
    hQ.keeps_edit name (hscan _ (Image.Each.of_find? hu hc) r hr).keeps_put

theorem leads_migrations {ms : List Migration} (hms : ∀ m ∈ ms, ∀ r ∈ m.records, Admits Q r)
    (hscan : ∀ c, Q c → ∀ r ∈ c.scan, Admits Q r) :
    Upgrade.Leads (fun i j => i.Each Q → j.Each Q) (Migration.runAll ms) :=
  hQ.leads_upgrade (Keeps.forEach_of_mem fun m hm => hQ.keeps_migration (hms m hm) hscan)

theorem makes_fill (hdemo : ∀ r ∈ Demo.employees ++ Demo.departments, Admits Q r)
    (hscan : ∀ c, Q c → ∀ r ∈ c.scan, Admits Q r) : Upgrade.Makes (Image.Each Q) Demo.fill := by
  have hcreate : ∀ m ∈ Demo.tables.map Migration.create, ∀ r ∈ m.records, Admits Q r := fun m hm => by
    obtain ⟨t, -, rfl⟩ := List.mem_map.1 hm
    exact fun _ hr => absurd hr List.not_mem_nil
  exact hQ.makes <| (Keeps.forEach_of_mem fun m hm => hQ.keeps_migration (hcreate m hm) hscan).bind fun _ =>
    (hQ.keeps_putAll _ fun r hr => hdemo r (List.mem_append_left _ hr)).bind fun _ =>
      hQ.keeps_putAll _ fun r hr => hdemo r (List.mem_append_right _ hr)

end Container.Hereditary

namespace Container.Steady

/-- Two steady properties together are steady. -/
theorem and {Q Q' : Container → Prop} (hQ : Steady Q) (hQ' : Steady Q') : Steady fun c => Q c ∧ Q' c where
  new name keyPath autoIncrement := ⟨hQ.new name keyPath autoIncrement, hQ'.new name keyPath autoIncrement⟩
  begin h := ⟨hQ.begin h.1, hQ'.begin h.2⟩
  commit h := ⟨hQ.commit h.1, hQ'.commit h.2⟩
  delete h hk := ⟨hQ.delete h.1 hk, hQ'.delete h.2 hk⟩
  admits r := ⟨fun h hadd => ⟨(hQ.admits r).add h.1 hadd, (hQ'.admits r).add h.2 hadd⟩,
    fun h hput => ⟨(hQ.admits r).put h.1 hput, (hQ'.admits r).put h.2 hput⟩⟩

variable {Q : Container → Prop} (hQ : Steady Q)
include hQ

/-! ## Changes of records -/

/-- **Operations on records keep a steady property.** -/
theorem keeps_run (op : RecordOp) : Keeps Q (.whole op.run) := by
  cases op with
  | add r => exact Container.keeps_whole_map Reply.key (hQ.admits r).add
  | put r => exact Container.keeps_whole_map Reply.key (hQ.admits r).put
  | get v =>
    refine Keeps.whole fun {c a d} hc h => ?_
    rw [RecordOp.run] at h
    split at h <;> cases h <;> exact hc
  | delete v =>
    refine Keeps.whole fun {c a d} hc h => ?_
    rw [RecordOp.run] at h
    split at h
    · rename_i hk
      cases h
      exact hQ.delete hc (Key.proper_of_ofValue? hk)
    · cases h
      exact hc
  | scan | size | changes | state => exact fun _ hc => hc

/-! ## Transactions -/

variable {α : Type}

theorem keeps_transaction (op : TransactionOp) : Keeps (Image.Each Q) op.run := by
  cases op with
  | on table op => exact Hereditary.keeps_image_edit table (hQ.keeps_run op) fun _ => hQ.begin
  | abort message => exact Keeps.fail _
  | has table => exact Keeps.read _
  | peek table => exact Keeps.read _
  | tables => exact Keeps.read _

/-! ## Upgrades -/

theorem keeps_migration (m : Migration) : Keeps (fun u => u.image.Each Q) m.run :=
  hQ.toHereditary.keeps_migration (fun r _ => hQ.admits r) fun _ _ r _ => hQ.admits r

theorem keeps_upgrade (op : UpgradeOp) : Keeps (fun u => u.image.Each Q) op.run :=
  hQ.structural.keeps_run hQ.keeps_migration fun _ => hQ.keeps_edit _ (hQ.keeps_run _)

theorem makes_fill : Upgrade.Makes (Image.Each Q) Demo.fill :=
  hQ.toHereditary.makes_fill (fun r _ => hQ.admits r) fun _ _ r _ => hQ.admits r

/-- **All containers keep a steady property through every request.** -/
theorem leads (r : Request) : r.Leads (Image.Each Q) fun i j => i.Each Q → j.Each Q := by
  have hm : ∀ ms, Upgrade.Leads (fun i j => i.Each Q → j.Each Q) (Migration.runAll ms) := fun ms =>
    hQ.toHereditary.leads_migrations (fun _ _ r _ => hQ.admits r) fun _ _ r _ => hQ.admits r
  have hs := Statement.leads_of_all hm (fun _ _ _ => hQ.toHereditary.leads_insert fun _ _ _ => hQ.admits _)
    hQ.toHereditary.leads_delete
  cases r with
  | run text => exact fun s _ => hs s
  | execute s => exact hs s
  | rename source target => exact hm _
  | migrate ms => exact hm ms
  | write steps => exact hQ.toHereditary.leads_transaction (Script.keeps_body hQ.keeps_transaction steps)
  | upgrade steps => exact hQ.toHereditary.leads_upgrade (Script.keeps_body hQ.keeps_upgrade steps)
  | openWith steps => exact hQ.toHereditary.makes (Script.keeps_body hQ.keeps_upgrade steps)
  | _ => trivial

end Container.Steady

/-! ## Records under their keys -/

namespace Container

/-- Records are in order, each under the key that its value in the key column is. -/
structure Keyed (c : Container) : Prop where
  ordered : c.Ordered
  key_eq : ∀ {k : Key} {r : Record}, (k, r) ∈ c.records.entries → Key.ofValue? (r.valueOf c.keyPath) = some k

variable {c d : Container} {k : Key} {r r' : Record}

/-- The record that is stored has the key under which it is stored. -/
theorem ofValue?_of_keyed (h : c.keyed r = .ok (k, r')) : Key.ofValue? (r'.valueOf c.keyPath) = some k := by
  unfold keyed at h
  split at h
  · split at h
    · cases h
      rw [Record.valueOf, Record.find?_setFirst_self]
      rfl
    · cases h
  · split at h
    · rename_i hk
      cases h
      exact hk
    · cases h

/-- A record with a value in the key column that is a key has that key. -/
theorem keyed_of_ofValue? (h : Key.ofValue? (r.valueOf c.keyPath) = some k) : c.keyed r = .ok (k, r) := by
  rw [keyed]
  split
  · rename_i hn
    rw [hn] at h
    cases h
  · rw [h]

/-- One more record under its own key. -/
theorem Keyed.insert (hc : c.Keyed) (h : c.keyed r = .ok (k, r')) (hr : d.records = c.records.insert k r')
    (hp : d.keyPath = c.keyPath) : d.Keyed := by
  have hk := keyed_proper h
  refine ⟨?_, fun {l s} hl => ?_⟩
  · rw [Ordered, hr]
    exact OrderedMap.Sorted.insert hc.ordered hk r'
  · rw [hr] at hl
    rw [hp]
    rcases (OrderedMap.mem_insertIn_iff hk hc.ordered).1 hl with he | ⟨hl, -⟩
    · cases he
      exact ofValue?_of_keyed h
    · exact hc.key_eq hl

theorem Keyed.of_records (hc : c.Keyed) (hr : d.records = c.records) (hp : d.keyPath = c.keyPath) : d.Keyed :=
  ⟨by rw [Ordered, hr]; exact hc.ordered, fun hl => by rw [hp]; exact hc.key_eq (hr ▸ hl)⟩

theorem Keyed.empty (name keyPath : String) (autoIncrement : Bool) (nextKey : Int64) :
    Keyed { name, keyPath, autoIncrement, nextKey } :=
  ⟨OrderedMap.sorted_empty, fun h => absurd h List.not_mem_nil⟩

/-- **Every change of records leaves them under their keys.** -/
theorem steady_keyed : Steady Keyed where
  new name keyPath autoIncrement := .empty name keyPath autoIncrement 1
  begin {c} hc := hc.of_records c.begin_records c.begin_keyPath
  commit hc := hc.of_records rfl rfl
  delete {c k} hc hk := by
    cases hr : c.records.find? k with
    | none =>
      rw [delete_of_none hr]
      exact hc
    | some r =>
      rw [delete_of_find? hr]
      exact ⟨OrderedMap.Sorted.erase hc.ordered hk, fun hl => hc.key_eq (OrderedMap.of_mem_eraseIn hl)⟩
  admits r := by
    constructor
    · intro c d k hc h
      unfold Container.add at h
      split at h
      · cases h
      · rename_i hk
        split at h
        · cases h
        · cases h
          exact hc.insert hk rfl rfl
    · intro c d k hc h
      unfold Container.put at h
      split at h
      · cases h
      · rename_i hk
        cases h
        exact hc.insert hk rfl rfl

/-- A record that is read from a store is put under its key. -/
theorem Keyed.restore (hc : c.Keyed) (h : c.restore r = .ok d) : d.Keyed := by
  unfold Container.restore at h
  split at h
  · cases h
  · rename_i hk
    cases h
    exact hc.insert hk rfl rfl

end Container

end TableStore
