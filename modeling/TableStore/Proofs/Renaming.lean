import TableStore.Proofs.Alignment
import TableStore.Proofs.Generator

/-!
# Tables that get other names

- the container of a table that gets another name is a new one with the same records (`Container.renewed`), whose
  generator has seen the keys of these and no others: it goes on from `Container.regained`;
- a table is followed through migrations by its name (`Migration.nameAfterAll`); all that migrations that succeed do to
  its container is that they renew it if the table gets another name on the way (`Migration.meets_finds_all`).
-/

namespace TableStore

open Attempt

/-! ## Renewed containers -/

namespace Container

/-- The next key of a new generator after the keys of all records. -/
def regained (c : Container) : Int64 := c.records.keys.foldl nextKeyAfter 1

/-- A new container of another name with the records of a container. -/
def renewed (c : Container) (name : String) : Container where
  name
  keyPath := c.keyPath
  autoIncrement := c.autoIncrement
  nextKey := if c.autoIncrement then c.regained else 1
  records := c.records

variable {c d : Container} {k : Key} {r r' : Record}

theorem le_foldl_nextKeyAfter : ∀ {ks : List Key} {next : Int64}, (∀ k ∈ ks, k.Proper) →
    next ≤ ks.foldl nextKeyAfter next
  | [], next, _ => Int64.le_refl next
  | k :: ks, next, hks => by
    obtain ⟨hk, hks⟩ := List.forall_mem_cons.1 hks
    exact Int64.le_trans (le_nextKeyAfter next hk) (le_foldl_nextKeyAfter hks)

theorem Ordered.one_le_regained (hc : c.Ordered) : 1 ≤ c.regained :=
  le_foldl_nextKeyAfter fun _ => hc.of_mem_keys

/-- Where no journal is open, storing records changes the records and the next key only. -/
theorem foldl_store (hd : d.journal = none) (es : List (Key × Record)) : es.foldl (fun d e => d.store e.1 e.2) d =
    { d with
      nextKey := if d.autoIncrement then (es.map Prod.fst).foldl nextKeyAfter d.nextKey else d.nextKey
      records := es.foldl (fun m e => m.insert e.1 e.2) d.records } := by
  induction es generalizing d with
  | nil => simp
  | cons e es ih =>
    have hstore : (d.store e.1 e.2).journal = none := by rw [store, note, hd]; rfl
    rw [List.foldl_cons, ih hstore]
    simp only [store, note, hd, List.map_cons, List.foldl_cons, Option.map_none]
    cases ha : d.autoIncrement <;> rfl

/-- Storing the records of a container in a new one renews it. -/
theorem Keyed.foldl_store_eq (hc : c.Keyed) (name : String) :
    c.records.entries.foldl (fun d e => d.store e.1 e.2)
      { name, keyPath := c.keyPath, autoIncrement := c.autoIncrement } = c.renewed name := by
  rw [foldl_store rfl, hc.ordered.foldl_entries]
  rfl

theorem Keyed.renewed (hc : c.Keyed) (name : String) : (c.renewed name).Keyed := hc.of_records rfl rfl

theorem put_of_keyed (h : c.keyed r = .ok (k, r')) : c.put r = .ok (k, c.store k r') := by rw [put, h]

end Container

/-! ## Containers in upgrades -/

namespace Upgrade

/-- The container of a name in an upgrade at work. -/
structure Finds (name : String) (c : Container) (u : Upgrade) : Prop where
  sorted : u.image.containers.Sorted fun _ => True
  created_sorted : u.created.Sorted fun _ => True
  found : u.image.find? name = some c

variable {name n : String} {c d : Container} {α : Type}

theorem finds_start {i : Image} (hi : i.WellFormed) (hc : i.find? name = some c) (v : Nat) : (start i v).Finds name c :=
  ⟨hi.sound.sorted, OrderedMap.sorted_empty, hc⟩

theorem Finds.set {u : Upgrade} (hu : u.Finds name c) (hn : n ≠ name) (d : Container)
    {created : OrderedMap String Unit} (hcreated : created.Sorted fun _ => True) :
    Finds name c { u with image := u.image.set n d, created } := by
  refine ⟨hu.sorted.insert trivial d, hcreated, ?_⟩
  show (u.image.set n d).find? name = _
  rw [Image.find?_set hu.sorted, if_neg hn.symm]
  exact hu.found

/-- Work on other containers leaves a container alone. -/
theorem keeps_finds_edit (hn : n ≠ name) (f : Attempt Container α) : Keeps (Finds name c) (edit n f) := by
  intro u hu
  simp only [edit, Image.edit]
  cases hf : u.image.find? n with
  | none => exact hu
  | some d => exact hu.set hn _ hu.created_sorted

/-- Only containers of other names can be created beside a container. -/
theorem meets_finds_create (n keyPath : String) (autoIncrement : Bool) :
    Meets (Finds name c) (create n keyPath autoIncrement)
      (fun _ u => n ≠ name ∧ u.Finds name c ∧ u.Finds n { name := n, keyPath, autoIncrement } ∧ u.created.contains n)
      fun _ => True := by
  intro u hu
  rw [create]
  split
  · rename_i h
    split at h
    · cases h
    · rename_i hcontains
      cases h
      have hn : n ≠ name := by
        rintro rfl
        rw [Image.contains_eq_isSome, hu.found] at hcontains
        exact hcontains rfl
      have hcreated := hu.created_sorted.insert (k := n) trivial ()
      refine ⟨hn, hu.set hn _ hcreated, ⟨hu.sorted.insert trivial _, hcreated, ?_⟩, ?_⟩
      · show (u.image.set n _).find? n = _
        rw [Image.find?_set hu.sorted, if_pos rfl]
      · show (u.created.insert n ()).contains n = true
        rw [OrderedMap.contains_eq_isSome, hu.created_sorted.find?_insert trivial () trivial, if_pos rfl]
        rfl
  · trivial

theorem keeps_finds_delete (hn : n ≠ name) : Keeps (Finds name c) (delete n) := by
  intro u hu
  have hfound : (u.without n).image.find? name = some c := by
    show (u.image.containers.erase n).find? name = _
    rw [hu.sorted.find?_erase trivial trivial, if_neg hn.symm]
    exact hu.found
  rw [delete]
  split
  · exact hu
  · split
    · exact ⟨hu.sorted.erase trivial, hu.created_sorted.erase trivial, hfound⟩
    · exact ⟨hu.sorted.erase trivial, hu.created_sorted, hfound⟩

theorem keeps_finds_editCatalog (f : Catalog → Catalog) : Keeps (Finds name c) (editCatalog f) := fun _ hu =>
  ⟨hu.sorted, hu.created_sorted, hu.found⟩

/-- A record is put under its key in a container that was created. -/
theorem meets_finds_put {k : Key} {r : Record} (h : c.keyed r = .ok (k, r)) :
    Meets (fun u => u.Finds name c ∧ u.created.contains name)
      (edit name (.whole fun c => (c.put r).map fun kc => ((), kc.2)))
      (fun _ u => u.Finds name (c.store k r) ∧ u.created.contains name) fun _ => True := by
  intro u ⟨hu, hc⟩
  have hready : u.ready name c = c := by rw [ready, if_pos hc, id]
  simp only [edit, Image.edit, hu.found, hready, Attempt.whole, Container.put_of_keyed h, Except.map]
  refine ⟨⟨hu.sorted.insert trivial _, hu.created_sorted, ?_⟩, hc⟩
  show (u.image.set name _).find? name = _
  rw [Image.find?_set hu.sorted, if_pos rfl]

end Upgrade

/-! ## Migrations -/

namespace Migration

open Upgrade

/-- The name of a table after a migration, if it is not dropped. -/
def nameAfter (name : String) : Migration → Option String
  | .drop n => if n = name then none else some name
  | .rename source target => if source = name then some target else some name
  | .create _ => some name
  | .load _ _ => some name

/-- The name of a table after migrations, if it is not dropped. -/
def nameAfterAll : List Migration → String → Option String
  | [], name => some name
  | m :: ms, name => (m.nameAfter name).bind (nameAfterAll ms)

/-- Whether a table gets another name by migrations on the way. -/
def moves : List Migration → String → Bool
  | [], _ => false
  | m :: ms, name => (m.nameAfter name).any fun n => n ≠ name || moves ms n

variable {name name' : String} {c : Container}

theorem name_eq_of_not_moves : ∀ {ms : List Migration} {name : String}, moves ms name = false →
    nameAfterAll ms name = some name' → name' = name
  | [], _, _, h => (Option.some.inj h).symm
  | m :: ms, name, hm, h => by
    obtain ⟨n, hn, hms⟩ := Option.bind_eq_some_iff.1 h
    rw [moves, hn, Option.any_some, Bool.or_eq_false_iff, decide_eq_false_iff_not, not_not] at hm
    obtain ⟨rfl, hm⟩ := hm
    exact name_eq_of_not_moves hm hms

/-- Records that are put one after another under their own keys. -/
theorem meets_finds_putAll : ∀ {es : List (Key × Record)} {c : Container},
    (∀ e ∈ es, Key.ofValue? (e.2.valueOf c.keyPath) = some e.1) →
    Meets (fun u => u.Finds name c ∧ u.created.contains name) (putAll name (es.map Prod.snd))
      (fun _ u => u.Finds name (es.foldl (fun d e => d.store e.1 e.2) c) ∧ u.created.contains name) fun _ => True
  | [], _, _ => Meets.pure fun _ hu => hu
  | e :: es, c, h => by
    obtain ⟨he, hes⟩ := List.forall_mem_cons.1 h
    exact (meets_finds_put (Container.keyed_of_ofValue? he)).bind fun _ => meets_finds_putAll hes

/-- Other records are changed beside a container. -/
theorem meets_finds_beside {n : String} {f : Attempt Upgrade Unit} (hf : n ≠ name → Keeps (Finds name c) f)
    (keyPath : String) (autoIncrement : Bool) :
    Meets (Finds name c) (Upgrade.create n keyPath autoIncrement >>= fun _ => f) (fun _ => Finds name c)
      fun _ => True :=
  (meets_finds_create n keyPath autoIncrement).bind fun _ u ⟨hn, hu, _⟩ =>
    (hf hn).meets.imp (fun _ h => h) (fun _ _ h => h) (fun _ _ => trivial) u hu

/-- A table gets another name. -/
theorem meets_finds_renamed (hc : c.Keyed) (source : String) (t : Table) :
    Meets (Finds source c)
      (Upgrade.create t.name c.keyPath c.autoIncrement >>= fun _ => putAll t.name c.scan >>= fun _ =>
        Upgrade.delete source >>= fun _ => editCatalog fun catalog => (catalog.erase source).put t)
      (fun _ => Finds t.name (c.renewed t.name)) fun _ => True := by
  refine (meets_finds_create t.name c.keyPath c.autoIncrement).bind fun _ u ⟨hn, _, hu⟩ => ?_
  have hput : Meets (fun u => u.Finds t.name ⟨t.name, c.keyPath, c.autoIncrement, 1, .empty, none⟩ ∧
      u.created.contains t.name) (putAll t.name c.scan)
      (fun _ u => u.Finds t.name (c.renewed t.name) ∧ u.created.contains t.name) fun _ => True := by
    rw [← hc.foldl_store_eq]
    exact meets_finds_putAll fun e he => hc.key_eq he
  refine (hput.bind fun _ => ?_) u hu
  have hrest : Keeps (Finds t.name (c.renewed t.name)) (Upgrade.delete source >>= fun _ =>
      editCatalog fun catalog => (catalog.erase source).put t) :=
    (keeps_finds_delete hn.symm).bind fun _ => keeps_finds_editCatalog _
  exact hrest.meets.imp (fun _ h => h.1) (fun _ _ h => h) fun _ _ => trivial

/-- **A migration leaves the container of a table as it is**, or renews it if the table gets another name. -/
theorem meets_finds (m : Migration) (hc : c.Keyed) (hm : m.nameAfter name = some name') :
    Meets (Finds name c) m.run (fun _ => Finds name' (if name' = name then c else c.renewed name')) fun _ => True := by
  -- other tables
  have hbeside : name' = name → Meets (Finds name c) m.run (fun _ => Finds name c) (fun _ => True) →
      Meets (Finds name c) m.run (fun _ => Finds name' (if name' = name then c else c.renewed name'))
        fun _ => True := by
    rintro rfl h
    simpa only [if_pos] using h
  cases m with
  | create table =>
    cases hm
    refine hbeside rfl ((Meets.read fun _ _ => trivial).bind fun keyPath u ⟨hu, _⟩ => ?_)
    exact meets_finds_beside (fun _ => keeps_finds_editCatalog _) keyPath true u hu
  | load table records =>
    cases hm
    refine hbeside rfl ((Meets.read fun _ _ => trivial).bind fun keyPath u ⟨hu, _⟩ => ?_)
    refine meets_finds_beside (fun hn => ?_) keyPath false u hu
    exact (Keeps.forEach (fun r => keeps_finds_edit hn _) records).bind fun _ => keeps_finds_editCatalog _
  | drop n =>
    rw [nameAfter] at hm
    split at hm
    · cases hm
    · rename_i hn
      cases hm
      have hkeeps : Keeps (Finds name c) (Migration.drop n).run :=
        (keeps_finds_delete hn).bind fun _ => keeps_finds_editCatalog _
      exact hbeside rfl (hkeeps.meets.imp (fun _ h => h) (fun _ _ h => h) fun _ _ => trivial)
  | rename source target =>
    refine (Meets.read fun _ _ => trivial).bind fun parts u ⟨hu, hparts⟩ => ?_
    rw [nameAfter] at hm
    match parts, hparts with
    | none, hparts =>
      have hsame : source = target := by
        unfold renameParts at hparts
        split at hparts
        · cases hparts
        · split at hparts
          · assumption
          · split at hparts
            · cases hparts
            · split at hparts <;> cases hparts
      have hname : name' = name := by
        split at hm <;> cases hm
        · exact hsame.symm.trans ‹_›
        · rfl
      rw [if_pos hname, hname]
      exact hu
    | some (table, d), hparts =>
      obtain ⟨hne, -, hd⟩ := of_renameParts hparts
      split at hm
      · rename_i hs
        obtain rfl := Option.some.inj hm
        obtain rfl := hs
        obtain rfl : d = c := Option.some.inj (hd.symm.trans hu.found)
        rw [if_neg hne.symm]
        exact meets_finds_renamed hc source ⟨target, table.columns⟩ u hu
      · rename_i hs
        obtain rfl := Option.some.inj hm
        rw [if_pos rfl]
        refine meets_finds_beside (n := target) (fun hn => ?_) d.keyPath d.autoIncrement u hu
        exact (Keeps.forEach (fun r => keeps_finds_edit hn _) d.scan).bind fun _ =>
          (keeps_finds_delete hs).bind fun _ => keeps_finds_editCatalog _

/-- **Migrations leave the container of a table as it is**, or renew it if the table gets another name on the way. -/
theorem meets_finds_all : ∀ {ms : List Migration} {name : String} {c : Container}, c.Keyed →
    nameAfterAll ms name = some name' →
    Meets (Finds name c) (runAll ms) (fun _ => Finds name' (if moves ms name then c.renewed name' else c)) fun _ => True
  | [], _, _, _, h => by
    cases h
    exact Meets.pure fun _ hu => hu
  | m :: ms, name, c, hc, h => by
    obtain ⟨n, hn, hms⟩ := Option.bind_eq_some_iff.1 h
    refine (meets_finds m hc hn).bind fun _ => ?_
    rw [moves, hn, Option.any_some]
    by_cases he : n = name
    · subst he
      rw [if_pos rfl, decide_eq_false (not_not.2 rfl), Bool.false_or]
      exact meets_finds_all hc hms
    · have hrest := meets_finds_all (hc.renewed n) hms
      rw [if_neg he, decide_eq_true he, Bool.true_or, if_pos rfl]
      cases hm : moves ms n with
      | true =>
        rw [hm, if_pos rfl] at hrest
        exact hrest
      | false =>
        rw [hm] at hrest
        rw [name_eq_of_not_moves hm hms] at hrest ⊢
        exact hrest

end Migration

end TableStore
