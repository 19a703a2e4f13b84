import TableStore.Proofs.Tracking
import Mathlib.Logic.Function.Basic

/-!
# The catalog and the containers

- an image is `Aligned` when the tables of its catalog are those that have a container, and the key column of each
  container is the first column of the table;
- each operation of an upgrade changes the `Outline` of the image, the columns of all tables and the key columns of all
  containers, at one name on one side only; a migration that succeeds has changed both sides alike
  (`Migration.meets_aligned`);
- what migrations and transactions lead to, requests lead to that change tables by migrations only
  (`Request.Migrates.leads_of_migrations`);
- so whatever is asked of an engine, but for units that work on the catalog and the containers themselves, its live
  image is aligned (`Engine.catalog_and_containers_agree`).
-/

namespace TableStore

open Attempt

/-! ## Outlines -/

/-- The columns of the tables in the catalog, and the key columns of the containers. -/
structure Image.Outline (columns : String → Option (List String)) (keyPaths : String → Option String) (i : Image) :
    Prop where
  sorted : i.containers.Sorted fun _ => True
  filed : i.catalog.Filed
  columns_eq : ∀ name, (i.catalog.find? name).map Table.columnNames = columns name
  keyPaths_eq : ∀ name, (i.find? name).map Container.keyPath = keyPaths name

/-- Tables have their first column as the key column of their container, and there are no other containers. -/
def Image.Aligned (i : Image) : Prop :=
  ∀ name, ((i.catalog.find? name).map Table.columnNames).map List.head? =
    ((i.find? name).map Container.keyPath).map some

namespace Image

variable {i j : Image} {columns : String → Option (List String)} {keyPaths : String → Option String}

theorem Outline.aligned_iff (h : i.Outline columns keyPaths) :
    i.Aligned ↔ ∀ name, (columns name).map List.head? = (keyPaths name).map some := by
  simp only [Aligned, h.columns_eq, h.keyPaths_eq]

theorem outline (hs : i.containers.Sorted fun _ => True) (hf : i.catalog.Filed) :
    i.Outline (fun name => (i.catalog.find? name).map Table.columnNames)
      fun name => (i.find? name).map Container.keyPath :=
  ⟨hs, hf, fun _ => rfl, fun _ => rfl⟩

theorem Outline.set (h : i.Outline columns keyPaths) (name : String) (c : Container) :
    (i.set name c).Outline columns (Function.update keyPaths name (some c.keyPath)) := by
  refine ⟨h.sorted.insert trivial c, h.filed, h.columns_eq, fun n => ?_⟩
  rw [find?_set h.sorted, Function.update_apply]
  split
  · rfl
  · exact h.keyPaths_eq n

/-- Alignment is all about names, first columns and key columns. -/
theorem reloads_aligned : Reloads Aligned := by
  intro i j hi h _ _ name
  have hpaths := congrArg (Option.map Prod.fst) (h.frames name)
  rw [Option.map_map, Option.map_map] at hpaths
  have hframe : Prod.fst ∘ Container.frame = Container.keyPath := rfl
  rw [hframe] at hpaths
  rw [← h.columns name, ← hpaths]
  exact hi name

theorem Aligned.mapContainers (h : i.Aligned) {f : Container → Container} (hf : ∀ c, (f c).keyPath = c.keyPath) :
    (i.mapContainers f).Aligned := by
  intro name
  have hkeys : Container.keyPath ∘ f = Container.keyPath := funext hf
  show _ = (((i.containers.mapValues f).find? name).map Container.keyPath).map some
  rw [OrderedMap.find?_mapValues, Option.map_map Container.keyPath, hkeys]
  exact h name

theorem aligned_empty (version : Nat) : Aligned { version } := fun _ => rfl

end Image

/-! ## Transactions -/

namespace Transaction

variable {i j : Image} {α : Type}

/-- A transaction at work has changed records of containers, and nothing else. -/
theorem Working.find? (hj : Working i j) (name : String) :
    i.find? name = none ∧ j.find? name = none ∨
      ∃ c d ks, i.find? name = some c ∧ j.find? name = some d ∧ c.Settled name ∧ c.Since ks d := by
  obtain ⟨h, hj⟩ := hj
  have hfate : Fate (.exact name (h.touched name) (h.missing name)) (i.find? name) false none (j.find? name) :=
    hj.upgrade.fate name
  cases hi : i.find? name with
  | none =>
    rw [hi] at hfate
    cases hd : j.find? name with
    | none => exact .inl ⟨rfl, rfl⟩
    | some d =>
      rw [hd] at hfate
      cases hfate
  | some c =>
    rw [hi] at hfate
    cases hd : j.find? name with
    | none =>
      rw [hd] at hfate
      cases hfate
    | some d =>
      rw [hd] at hfate
      cases hfate with
      | kept hk => exact .inr ⟨c, d, _, rfl, rfl, hk.1, hk.2.1⟩

theorem Working.aligned (hj : Working i j) (ha : i.Aligned) : (finished j).Aligned := by
  have hcatalog : j.catalog = i.catalog := by
    obtain ⟨h, hj⟩ := hj
    exact hj.catalog
  have hj' : j.Aligned := by
    intro name
    rw [hcatalog, ha name]
    rcases hj.find? name with ⟨hi, hn⟩ | ⟨c, d, ks, hi, hd, -, hs⟩
    · rw [hi, hn]
    · rw [hi, hd, Option.map_some, Option.map_some, Option.map_some, Option.map_some, hs.keyPath_eq]
  exact hj'.mapContainers fun _ => rfl

/-- A transaction leads where everything leads that it can come to. -/
theorem leads_of_working {D : Image → Image → Prop} {body : Attempt Image α} (hb : ∀ i, Keeps (Working i) body)
    (hD : ∀ i j, i.WellFormed → Working i j → D i (finished j)) : Leads D body := by
  intro i a j hi hr
  have hj := hb i i ⟨_, .start hi.sound⟩
  rw [hr] at hj
  exact hD i j hi hj

end Transaction

/-! ## Upgrades -/

namespace Upgrade

variable {columns : String → Option (List String)} {keyPaths : String → Option String} {α : Type}

/-- Records of a container can be changed without a change of the outline. -/
theorem keeps_outline_edit (name : String) {f : Attempt Container α} (hf : Edits f) :
    Keeps (fun u => u.image.Outline columns keyPaths) (edit name f) := by
  intro u hu
  simp only [edit, Image.edit]
  cases hc : u.image.find? name with
  | none => exact hu
  | some c =>
    obtain ⟨ks, hks⟩ := hf.edited (u.ready name c)
    have hset := hu.set name (f (u.ready name c)).2
    have hready : (u.ready name c).keyPath = c.keyPath := by
      rw [ready]
      split
      · rfl
      · exact c.begin_keyPath
    have hpath : keyPaths name = some c.keyPath := by rw [← hu.keyPaths_eq, hc, Option.map_some]
    rwa [hks.shape_eq.2.1, hready, ← hpath, Function.update_eq_self] at hset

theorem meets_outline_create (name keyPath : String) (autoIncrement : Bool) :
    Meets (fun u => u.image.Outline columns keyPaths) (create name keyPath autoIncrement)
      (fun _ u => u.image.Outline columns (Function.update keyPaths name (some keyPath))) fun _ => True := by
  intro u hu
  rw [create]
  split
  · rename_i h
    split at h
    · cases h
    · cases h
      exact hu.set name { name, keyPath, autoIncrement }
  · trivial

theorem meets_outline_delete (name : String) :
    Meets (fun u => u.image.Outline columns keyPaths) (delete name)
      (fun _ u => u.image.Outline columns (Function.update keyPaths name none)) fun _ => True := by
  intro u hu
  rw [delete]
  cases hc : u.image.find? name with
  | none =>
    have hnone : keyPaths name = none := by rw [← hu.keyPaths_eq, hc, Option.map_none]
    rw [← hnone, Function.update_eq_self]
    exact hu
  | some c =>
    have hwithout : (u.without name).image.Outline columns (Function.update keyPaths name none) := by
      refine ⟨hu.sorted.erase trivial, hu.filed, hu.columns_eq, fun n => ?_⟩
      show ((u.image.containers.erase name).find? n).map Container.keyPath = _
      rw [hu.sorted.find?_erase trivial trivial, Function.update_apply]
      split
      · rfl
      · exact hu.keyPaths_eq n
    dsimp only
    split <;> rename_i h <;> split at h <;> cases h <;> exact hwithout

theorem meets_outline_put (t : Table) :
    Meets (fun u => u.image.Outline columns keyPaths) (editCatalog (·.put t))
      (fun _ u => u.image.Outline (Function.update columns t.name (some t.columnNames)) keyPaths) fun _ => True := by
  intro u hu
  refine ⟨hu.sorted, hu.filed.put t, fun n => ?_, hu.keyPaths_eq⟩
  show ((u.image.catalog.tables.insert t.name t).find? n).map Table.columnNames = _
  rw [hu.filed.sorted.find?_insert trivial t trivial, Function.update_apply]
  split
  · rfl
  · exact hu.columns_eq n

theorem meets_outline_erase (name : String) :
    Meets (fun u => u.image.Outline columns keyPaths) (editCatalog (·.erase name))
      (fun _ u => u.image.Outline (Function.update columns name none) keyPaths) fun _ => True := by
  intro u hu
  refine ⟨hu.sorted, hu.filed.erase name, fun n => ?_, hu.keyPaths_eq⟩
  show ((u.image.catalog.tables.erase name).find? n).map Table.columnNames = _
  rw [hu.filed.sorted.find?_erase trivial trivial, Function.update_apply]
  split
  · rfl
  · exact hu.columns_eq n

theorem meets_outline_move (source : String) (t : Table) :
    Meets (fun u => u.image.Outline columns keyPaths) (editCatalog fun catalog => (catalog.erase source).put t)
      (fun _ u => u.image.Outline (Function.update (Function.update columns source none) t.name (some t.columnNames))
        keyPaths) fun _ => True :=
  fun u hu => meets_outline_put t _ (meets_outline_erase source u hu)

/-- An upgrade at work on an aligned image. -/
structure Aligned (u : Upgrade) : Prop where
  sorted : u.image.containers.Sorted fun _ => True
  filed : u.image.catalog.Filed
  aligned : u.image.Aligned

theorem Aligned.outline {u : Upgrade} (hu : u.Aligned) :
    u.image.Outline (fun name => (u.image.catalog.find? name).map Table.columnNames)
      fun name => (u.image.find? name).map Container.keyPath :=
  Image.outline hu.sorted hu.filed

theorem Aligned.of_outline {u : Upgrade} (h : u.image.Outline columns keyPaths)
    (hm : ∀ name, (columns name).map List.head? = (keyPaths name).map some) : u.Aligned :=
  ⟨h.sorted, h.filed, h.aligned_iff.2 hm⟩

/-- Both sides are changed alike at one name. -/
theorem matching_update (hm : ∀ name, (columns name).map List.head? = (keyPaths name).map some) (name : String)
    {cs : Option (List String)} {keyPath : Option String} (hk : cs.map List.head? = keyPath.map some) (n : String) :
    (Function.update columns name cs n).map List.head? = (Function.update keyPaths name keyPath n).map some := by
  rw [Function.update_apply, Function.update_apply]
  split
  · exact hk
  · exact hm n

end Upgrade

namespace Migration

open Upgrade

variable {columns : String → Option (List String)} {keyPaths : String → Option String}

theorem head?_of_newKeyPath {table : Table} {u : Upgrade} {keyPath : String} (h : newKeyPath table u = .ok keyPath) :
    table.columnNames.head? = some keyPath := by
  unfold newKeyPath at h
  split at h
  · cases h
  · rename_i key hkey
    split at h
    · cases h
    · cases h
      rw [Table.columnNames, List.head?_map]
      exact congrArg (Option.map Column.name) hkey

theorem keeps_outline_putAll (name : String) (rs : List Record) :
    Keeps (fun u => u.image.Outline columns keyPaths) (putAll name rs) :=
  Keeps.forEach (fun r => keeps_outline_edit name (.whole_put r)) rs

theorem keeps_outline_addAll (name : String) (rs : List Record) :
    Keeps (fun u => u.image.Outline columns keyPaths) (addAll name rs) :=
  Keeps.forEach (fun r => keeps_outline_edit name (.whole_add r)) rs

/-- A new table and its container, with whatever is done to records in between. -/
theorem meets_outline_new (table : Table) (keyPath : String) (autoIncrement : Bool) {fillIn : Attempt Upgrade Unit}
    (hf : ∀ columns keyPaths, Keeps (fun u => u.image.Outline columns keyPaths) fillIn) :
    Meets (fun u => u.image.Outline columns keyPaths)
      (Upgrade.create table.name keyPath autoIncrement >>= fun _ => fillIn >>= fun _ => editCatalog (·.put table))
      (fun _ u => u.image.Outline (Function.update columns table.name (some table.columnNames))
        (Function.update keyPaths table.name (some keyPath))) fun _ => True :=
  (meets_outline_create table.name keyPath autoIncrement).bind fun _ =>
    ((hf _ _).meets.imp (fun _ h => h) (fun _ _ h => h) fun _ _ => trivial).bind fun _ => meets_outline_put table

/-- A container under a new name, in place of the one under the old name. -/
theorem meets_outline_renamed (source : String) (t : Table) (keyPath : String) (autoIncrement : Bool)
    (rs : List Record) :
    Meets (fun u => u.image.Outline columns keyPaths)
      (Upgrade.create t.name keyPath autoIncrement >>= fun _ => putAll t.name rs >>= fun _ =>
        Upgrade.delete source >>= fun _ => editCatalog fun catalog => (catalog.erase source).put t)
      (fun _ u => u.image.Outline (Function.update (Function.update columns source none) t.name (some t.columnNames))
        (Function.update (Function.update keyPaths t.name (some keyPath)) source none)) fun _ => True :=
  (meets_outline_create t.name keyPath autoIncrement).bind fun _ =>
    ((keeps_outline_putAll t.name rs).meets.imp (fun _ h => h) (fun _ _ h => h) fun _ _ => trivial).bind fun _ =>
      (meets_outline_delete source).bind fun _ => meets_outline_move source t

/-- What changes the outline alike on both sides keeps an image aligned. -/
theorem meets_aligned_of_outline {x : Attempt Upgrade Unit} {u : Upgrade} (hu : u.Aligned)
    {columns' : String → Option (List String)} {keyPaths' : String → Option String}
    (h : Meets (fun u => u.image.Outline columns keyPaths) x (fun _ u => u.image.Outline columns' keyPaths')
      fun _ => True)
    (ho : u.image.Outline columns keyPaths)
    (hm : (∀ name, (columns name).map List.head? = (keyPaths name).map some) →
      ∀ name, (columns' name).map List.head? = (keyPaths' name).map some) :
    Meets (fun v => v = u) x (fun _ => Upgrade.Aligned) fun _ => True :=
  h.imp (fun _ hv => hv ▸ ho) (fun _ _ hv => .of_outline hv (hm (ho.aligned_iff.1 hu.aligned))) fun _ _ => trivial

/-- **A migration that succeeds leaves the catalog and the containers aligned.** -/
theorem meets_aligned (m : Migration) : Meets Upgrade.Aligned m.run (fun _ => Upgrade.Aligned) fun _ => True := by
  cases m with
  | create table =>
    refine (Meets.read fun _ _ => trivial).bind fun keyPath u ⟨hu, hk⟩ => ?_
    exact meets_aligned_of_outline hu (meets_outline_new table keyPath true fun _ _ => Keeps.pure ()) hu.outline
      (fun hm => matching_update hm table.name (congrArg some (head?_of_newKeyPath hk))) u rfl
  | drop name =>
    intro u hu
    exact meets_aligned_of_outline hu ((meets_outline_delete name).bind fun _ => meets_outline_erase name) hu.outline
      (fun hm => matching_update hm name rfl) u rfl
  | rename source target =>
    refine (Meets.read fun _ _ => trivial).bind fun parts u ⟨hu, hparts⟩ => ?_
    match parts, hparts with
    | none, _ => exact hu
    | some (table, c), hparts =>
      obtain ⟨hne, htable, hc⟩ := of_renameParts hparts
      have hhead : (some table.columnNames).map List.head? = (some c.keyPath).map some := by
        have := hu.aligned source
        rwa [htable, hc] at this
      refine meets_aligned_of_outline hu
        (meets_outline_renamed source ⟨target, table.columns⟩ c.keyPath c.autoIncrement c.scan) hu.outline
        (fun hm => ?_) u rfl
      -- the old name is taken out and the new one put in, in one order here and in the other there
      rw [Function.update_comm hne.symm]
      exact matching_update (matching_update hm source rfl) target hhead
  | load table records =>
    refine (Meets.read fun _ _ => trivial).bind fun keyPath u ⟨hu, hk⟩ => ?_
    exact meets_aligned_of_outline hu
      (meets_outline_new table keyPath false fun _ _ => keeps_outline_addAll table.name records) hu.outline
      (fun hm => matching_update hm table.name (congrArg some (head?_of_newKeyPath hk))) u rfl

theorem meets_aligned_all (ms : List Migration) :
    Meets Upgrade.Aligned (runAll ms) (fun _ => Upgrade.Aligned) fun _ => True :=
  Meets.forEach meets_aligned ms

theorem meets_aligned_putAll (name : String) (rs : List Record) :
    Meets Upgrade.Aligned (putAll name rs) (fun _ => Upgrade.Aligned) fun _ => True := by
  have hkeeps : Keeps Upgrade.Aligned (putAll name rs) := fun u hu =>
    .of_outline (keeps_outline_putAll name rs u hu.outline) (hu.outline.aligned_iff.1 hu.aligned)
  exact hkeeps.meets.imp (fun _ h => h) (fun _ _ h => h) fun _ _ => trivial

end Migration

namespace Upgrade

/-- What leads from aligned images at work to aligned images at work leads from aligned images to aligned images. -/
theorem leads_aligned {body : Attempt Upgrade α} (hb : Meets Aligned body (fun _ => Aligned) fun _ => True) :
    Leads (fun i j => i.Aligned → j.Aligned) body := by
  intro i a u hi hr ha
  have hu := hb (start i (i.version + 1)) ⟨hi.sound.sorted, hi.filed, ha⟩
  rw [hr] at hu
  exact hu.aligned.mapContainers fun _ => rfl

theorem makes_aligned {init : Attempt Upgrade Unit} (hb : Meets Aligned init (fun _ => Aligned) fun _ => True) :
    Makes Image.Aligned init := by
  intro u hr
  have hu := hb (start {} 1) ⟨OrderedMap.sorted_empty, .empty, Image.aligned_empty 1⟩
  rw [hr] at hu
  exact hu.aligned.mapContainers fun _ => rfl

end Upgrade

/-- The demo tables are aligned with their containers. -/
theorem Demo.makes_aligned : Upgrade.Makes Image.Aligned fill :=
  Upgrade.makes_aligned <| (Migration.meets_aligned_all _).bind fun _ => (Migration.meets_aligned_putAll _ _).bind
    fun _ => Migration.meets_aligned_putAll _ _

/-! ## Requests -/

/-- The migrations that a statement makes. -/
def Statement.migrations : Statement → List Migration
  | .create table => [.create table]
  | .createAs name rows =>
    match literalTable name rows with
    | .ok (table, records) => [.load table records]
    | .error _ => []
  | .drop name => [.drop name]
  | .select .. => []
  | .insert .. => []
  | .delete .. => []

namespace Request

/-- The statement that a request carries out, if it is to carry out one. -/
def statement? : Request → Option Statement
  | .run text => (Statement.parse text).toOption
  | .execute s => some s
  | _ => none

/-- The migrations that a request makes. -/
def migrations : Request → List Migration
  | .rename source target => [.rename source target]
  | .migrate ms => ms
  | r => (r.statement?.map Statement.migrations).getD []

/-- A request that changes which tables there are by migrations only. -/
def Migrates : Request → Prop
  | .upgrade _ | .openWith _ => False
  | _ => True

end Request

section Leads

variable {C : Image → Prop} {D : Image → Image → Prop}

/-- A statement leads where its migrations do, or where transactions do if it makes none. -/
theorem Statement.leads_of_migrations {s : Statement} (hm : Upgrade.Leads D (Migration.runAll s.migrations))
    (hw : s.migrations = [] → ∀ {body : Attempt Image Nat}, (∀ i, Keeps (Transaction.Working i) body) →
      Transaction.Leads D body) : s.Leads D := by
  cases s with
  | create table => exact hm
  | createAs name rows =>
    intro table records ht
    rwa [migrations, ht] at hm
  | drop name => exact hm
  | select => trivial
  | insert table columns rows => exact hw rfl fun _ => Query.keeps_insert table columns rows
  | delete table condition =>
    cases condition with
    | none => trivial
    | some condition => exact fun m => hw rfl fun _ => Query.keeps_delete m table condition

/-- A request leads where its migrations do, or where transactions do if it makes none. -/
theorem Request.Migrates.leads_of_migrations {r : Request} (h : r.Migrates)
    (hm : Upgrade.Leads D (Migration.runAll r.migrations))
    (hw : r.migrations = [] → ∀ {α : Type} {body : Attempt Image α}, (∀ i, Keeps (Transaction.Working i) body) →
      Transaction.Leads D body) : r.Leads C D := by
  cases r with
  | run text =>
    intro s hs
    have he : (Request.run text).migrations = s.migrations := by
      show ((statement? (.run text)).map Statement.migrations).getD [] = _
      rw [statement?, hs]
      rfl
    rw [he] at hm hw
    exact Statement.leads_of_migrations hm fun hn => hw hn
  | execute s => exact Statement.leads_of_migrations hm fun hn => hw hn
  | rename source target => exact hm
  | migrate ms => exact hm
  | write steps => exact hw rfl fun _ => Script.keeps_body (fun op => op.keeps_working) steps
  | upgrade steps => exact h.elim
  | openWith steps => exact h.elim
  | _ => trivial

end Leads

/-- Requests that change tables by migrations only lead from aligned images to aligned images. -/
theorem Request.Migrates.leads {r : Request} (h : r.Migrates) :
    r.Leads Image.Aligned fun i j => i.Aligned → j.Aligned :=
  h.leads_of_migrations (Upgrade.leads_aligned (Migration.meets_aligned_all _)) fun _ _ _ hb =>
    Transaction.leads_of_working hb fun _ _ _ hj => hj.aligned

namespace Engine

/-- **The catalog and the containers never drift apart.** After every run of requests over a new store that change
tables by migrations only, whichever of them and of the commits fail: there is a container for each table of the
catalog and no other, both are under their own names, every table has a column, and the first one is the key column of
its container. -/
theorem catalog_and_containers_agree {e : Engine} (he : e.IsNew) {rs : List Request} (hrs : ∀ r ∈ rs, r.Migrates)
    {i : Image} (hi : (after rs e).session.live = some i) :
    (∀ name, i.catalog.contains name = i.contains name) ∧
      (∀ name t, i.catalog.find? name = some t → t.name = name ∧ t.columns ≠ []) ∧
      (∀ name c, i.find? name = some c → c.name = name) ∧
      ∀ name t c, i.catalog.find? name = some t → i.find? name = some c → t.columnNames.head? = some c.keyPath := by
  obtain ⟨hw, ha⟩ := live_after Demo.makes_aligned (Image.aligned_empty 1) Image.reloads_aligned
    (fun r hr => (hrs r hr).leads) he hi
  have hsame : ∀ name, i.catalog.contains name = i.contains name := by
    intro name
    have := congrArg Option.isSome (ha name)
    simp only [Option.isSome_map] at this
    rwa [Image.contains_eq_isSome, Catalog.contains, OrderedMap.contains_eq_isSome]
  have hkey : ∀ name t c, i.catalog.find? name = some t → i.find? name = some c →
      t.columnNames.head? = some c.keyPath := by
    intro name t c ht hc
    have := ha name
    rw [ht, hc] at this
    exact Option.some.inj this
  refine ⟨hsame, fun name t ht => ⟨hw.filed.name_eq ht, fun hnil => ?_⟩, fun name c hc =>
    (hw.sound.settled hc).name_eq, hkey⟩
  have hthere := hsame name
  rw [Catalog.contains, OrderedMap.contains_eq_isSome, Image.contains_eq_isSome] at hthere
  obtain ⟨c, hc⟩ : ∃ c, i.find? name = some c := by
    refine Option.isSome_iff_exists.1 (hthere.symm.trans ?_)
    exact Option.isSome_iff_exists.2 ⟨t, ht⟩
  have := hkey name t c ht hc
  rw [Table.columnNames, hnil] at this
  cases this

/-- A table that is created and renamed, a drop whose commit fails, a table dropped and created again, and a restart. -/
def moves : List Request :=
  [.run "CREATE TABLE t (id INTEGER, x TEXT)", .rename "t" "u", .run "DROP TABLE u",
    .migrate [.drop "u", .create ⟨"u", [⟨"k", .text⟩]⟩, .rename "u" "v", .create ⟨"u", [⟨"id", .integer⟩]⟩],
    .restart { seeded := false }, .openStore]

theorem moved_tables_agree : ∃ i c,
    (after moves (overKeyspace { seeded := false } [false, false, false, true])).session.live = some i ∧
    i.names = ["u", "v"] ∧ i.find? "v" = some c ∧ c.keyPath = "k" ∧
    (∀ name, i.catalog.contains name = i.contains name) ∧
    ∀ t, i.catalog.find? "v" = some t → t.columnNames.head? = some c.keyPath := by
  have hlive : ((after moves (overKeyspace { seeded := false } [false, false, false, true])).session.live.bind fun i =>
      (i.find? "v").map fun c => (i.names, c.keyPath)) = some (["u", "v"], "k") := by decide +kernel
  obtain ⟨i, hi, hc⟩ := Option.bind_eq_some_iff.1 hlive
  obtain ⟨c, hc, hv⟩ := Option.map_eq_some_iff.1 hc
  obtain ⟨hnames, hkey⟩ := Prod.mk.inj hv
  have hmigrates : ∀ r ∈ moves, r.Migrates := by simp [moves, Request.Migrates]
  obtain ⟨hsame, -, -, hfirst⟩ := catalog_and_containers_agree (isNew_overKeyspace _ _) hmigrates hi
  exact ⟨i, c, hi, hnames, hc, hkey, hsame, fun t ht => hfirst "v" t c ht hc⟩

end Engine

end TableStore
