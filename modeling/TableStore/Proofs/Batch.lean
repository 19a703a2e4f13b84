import TableStore.Proofs.Tracking

/-!
# Migrations in one upgrade and in many

- a migration asks only for the definitions and the containers of its names: a `Congruence` of upgrades that show the
  same under these names is kept by it, with the same outcome (`Migration.parallel_run_of_names`);
- upgrades are `Alike` with the same catalog and the same containers, whatever either of them has created and dropped
  before, and migrations leave them alike (`Migration.parallel_run`);
- migrations work on containers without journals only, so an upgrade that has made nothing but migrations is kept as it
  is (`Upgrade.Alike.finished_eq`);
- so many migrations in one upgrade come to the same as one upgrade for each of them
  (`Engine.batch_agrees_with_sequence`).
-/

namespace TableStore

/-! ## Attempts on two states -/

namespace Attempt

universe u

variable {σ α β : Type u} {R S T : σ → σ → Prop}

/-- The same outcome on two states, which are related afterwards if it is a success. -/
inductive Same (S : σ → σ → Prop) : Except Error α × σ → Except Error α × σ → Prop
  | ok {a : α} {s t : σ} (h : S s t) : Same S (.ok a, s) (.ok a, t)
  | error {e : Error} {s t : σ} : Same S (.error e, s) (.error e, t)

/-- An attempt has the same outcome on related states, and relates them again. -/
def Parallel (R : σ → σ → Prop) (x : Attempt σ α) (S : σ → σ → Prop) : Prop := ∀ s t, R s t → Same S (x s) (x t)

theorem Parallel.pure (a : α) : Parallel R (pure a) R := fun _ _ h => .ok h

theorem Parallel.bind {x : Attempt σ α} {f : α → Attempt σ β} (hx : Parallel R x S) (hf : ∀ a, Parallel S (f a) T) :
    Parallel R (x >>= f) T := by
  intro s t hst
  have h := hx s t hst
  rw [bind_apply, bind_apply]
  cases hs : x s
  cases ht : x t
  rw [hs, ht] at h
  cases h with
  | ok h => exact hf _ _ _ h
  | error => exact .error

theorem Parallel.read {f : σ → Except Error α} (hf : ∀ s t, R s t → f s = f t) : Parallel R (read f) R := by
  intro s t hst
  rw [read_apply, read_apply, hf s t hst]
  cases f t with
  | ok a => exact .ok hst
  | error e => exact .error

theorem Parallel.imp {x : Attempt σ α} (hx : Parallel R x S) (hS : ∀ s t, S s t → T s t) : Parallel R x T := by
  intro s t hst
  have h := hx s t hst
  cases hs : x s
  cases ht : x t
  rw [hs, ht] at h
  cases h with
  | ok h => exact .ok (hS _ _ h)
  | error => exact .error

theorem Parallel.forEach {ι : Type u} {f : ι → Attempt σ PUnit} (hf : ∀ i, Parallel R (f i) R) :
    ∀ is : List ι, Parallel R (forEach f is) R
  | [] => .pure _
  | i :: is => (hf i).bind fun _ => Parallel.forEach hf is

end Attempt

open Attempt

/-! ## Upgrades on the same tables -/

namespace Upgrade

/-- Two upgrades with the same catalog and the same containers, whose journals are closed. -/
structure Alike (u v : Upgrade) : Prop where
  catalog : u.image.catalog = v.image.catalog
  containers : u.image.containers = v.image.containers
  sorted : u.image.containers.Sorted fun _ => True
  closed : ∀ {name : String} {c : Container}, u.image.find? name = some c → c.journal = none

/-- Both upgrades have created the container of a name. -/
def Founded (name : String) (u v : Upgrade) : Prop := Alike u v ∧ u.created.contains name ∧ v.created.contains name

variable {u v : Upgrade}

theorem Alike.find? (h : Alike u v) (name : String) : v.image.find? name = u.image.find? name := by
  rw [Image.find?, Image.find?, h.containers]

/-- Two upgrades that start from the same tables, of which no unit has a journal. -/
theorem Alike.start {i : Image} (hi : i.Sound) (m n : Nat) : Alike (start i m) (start i n) :=
  ⟨rfl, rfl, hi.sorted, fun hc => (hi.settled hc).closed⟩

/-- What is kept are the containers as they are. -/
theorem Alike.finished_eq (h : Alike u v) : u.finished = u.image := by
  refine Image.ext_find? rfl rfl (h.sorted.mapValues _) h.sorted fun name => ?_
  rw [find?_finished]
  cases hc : u.image.find? name with
  | none => rfl
  | some c => exact congrArg some (Container.commit_of_none (h.closed hc))

/-- The same container under the same name leaves upgrades alike. -/
theorem Alike.set (h : Alike u v) (name : String) {c : Container} (hc : c.journal = none)
    (created created' : OrderedMap String Unit) :
    Alike { u with image := u.image.set name c, created }
      { v with image := v.image.set name c, created := created' } := by
  refine ⟨h.catalog, ?_, h.sorted.insert trivial c, fun {n d} hd => ?_⟩
  · rw [Image.set, Image.set, h.containers]
  · rw [Image.find?_set h.sorted] at hd
    split at hd
    · cases hd
      exact hc
    · exact h.closed hd

/-- Upgrades stay alike without the container of a name. -/
theorem Alike.without (h : Alike u v) (name : String) : Alike (u.without name) (v.without name) := by
  refine ⟨h.catalog, ?_, h.sorted.erase trivial, fun {n d} hd => ?_⟩
  · exact congrArg (·.erase name) h.containers
  · have hfound : (u.without name).image.find? n = if n = name then none else u.image.find? n :=
      h.sorted.find?_erase trivial trivial
    rw [hfound] at hd
    split at hd
    · cases hd
    · exact h.closed hd

/-! ### Operations -/

/-- A relation between upgrades that show the same under certain names, which work under these names keeps. `F` relates
upgrades that have created the container of a name, as migrations do before they work on it. -/
structure Congruence (A : Set String) (R : Upgrade → Upgrade → Prop) (F : String → Upgrade → Upgrade → Prop) :
    Prop where
  defined : ∀ {u v name}, R u v → name ∈ A → u.image.catalog.find? name = v.image.catalog.find? name
  found : ∀ {u v name}, R u v → name ∈ A → u.image.find? name = v.image.find? name
  create : ∀ {u v name}, R u v → name ∈ A → ∀ c : Container, c.journal = none →
    F name { u with image := u.image.set name c, created := u.created.insert name () }
      { v with image := v.image.set name c, created := v.created.insert name () }
  created : ∀ {u v name}, F name u v → R u v
  ready : ∀ {u v name}, F name u v → name ∈ A → u.ready name = v.ready name
  edit : ∀ {u v name c} {f : Attempt Container Unit}, F name u v → name ∈ A → u.image.find? name = some c → Edits f →
    F name { u with image := u.image.set name (f (u.ready name c)).2 }
      { v with image := v.image.set name (f (u.ready name c)).2 }
  delete : ∀ {name}, name ∈ A → Parallel R (delete name) R
  put : ∀ {u v} {table : Table}, R u v → table.name ∈ A →
    R (editCatalog (·.put table) u).2 (editCatalog (·.put table) v).2
  erase : ∀ {u v name}, R u v → name ∈ A → R (editCatalog (·.erase name) u).2 (editCatalog (·.erase name) v).2

namespace Congruence

variable {A : Set String} {R : Upgrade → Upgrade → Prop} {F : String → Upgrade → Upgrade → Prop} {name : String}

theorem contains (h : Congruence A R F) (hr : R u v) (hn : name ∈ A) :
    u.image.contains name = v.image.contains name := by
  rw [Image.contains_eq_isSome, Image.contains_eq_isSome, h.found hr hn]

theorem contains_catalog (h : Congruence A R F) (hr : R u v) (hn : name ∈ A) :
    u.image.catalog.contains name = v.image.catalog.contains name := by
  rw [Catalog.contains, Catalog.contains, OrderedMap.contains_eq_isSome, OrderedMap.contains_eq_isSome]
  exact congrArg Option.isSome (h.defined hr hn)

theorem parallel_create (h : Congruence A R F) (hn : name ∈ A) (keyPath : String) (autoIncrement : Bool) :
    Parallel R (Upgrade.create name keyPath autoIncrement) (F name) := by
  intro u v hr
  rw [Upgrade.create, Upgrade.create, h.contains hr hn]
  split
  · exact .error
  · exact .ok (h.create hr hn _ rfl)

theorem parallel_edit (h : Congruence A R F) (hn : name ∈ A) {f : Attempt Container Unit} (hf : Edits f) :
    Parallel (F name) (Upgrade.edit name f) (F name) := by
  intro u v hw
  have hready := h.ready hw hn
  have hfound := h.found (h.created hw) hn
  simp only [Upgrade.edit, Image.edit, ← hfound, ← hready]
  cases hc : u.image.find? name with
  | none => exact .error
  | some c =>
    dsimp only
    cases (f (u.ready name c)).1 with
    | ok a => exact .ok (h.edit hw hn hc hf)
    | error e => exact .error

end Congruence

theorem Alike.delete (name : String) : Parallel Alike (delete name) Alike := by
  intro u v h
  have hwithout := h.without name
  rw [Upgrade.delete, Upgrade.delete, h.find?]
  cases u.image.find? name with
  | none => exact .ok h
  | some c =>
    -- either upgrade has created the container itself, or drops the one from before
    dsimp only
    split <;> split <;> exact .ok { hwithout with }

/-- Work on a container that both upgrades have created opens no journal in either of them, so they stay alike. -/
theorem congruence_alike : Congruence Set.univ Alike Founded where
  defined h _ := by rw [h.catalog]
  found h _ := (h.find? _).symm
  create h _ c hc := ⟨h.set _ hc _ _, OrderedMap.contains_insert_self _ _ _, OrderedMap.contains_insert_self _ _ _⟩
  created h := h.1
  ready := by
    rintro u v name ⟨-, hu, hv⟩ -
    rw [Upgrade.ready, Upgrade.ready, if_pos hu, if_pos hv]
  edit := by
    rintro u v name c f ⟨h, hu, hv⟩ - hc hf
    rw [Upgrade.ready, if_pos hu, id]
    obtain ⟨ks, hks⟩ := hf.edited c
    exact ⟨h.set name (hks.journal_none (h.closed hc)) u.created v.created, hu, hv⟩
  delete _ := Alike.delete _
  put {_ _ table} h _ := { h with catalog := congrArg (·.put table) h.catalog }
  erase {_ _ name} h _ := { h with catalog := congrArg (·.erase name) h.catalog }

end Upgrade

namespace Migration

open Upgrade

/-- The names of tables that a migration has to do with. -/
def names : Migration → List String
  | .create table => [table.name]
  | .drop name => [name]
  | .rename source target => [source, target]
  | .load table _ => [table.name]

section Congruence

variable {A : Set String} {R : Upgrade → Upgrade → Prop} {F : String → Upgrade → Upgrade → Prop}

theorem parallel_newKeyPath (h : Congruence A R F) {table : Table} (hn : table.name ∈ A) :
    Parallel R (Attempt.read (newKeyPath table)) R :=
  .read fun u v hr => by rw [newKeyPath, newKeyPath, h.contains hr hn, h.contains_catalog hr hn]

theorem parallel_renameParts (h : Congruence A R F) {source target : String} (hs : source ∈ A) (ht : target ∈ A) :
    Parallel R (Attempt.read (renameParts source target)) R :=
  .read fun u v hr => by
    rw [renameParts, renameParts, h.defined hr hs, h.contains hr ht, h.contains_catalog hr ht, h.found hr hs]

/-- **A migration of certain tables asks only for their definitions and containers**, so it has the same outcome on
upgrades that show the same under these names, and keeps what relates them. -/
theorem parallel_run_of_names (h : Congruence A R F) (m : Migration) (hm : ∀ name ∈ m.names, name ∈ A) :
    Parallel R m.run R := by
  cases m with
  | create table =>
    have hn : table.name ∈ A := hm _ (by simp [names])
    refine (parallel_newKeyPath h hn).bind fun _ => (h.parallel_create hn _ _).bind fun _ => ?_
    exact fun u v hw => .ok (h.put (h.created hw) hn)
  | drop name =>
    have hn : name ∈ A := hm _ (by simp [names])
    exact (h.delete hn).bind fun _ u v hr => .ok (h.erase hr hn)
  | rename source target =>
    have hs : source ∈ A := hm _ (by simp [names])
    have ht : target ∈ A := hm _ (by simp [names])
    refine (parallel_renameParts h hs ht).bind fun parts => ?_
    match parts with
    | none => exact .pure _
    | some (table, c) =>
      refine (h.parallel_create ht _ _).bind fun _ => ?_
      have hput : Parallel (F target) (putAll target c.scan) R :=
        (Parallel.forEach (fun r => h.parallel_edit ht (.whole_put r)) c.scan).imp fun _ _ => h.created
      have hrenamed : ({ name := target, columns := table.columns } : Table).name ∈ A := ht
      exact hput.bind fun _ => (h.delete hs).bind fun _ u v hr => .ok (h.put (h.erase hr hs) hrenamed)
  | load table records =>
    have hn : table.name ∈ A := hm _ (by simp [names])
    refine (parallel_newKeyPath h hn).bind fun _ => (h.parallel_create hn _ _).bind fun _ => ?_
    have hadd : Parallel (F table.name) (addAll table.name records) R :=
      (Parallel.forEach (fun r => h.parallel_edit hn (.whole_add r)) records).imp fun _ _ => h.created
    exact hadd.bind fun _ u v hr => .ok (h.put hr hn)

end Congruence

/-- **A migration asks only for the catalog and the containers.** -/
theorem parallel_run (m : Migration) : Parallel Alike m.run Alike :=
  m.parallel_run_of_names congruence_alike fun _ _ => trivial

theorem parallel_runAll (ms : List Migration) : Parallel Alike (runAll ms) Alike := .forEach parallel_run ms

end Migration

/-! ## One upgrade and many -/

theorem Migration.runAll_cons (m : Migration) (ms : List Migration) (u : Upgrade) :
    runAll (m :: ms) u = match m.run u with
      | (.ok _, v) => runAll ms v
      | (.error e, v) => (.error e, v) := by
  change (m.run >>= fun _ => runAll ms) u = _
  rw [bind_apply]
  cases m.run u with
  | mk outcome v => cases outcome <;> rfl

theorem Migration.runAll_singleton (m : Migration) : runAll [m] = m.run := by
  funext u
  rw [runAll_cons]
  cases m.run u with
  | mk outcome v => cases outcome <;> rfl

namespace Engine

/-- Makes migrations in an upgrade for each, up to the first that fails. -/
def migrateEach : List Migration → Attempt Session PUnit :=
  Attempt.forEach fun m => do
    let _ ← migrate [m]
    pure ⟨⟩

variable {i : Image} {store : Store} {u : Upgrade} {ms : List Migration}

/-- An upgrade with migrations of which one fails leaves the session as it was. -/
theorem migrate_of_error (hi : i.WellFormed) {e : Error}
    (hr : Migration.runAll ms (Upgrade.start i (i.version + 1)) = (.error e, u)) :
    migrate ms ⟨store, some i⟩ = (.error e, ⟨store, some i⟩) := by
  have hw := Migration.keeps_working ms _ (Upgrade.Working.start hi (i.version + 1))
  rw [hr] at hw
  obtain ⟨h, hu⟩ := hw.since
  have hbody : (Migration.runAll ms >>= fun _ => Attempt.read fun u : Upgrade => .ok u.image.version)
      (Upgrade.start i (i.version + 1)) = (.error e, u) := by rw [bind_apply, hr]
  rw [migrate, Session.upgrade_of_live _ hbody]
  simp only [Session.settleUpgrade, hu.aborted_eq hi.sound]

/-- What migrations that succeed have made is kept if it is committed. -/
theorem migrate_of_run (hi : i.WellFormed)
    (hr : Migration.runAll ms (Upgrade.start i (i.version + 1)) = (.ok ⟨⟩, u)) :
    u.image.version = i.version + 1 ∧ u.image.WellFormed ∧ u.changeSet.Fits i u.image ∧
      migrate ms ⟨store, some i⟩ = match store.commit u.changeSet with
        | (.ok _, store') => (.ok (i.version + 1), ⟨store', some u.image⟩)
        | (.error e, store') => (.error e, ⟨store', some i⟩) := by
  have hw := Migration.keeps_working ms _ (Upgrade.Working.start hi (i.version + 1))
  have halike := Migration.parallel_runAll ms _ _ (Upgrade.Alike.start hi.sound (i.version + 1) (i.version + 1))
  rw [hr] at hw halike
  obtain ⟨h, hu⟩ := hw.since
  have hkept : u.finished = u.image := by
    cases halike with
    | ok halike => exact halike.finished_eq
  have hfits := hu.fits hi.sound
  have hfinished := hw.finished
  rw [hkept] at hfits hfinished
  have hbody : (Migration.runAll ms >>= fun _ => Attempt.read fun u : Upgrade => .ok u.image.version)
      (Upgrade.start i (i.version + 1)) = (.ok (i.version + 1), u) := by
    rw [bind_apply, hr]
    exact congrArg (fun v => (Except.ok v, u)) hu.version
  refine ⟨hu.version, hfinished, hfits, ?_⟩
  rw [migrate, Session.upgrade_of_live _ hbody, Session.settleUpgrade]
  cases store.commit u.changeSet with
  | mk committed store' =>
    cases committed with
    | error e => simp only [hu.aborted_eq hi.sound]
    | ok _ => simp only [hkept]

/-- An upgrade leaves what its migrations have made, at the next version, or the image as it was. -/
theorem migrate_settles {s : Session} (hi : i.WellFormed) (hs : s.live = some i) (ms : List Migration) :
    (∃ u store', Migration.runAll ms (Upgrade.start i (i.version + 1)) = (.ok ⟨⟩, u) ∧
        u.image.version = i.version + 1 ∧ migrate ms s = (.ok (i.version + 1), ⟨store', some u.image⟩)) ∨
      ∃ e store', migrate ms s = (.error e, ⟨store', some i⟩) := by
  obtain ⟨store, live⟩ := s
  obtain rfl : live = some i := hs
  cases hr : Migration.runAll ms (Upgrade.start i (i.version + 1)) with
  | mk outcome u =>
    cases outcome with
    | error e => exact .inr ⟨e, store, migrate_of_error hi hr⟩
    | ok _ =>
      obtain ⟨hversion, -, -, hmigrate⟩ := @migrate_of_run i store u ms hi hr
      cases hcommit : store.commit u.changeSet with
      | mk committed store' =>
        rw [hcommit] at hmigrate
        cases committed with
        | error e => exact .inr ⟨e, store', hmigrate⟩
        | ok _ => exact .inl ⟨u, store', rfl, hversion, hmigrate⟩

/-- An upgrade with migrations that succeed leaves the tables that they make, at the next version. -/
theorem migrate_of_ok (hs : store.medium.Retains i) (hc : store.Steadfast) (hi : i.WellFormed)
    (hr : Migration.runAll ms (Upgrade.start i (i.version + 1)) = (.ok ⟨⟩, u)) :
    u.image.version = i.version + 1 ∧ u.image.WellFormed ∧ ∃ store', store'.medium.Retains u.image ∧ store'.Steadfast ∧
      migrate ms ⟨store, some i⟩ = (.ok (i.version + 1), ⟨store', some u.image⟩) := by
  obtain ⟨hversion, hi', hfits, hmigrate⟩ := migrate_of_run hi hr
  obtain ⟨store', hcommit, hc', hretains⟩ := hc.commits hs hi hfits
  rw [hcommit] at hmigrate
  exact ⟨hversion, hi', store', hretains hi', hc', hmigrate⟩

theorem migrateEach_cons (m : Migration) (ms : List Migration) (s : Session) :
    migrateEach (m :: ms) s = match migrate [m] s with
      | (.ok _, s') => migrateEach ms s'
      | (.error e, s') => (.error e, s') := by
  change ((migrate [m] >>= fun _ => (pure ⟨⟩ : Attempt Session PUnit)) >>= fun _ => migrateEach ms) s = _
  rw [bind_apply, bind_apply]
  cases migrate [m] s with
  | mk outcome s' => cases outcome <;> rfl

/-- What migrations do in one upgrade, an upgrade for each of them does: they fail with the same error, or leave the
same tables. The upgrade may have been at work before, as long as it is at the tables that the others start from. -/
theorem migrateEach_of_runAll : ∀ (ms : List Migration) {i : Image} {store : Store} {u : Upgrade},
    store.medium.Retains i →
    store.Steadfast → i.WellFormed → Upgrade.Alike u (Upgrade.start i (i.version + 1)) →
    match Migration.runAll ms u with
    | (.error e, _) => ∃ s, migrateEach ms ⟨store, some i⟩ = (.error e, s)
    | (.ok _, v) => ∃ store', migrateEach ms ⟨store, some i⟩ =
        (.ok ⟨⟩, ⟨store', some ⟨i.version + ms.length, v.image.catalog, v.image.containers⟩⟩)
  | [], i, store, u, _, _, _, hu => ⟨store, by rw [hu.catalog, hu.containers]; rfl⟩
  | m :: ms, i, store, u, hs, hc, hi, hu => by
    have hsame := m.parallel_run _ _ hu
    rw [Migration.runAll_cons, migrateEach_cons]
    cases hr : m.run u with
    | mk outcome v =>
      cases hr' : m.run (Upgrade.start i (i.version + 1)) with
      | mk outcome' v' =>
        rw [hr, hr'] at hsame
        rw [← Migration.runAll_singleton] at hr'
        cases hsame with
        | error => exact ⟨_, by rw [migrate_of_error hi hr']⟩
        | ok hv =>
          obtain ⟨hversion, hi', store', hs', hc', hmigrate⟩ := migrate_of_ok hs hc hi hr'
          have hrest := migrateEach_of_runAll ms hs' hc' hi' (u := v)
            ⟨hv.catalog, hv.containers, hv.sorted, hv.closed⟩
          rw [hmigrate]
          rw [hversion, Nat.add_assoc, Nat.add_comm 1] at hrest
          exact hrest

/-- **Migrations in one upgrade come to the same as an upgrade for each.** On every open session that requests lead to,
and if commits reach the medium: where the migrations fail one by one, the one upgrade fails with the error of the first
that does, and leaves the session and its store as they were; where all succeed, so does the one upgrade, and both ways
leave the same catalog and the same containers, at the next version and at as many versions on as there are
migrations. -/
theorem batch_agrees_with_sequence (e : Engine) (he : e.IsNew) (rs : List Request) (s : Session) (i : Image)
    (hs : (after rs e).session = s) (hi : s.live = some i) (hc : s.store.Steadfast) (ms : List Migration) :
    ((∃ v, (migrate ms s).1 = .ok v) ↔ (migrateEach ms s).1 = .ok ⟨⟩) ∧
    (∀ err, (migrate ms s).1 = .error err ↔ (migrateEach ms s).1 = .error err) ∧
    (∀ err, (migrate ms s).1 = .error err → (migrate ms s).2 = s) ∧
    ∀ v, (migrate ms s).1 = .ok v → v = i.version + 1 ∧ ∃ catalog containers,
      (migrate ms s).2.live = some ⟨i.version + 1, catalog, containers⟩ ∧
        (migrateEach ms s).2.live = some ⟨i.version + ms.length, catalog, containers⟩ := by
  have htracks : (after rs e).session.Tracks (fun _ => True) fun _ => True :=
    tracks_after trivial (fun _ _ => trivial) (fun _ _ _ _ _ _ => trivial) (fun _ _ _ _ _ => trivial)
      (fun r _ => leads_true r) (he.tracks fun _ _ => trivial)
  obtain ⟨store, live⟩ := s
  obtain rfl : live = some i := hi
  rw [hs] at htracks
  obtain ⟨hretains, hi, -⟩ := htracks.of_live
  have hsame := migrateEach_of_runAll ms hretains hc hi (Upgrade.Alike.start hi.sound (i.version + 1) (i.version + 1))
  cases hr : Migration.runAll ms (Upgrade.start i (i.version + 1)) with
  | mk outcome u =>
    rw [hr] at hsame
    cases outcome with
    | error err =>
      obtain ⟨s, hsequence⟩ := hsame
      simp [hsequence, migrate_of_error hi hr]
    | ok _ =>
      obtain ⟨store', hsequence⟩ := hsame
      obtain ⟨hversion, -, store'', -, -, hbatch⟩ := migrate_of_ok hretains hc hi hr
      simp [hsequence, hbatch, ← hversion]

/-- A table is created, gets another name and is dropped under it, and another one is created under the first name. -/
def returning : List Migration :=
  [.create ⟨"a", [⟨"id", .integer⟩]⟩, .rename "a" "b", .drop "b", .create ⟨"a", [⟨"k", .text⟩]⟩]

theorem sequence_of_returning : (migrateEach returning (after [.openStore] (inMemory {} [])).session).2.live = some
    { version := 5
      catalog := ⟨⟨[("a", ⟨"a", [⟨"k", .text⟩]⟩)]⟩⟩
      containers := ⟨[("a", { name := "a", keyPath := "k", autoIncrement := true })]⟩ } := by
  obtain ⟨-, catalog, containers, hbatch, hsequence⟩ := (batch_agrees_with_sequence _ (isNew_inMemory {} [])
    [.openStore] _ { version := 1 } rfl rfl ⟨by decide, rfl⟩ returning).2.2.2 2 rfl
  cases hbatch
  exact hsequence

end Engine

end TableStore
