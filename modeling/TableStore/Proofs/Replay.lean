import TableStore.Proofs.Alignment
import TableStore.Proofs.Contents
import TableStore.Proofs.GeneratedKeys

/-!
# Dumps that are replayed

- an insertion of a dump is written, read back and carried out: it adds a record with the values that the columns of
  the table have in the dumped one (`Record.copy`), under the same key;
- keys come in their order, so each is beyond those that are there, and the records of a dump that was replayed are the
  copies of all (`Engine.replayed`);
- so they are shown as the dumped ones are (`Engine.dump_is_replayed`).
-/

namespace TableStore

open Attempt

/-! ## Copies of records -/

namespace Record

/-- The record of the values that columns have in a record. -/
def copy (columns : List String) (r : Record) : Record := ofList (columns.zip (Query.project columns r))

variable {columns : List String}

theorem valueOf_copy (r : Record) {n : String} (hn : n ∈ columns) : (copy columns r).valueOf n = r.valueOf n := by
  have hfold : ∀ (names : List String) (s : Record), ((names.map fun m => (m, r.valueOf m)).foldl
      (fun s c => s.set c.1 c.2) s).valueOf n = if n ∈ names then r.valueOf n else s.valueOf n := by
    intro names
    induction names with
    | nil => exact fun s => rfl
    | cons m names ih =>
      intro s
      rw [List.map_cons, List.foldl_cons, ih, valueOf_set]
      by_cases hm : m = n
      · simp [hm]
      · have hne : n ≠ m := fun h => hm h.symm
        simp [hm, hne]
  have hzip : (columns.map id).zip (columns.map r.valueOf) = columns.map fun m => (m, r.valueOf m) := List.zip_map'
  rw [List.map_id] at hzip
  rw [copy, ofList, Query.project, hzip]
  exact (hfold columns empty).trans (if_pos hn)

/-- A copy shows the same values. -/
theorem project_copy (r : Record) : Query.project columns (copy columns r) = Query.project columns r :=
  List.map_congr_left fun _ hn => valueOf_copy r hn

end Record

/-! ## Open sessions that commit -/

namespace Session

/-- An open session whose store keeps the live image and will commit what fits it. -/
structure Commits (s : Session) (i : Image) : Prop where
  live : s.live = some i
  retains : s.store.medium.Retains i
  steadfast : s.store.Steadfast
  wellFormed : i.WellFormed

/-- A transaction whose body succeeds is committed. -/
theorem Commits.write {α : Type} {s : Session} {i j : Image} {body : Attempt Image α} {a : α} (h : s.Commits i)
    (hb : Keeps (Transaction.Working i) body) (hr : body i = (.ok a, j)) :
    ∃ s', Session.write body s = (.ok a, s') ∧ s'.Commits (Transaction.finished j) := by
  obtain ⟨store, live⟩ := s
  obtain ⟨hlive, hretains, hsteadfast, hi⟩ := h
  obtain rfl : live = some i := hlive
  have hj : Transaction.Working i j := by
    have := hb i ⟨_, .start hi.sound⟩
    rwa [hr] at this
  have hcommits : ∃ store', commitTransaction j store = (.ok (), store') ∧ store'.Steadfast := by
    rw [commitTransaction]
    split
    · exact ⟨store, rfl, hsteadfast⟩
    · obtain ⟨_, hsince⟩ := hj
      obtain ⟨store', hcommit, hsteadfast', -⟩ := hsteadfast.commits hretains hi (hsince.fits hi.sound)
      exact ⟨store', hcommit, hsteadfast'⟩
  obtain ⟨store', hcommit, hsteadfast'⟩ := hcommits
  refine ⟨⟨store', some (Transaction.finished j)⟩, ?_, rfl, Store.retains_of_commitTransaction hretains hi hj hcommit,
    hsteadfast', hj.wellFormed hi⟩
  rw [write_of_live body hr, settleTransaction_ok, hcommit]

/-- A session that could not be opened is closed. -/
theorem live_eq_none_of_openWith {init : Attempt Upgrade Unit} {s s' : Session} {e : Error}
    (h : openWith init s = (.error e, s')) : s'.live = none := by
  rw [openWith] at h
  split at h
  · cases h
  · rename_i hl
    split at h
    · cases h
      exact hl
    · cases h
    · dsimp only at h
      split at h <;> cases h
      rfl

/-- Opening a session takes at most one commit. -/
theorem steadfast_openWith (init : Attempt Upgrade Unit) {s : Session} (hs : s.store.Steadfast) :
    (openWith init s).2.store.Steadfast := by
  have hcommit : ∀ changes, (s.store.commit changes).2.Steadfast := fun changes => hs.commit changes
  rw [openWith]
  split
  · exact hs
  · split
    · exact hs
    · exact hs
    · cases hinit : init (Upgrade.start {} 1) with
      | mk outcome u =>
        cases outcome with
        | error e => exact hs
        | ok _ =>
          have := hcommit u.changeSet
          cases hc : s.store.commit u.changeSet with
          | mk committed store' =>
            rw [hc] at this
            cases committed <;> simpa only [settleUpgrade, hc] using this

end Session

namespace Engine

variable {e : Engine} {i : Image} {table : String} {c : Container}

/-! ## Engines that are opened -/

/-- The image that an engine works on once it is open. -/
def Shows (e : Engine) (i : Image) : Prop := (serve .ready e).2.session.live = some i

theorem ready_of_live {s : Session} (h : s.live = some i) (settings : Settings) :
    ready settings s = (.ok false, s) := by
  obtain ⟨store, live⟩ := s
  obtain rfl : live = some i := h
  rfl

theorem shows_of_live (h : e.session.live = some i) : e.Shows i := by
  change (ready e.settings e.session).2.live = some i
  rw [ready_of_live h]
  exact h

/-- An engine that shows an image is opened without an error. -/
theorem exists_of_shows (h : e.Shows i) : ∃ b, ready e.settings e.session = (.ok b, (serve .ready e).2.session) := by
  rw [Shows] at h
  rw [serve, onSession] at h ⊢
  cases hr : ready e.settings e.session with
  | mk outcome s =>
    rw [hr] at h
    cases outcome with
    | ok b => exact ⟨b, rfl⟩
    | error err =>
      rw [ready, bind_apply] at hr
      split at hr
      · cases hr
      · rename_i ho
        cases hr
        cases (Session.live_eq_none_of_openWith ho).symm.trans h

theorem run_of_ready {settings : Settings} {s s' : Session} {b : Bool} (h : ready settings s = (.ok b, s'))
    (text : String) : run settings text s = match Statement.parse text with
      | .ok statement => execute settings.matching statement s'
      | .error e => (.error e, s') := by
  rw [run, bind_apply, h]
  dsimp only
  rw [bind_apply, Attempt.read_apply]
  cases Statement.parse text <;> rfl

theorem serve_run (text : String) (e : Engine) : serve (.run text) e =
    ((run e.settings text e.session).1.map .resultSet, { e with session := (run e.settings text e.session).2 }) :=
  rfl

/-- The text of a statement is carried out on the session that was opened for it. -/
theorem serve_run_of_shows (h : e.Shows i) (text : String) :
    serve (.run text) e = serve (.run text) (serve .ready e).2 := by
  obtain ⟨b, hr⟩ := exists_of_shows h
  have hrun : run e.settings text e.session = run e.settings text (serve .ready e).2.session := by
    rw [run_of_ready hr, run_of_ready (ready_of_live h e.settings)]
  rw [serve_run, hrun]
  rfl

/-- The text that selects the rows of a table. -/
def selection (table : String) : String := String.ofList (Statement.select .all table none).write

/-- All rows of a table. -/
def rowsOf (i : Image) (table : String) (c : Container) : ResultSet where
  columns := Query.columnsOf i table
  rows := c.scan.map (Query.project (Query.columnsOf i table))

theorem run_selection (h : e.Shows i) (hc : i.find? table = some c) :
    run e.settings (selection table) e.session = (.ok (rowsOf i table c), (serve .ready e).2.session) := by
  have hparse : Statement.parse (selection table) = .ok (.select .all table none) :=
    Statement.parse_write ⟨fun h => (by cases h), rfl⟩
  obtain ⟨b, hr⟩ := exists_of_shows h
  have hread : Session.read (Query.select e.settings.matching .all table none) (serve .ready e).2.session =
      (.ok (rowsOf i table c), (serve .ready e).2.session) := by
    rw [Session.read, Session.image_of_live h]
    dsimp only
    rw [Query.select, hc]
    rfl
  rw [run_of_ready hr, hparse]
  dsimp only
  rw [execute, bind_apply, perform, hread]
  rfl

theorem serve_selection (h : e.Shows i) (hc : i.find? table = some c) :
    (serve (.run (selection table)) e).1 = .ok (.resultSet (rowsOf i table c)) := by
  rw [serve_run, run_selection h hc]
  rfl

/-- The texts of a dump. -/
def dumped (i : Image) (table : String) (c : Container) : List String :=
  c.scan.map fun r => String.ofList (insertion i table r).write

theorem dump_of_shows (h : e.Shows i) (hc : i.find? table = some c) :
    dump e.settings table e.session = (.ok (dumped i table c), (serve .ready e).2.session) := by
  obtain ⟨b, hr⟩ := exists_of_shows h
  rw [dump, bind_apply, hr]
  dsimp only
  rw [Session.read, Session.image_of_live h]
  dsimp only
  rw [insertions, hc]
  simp only [Except.map, List.map_map, dumped]
  rfl

theorem serve_dump (h : e.Shows i) (hc : i.find? table = some c) :
    (serve (.dump table) e).1 = .ok (.texts (dumped i table c)) := by
  change (dump e.settings table e.session).1.map Answer.texts = _
  rw [dump_of_shows h hc]
  rfl

end Engine

/-! ## Insertions of a dump -/

/-- A record whose key is free is added as it is. -/
theorem Container.add_of_ofValue? {c : Container} {r : Record} {k : Key}
    (h : Key.ofValue? (r.valueOf c.keyPath) = some k) (hfree : c.records.find? k = none) :
    c.add r = .ok (k, c.store k r) := by
  simp only [Container.add, keyed_of_ofValue? h, OrderedMap.contains_eq_isSome, hfree, Option.isSome_none,
    Bool.false_eq_true, if_false]

/-- A table with columns and a key column that holds copies of some records under their keys, and nothing else. -/
structure Image.Copied (j : Image) (table : String) (columns : List String) (keyPath : String)
    (entries : List (Key × Record)) : Prop where
  columns_eq : Query.columnsOf j table = columns
  container : ∃ d, j.find? table = some d ∧ d.keyPath = keyPath ∧
    d.records.entries = entries.map fun e => (e.1, e.2.copy columns)

namespace Query

variable {i : Image} {table : String} {columns : List String} {c d : Container} {k : Key} {r : Record}

theorem addRow_project (h : c.add (r.copy columns) = .ok (k, d)) :
    addRow columns (project columns r) c = (.ok (), d) := by
  have hlength : (project columns r).length = columns.length := List.length_map _
  rw [addRow, if_pos hlength]
  change Attempt.whole (fun c => (c.add (r.copy columns)).map fun kc => ((), kc.2)) c = _
  rw [Attempt.whole, h]
  rfl

/-- The row of a record is inserted where its copy can be added. -/
theorem insert_project (hc : i.find? table = some c) (h : c.begin.add (r.copy columns) = .ok (k, d)) :
    insert table (some columns) [project columns r] i = (.ok 1, i.set table d) := by
  have hrows : addRows columns [project columns r] c.begin = (.ok (), d) := by
    rw [addRows, Attempt.forEach, bind_apply, addRow_project h]
    rfl
  have hcontains : i.contains table = true := by
    rw [Image.contains_eq_isSome, hc]
    rfl
  simp only [insert, bind_apply, Attempt.read_apply, hcontains, if_pos, Transaction.edit, Image.edit, hc,
    Option.getD_some, hrows]
  rfl

end Query

namespace Session

variable {s : Session} {j : Image} {table keyPath : String} {columns : List String} {entries : List (Key × Record)}

/-- One more record under a key beyond all others. -/
theorem Commits.copy (h : s.Commits j) (hj : j.Copied table columns keyPath entries) (hpath : keyPath ∈ columns)
    {k : Key} {r : Record} (hkey : Key.ofValue? (r.valueOf keyPath) = some k)
    (hlast : ∀ e ∈ entries, compare k e.1 = .gt) :
    ∃ s' j', Session.write (Query.insert table (some columns) [Query.project columns r]) s = (.ok 1, s') ∧
      s'.Commits j' ∧ j'.Copied table columns keyPath (entries ++ [(k, r)]) := by
  obtain ⟨d, hd, rfl, hentries⟩ := hj.container
  have hlast' : ∀ e ∈ d.records.entries, compare k e.1 = .gt := by
    rw [hentries]
    intro e he
    obtain ⟨f, hf, rfl⟩ := List.mem_map.1 he
    exact hlast f hf
  have hadd : d.begin.add (r.copy columns) = .ok (k, d.begin.store k (r.copy columns)) := by
    refine Container.add_of_ofValue? ?_ ?_
    · rw [Container.begin_keyPath, Record.valueOf_copy r hpath]
      exact hkey
    · rw [Container.begin_records, OrderedMap.find?, OrderedMap.findEntry?, OrderedMap.findIn_of_gt hlast']
      rfl
  obtain ⟨s', hwrite, hs'⟩ := h.write (Query.keeps_insert _ _ _) (Query.insert_project hd hadd)
  refine ⟨s', _, hwrite, hs', hj.columns_eq, (d.begin.store k (r.copy columns)).commit, ?_, d.begin_keyPath, ?_⟩
  · rw [Transaction.find?_finished, Image.find?_set h.wellFormed.sound.sorted, if_pos rfl]
    rfl
  · change OrderedMap.insertIn k (r.copy columns) d.begin.records.entries = _
    rw [d.begin_records, OrderedMap.insertIn_of_gt _ hlast', hentries, List.map_append]
    rfl

end Session

/-- No value of the record is an infinity or a NaN. -/
def Record.Finite (r : Record) : Prop := ∀ cell ∈ r.cells, cell.2.Finite

instance : DecidablePred Record.Finite := fun r => inferInstanceAs (Decidable (∀ cell ∈ r.cells, cell.2.Finite))

theorem Record.Finite.valueOf {r : Record} (hr : r.Finite) (name : String) : (r.valueOf name).Finite := by
  rw [Record.valueOf]
  cases h : r.find? name with
  | none => trivial
  | some v => exact hr _ (mem_of_find? h)

namespace Engine

variable {e : Engine} {i j : Image} {table : String} {t : Table} {c : Container}

theorem insertion_eq (ht : i.catalog.find? table = some t) (r : Record) :
    insertion i table r = .insert table (some t.columnNames) [Query.project t.columnNames r] := by
  rw [insertion, ht]

theorem readable_insertion (ht : i.catalog.find? table = some t) (hne : t.columnNames ≠ []) {r : Record}
    (hr : r.BoolFree) (hfinite : r.Finite) : (insertion i table r).Readable := by
  rw [insertion_eq ht]
  refine ⟨fun h => hne (Option.some.inj h), List.cons_ne_nil _ _, List.forall_mem_singleton.2 ⟨?_, fun v hv => ?_⟩⟩
  · exact fun h => hne (List.map_eq_nil_iff.1 h)
  · obtain ⟨name, -, rfl⟩ := List.mem_map.1 hv
    exact (hr.valueOf name).writable (hfinite.valueOf name)

theorem parse_insertion (ht : i.catalog.find? table = some t) (hne : t.columnNames ≠ []) {r : Record} (hr : r.BoolFree)
    (hfinite : r.Finite) : Statement.parse (String.ofList (insertion i table r).write) =
      .ok (.insert table (some t.columnNames) [Query.project t.columnNames r]) := by
  rw [Statement.parse_write (readable_insertion ht hne hr hfinite), insertion_eq ht]
  rfl

/-- An insertion of a dump is carried out. -/
theorem serve_insertion (h : e.session.Commits j) (ht : i.catalog.find? table = some t) {keyPath : String}
    {entries : List (Key × Record)} (hj : j.Copied table t.columnNames keyPath entries)
    (hpath : keyPath ∈ t.columnNames) {k : Key} {r : Record} (hr : r.BoolFree) (hfinite : r.Finite)
    (hkey : Key.ofValue? (r.valueOf keyPath) = some k) (hlast : ∀ e ∈ entries, compare k e.1 = .gt) :
    (∃ a, (serve (.run (String.ofList (insertion i table r).write)) e).1 = .ok a) ∧
      ∃ j', (serve (.run (String.ofList (insertion i table r).write)) e).2.session.Commits j' ∧
        j'.Copied table t.columnNames keyPath (entries ++ [(k, r)]) := by
  obtain ⟨s', j', hwrite, hs', hj'⟩ := h.copy hj hpath hkey hlast
  have hparse := parse_insertion ht (List.ne_nil_of_mem hpath) hr hfinite
  generalize String.ofList (insertion i table r).write = text at hparse ⊢
  have hrun : ∃ a, run e.settings text e.session = (.ok a, s') := by
    rw [run_of_ready (ready_of_live h.live e.settings), hparse]
    refine ⟨.status (toString 1 ++ " row(s) inserted into " ++ Error.shown table ++ "."), ?_⟩
    simp only [execute, perform, bind_apply, hwrite]
    rfl
  obtain ⟨a, hrun⟩ := hrun
  rw [serve_run, hrun]
  exact ⟨⟨_, rfl⟩, j', hs', hj'⟩

/-- Requests that are all answered without an error, one after another. -/
def Succeed : List Request → Engine → Prop
  | [], _ => True
  | r :: rs, e => (∃ a, (serve r e).1 = .ok a) ∧ Succeed rs (serve r e).2

/-- **The insertions of a dump copy all records.** -/
theorem replayed (ht : i.catalog.find? table = some t) (hkeyed : c.Keyed) (hpath : c.keyPath ∈ t.columnNames)
    (hboolFree : c.BoolFree) (hfinite : ∀ r ∈ c.scan, r.Finite) :
    ∀ (rest : List (Key × Record)) {done : List (Key × Record)} {e : Engine} {j : Image},
      c.records.entries = done ++ rest → e.session.Commits j → j.Copied table t.columnNames c.keyPath done →
      Succeed (rest.map fun x => .run (String.ofList (insertion i table x.2).write)) e ∧
        ∃ j', (after (rest.map fun x => .run (String.ofList (insertion i table x.2).write)) e).session.Commits j' ∧
          j'.Copied table t.columnNames c.keyPath c.records.entries
  | [], done, e, j, hentries, he, hj => by
    rw [List.append_nil] at hentries
    rw [hentries]
    exact ⟨trivial, j, he, hj⟩
  | (k, r) :: rest, done, e, j, hentries, he, hj => by
    have hmem : (k, r) ∈ c.records.entries := by rw [hentries]; simp
    have hscan : r ∈ c.scan := List.mem_map_of_mem hmem
    have hlast : ∀ x ∈ done, compare k x.1 = .gt := fun x hx => by
      obtain ⟨hpairwise, hproper⟩ := hkeyed.ordered
      have hx' : x ∈ c.records.entries := by rw [hentries]; exact List.mem_append_left _ hx
      rw [hentries] at hpairwise
      exact LawfulOn.gt_of_lt (hproper x hx') (hproper _ hmem)
        ((List.pairwise_append.1 hpairwise).2.2 x hx _ List.mem_cons_self)
    obtain ⟨hok, j', he', hj'⟩ :=
      serve_insertion he ht hj hpath (hboolFree r hscan) (hfinite r hscan) (hkeyed.key_eq hmem) hlast
    obtain ⟨hrest, hafter⟩ := replayed ht hkeyed hpath hboolFree hfinite rest (by rw [hentries]; simp) he' hj'
    exact ⟨⟨hok, hrest⟩, hafter⟩

/-- After requests and opening, the engine is as it shows itself. -/
theorem after_ready (rs : List Request) (e : Engine) : after (rs ++ [.ready]) e = (serve .ready (after rs e)).2 :=
  List.foldl_concat ..

/-- What an engine shows that was only asked by the texts of statements and for other names of tables. -/
theorem shown_after (he : e.IsNew) {calls : List Call} (hi : (after (calls.map Call.request) e).Shows i) :
    i.WellFormed ∧ i.Aligned ∧ i.Each Container.Keyed ∧ i.Each Container.BoolFree := by
  have hlive : (after (calls.map Call.request ++ [.ready]) e).session.live = some i := by rw [after_ready]; exact hi
  have hcalls : ∀ r ∈ calls.map Call.request, r.Migrates := List.forall_mem_map.2 fun call _ => by
    cases call <;> trivial
  have hmigrates : ∀ r ∈ calls.map Call.request ++ [.ready], r.Migrates :=
    List.forall_mem_append.2 ⟨hcalls, List.forall_mem_singleton.2 trivial⟩
  obtain ⟨hw, ha⟩ := live_after Demo.makes_aligned (Image.aligned_empty 1) Image.reloads_aligned
    (fun r hr => (hmigrates r hr).leads) he hlive
  have hkeyed := (live_after Container.steady_keyed.makes_fill (.empty 1 {}) (fun _ _ _ _ _ h => h)
    (fun r _ => Container.steady_keyed.leads r) he hlive).2
  exact ⟨hw, ha, hkeyed, boolFree_after he calls hlive⟩

theorem steadfast_ready {settings : Settings} {s : Session} (hs : s.store.Steadfast) :
    (ready settings s).2.store.Steadfast := by
  have hopen := Session.steadfast_openWith (if settings.seeded then Demo.fill else pure ()) hs
  rw [ready, bind_apply]
  cases ho : Session.openWith (if settings.seeded then Demo.fill else pure ()) s with
  | mk outcome s' =>
    rw [ho] at hopen
    cases outcome <;> exact hopen

/-- A session that tracks aligned images, and whose store takes commits, is opened to one that commits. -/
theorem commits_of_tracks (he : e.session.Tracks Image.Aligned Image.Aligned) (hi : e.Shows i)
    (hs : e.session.store.Steadfast) : (serve .ready e).2.session.Commits i ∧ i.Aligned := by
  have hready : ∀ r ∈ [Request.ready], r.Leads Image.Aligned fun i j => i.Aligned → j.Aligned :=
    List.forall_mem_singleton.2 trivial
  have htracks : (serve .ready e).2.session.Tracks Image.Aligned Image.Aligned :=
    tracks_after (Image.aligned_empty 1) Demo.makes_aligned Image.reloads_aligned (fun _ _ _ hp hd => hd hp) hready he
  have hsteadfast : (serve .ready e).2.session.store.Steadfast := steadfast_ready hs
  cases hsession : (serve .ready e).2.session with
  | mk store live =>
    rw [Shows, hsession] at hi
    rw [hsession] at htracks hsteadfast
    obtain rfl : live = some i := hi
    obtain ⟨hretains, hw, ha⟩ := htracks.of_live
    exact ⟨⟨rfl, hretains, hsteadfast, hw⟩, ha⟩

/-- Requests that change which tables there are by migrations only lead to aligned images. -/
theorem tracks_aligned_after (he : e.IsNew) {rs : List Request} (hrs : ∀ r ∈ rs, r.Migrates) :
    (after rs e).session.Tracks Image.Aligned Image.Aligned :=
  tracks_after (Image.aligned_empty 1) Demo.makes_aligned Image.reloads_aligned (fun _ _ _ hp hd => hd hp)
    (fun r hr => (hrs r hr).leads) (he.tracks fun _ h => h)

/-- An engine whose store takes commits will commit to the image that it shows. -/
theorem commits_after (he : e.IsNew) {rs : List Request} (hrs : ∀ r ∈ rs, r.Migrates) (hi : (after rs e).Shows i)
    (hs : (after rs e).session.store.Steadfast) : (serve .ready (after rs e)).2.session.Commits i ∧ i.Aligned :=
  commits_of_tracks (tracks_aligned_after he hrs) hi hs

/-! ### Runs of texts on an engine and on the one that was opened -/

theorem succeed_of_shows (hi : e.Shows i) : ∀ {texts : List String}, Succeed (texts.map .run) (serve .ready e).2 →
    Succeed (texts.map .run) e
  | [], _ => trivial
  | text :: texts, h => by
    rw [List.map_cons, Succeed, serve_run_of_shows hi text]
    exact h

theorem shows_after_runs (hi : e.Shows i) : ∀ {texts : List String},
    (after (texts.map .run) (serve .ready e).2).session.live = some j → (after (texts.map .run) e).Shows j
  | [], h => h
  | text :: texts, h => by
    have hlive : (after ((text :: texts).map .run) e).session.live = some j := by
      change (after (texts.map .run) (serve (.run text) e).2).session.live = some j
      rw [serve_run_of_shows hi text]
      exact h
    exact shows_of_live hlive

/-- A table of the catalog has the key column of its container among its columns. -/
theorem exists_table (ha : i.Aligned) (hc : i.find? table = some c) :
    ∃ t, i.catalog.find? table = some t ∧ c.keyPath ∈ t.columnNames := by
  have hrow := ha table
  rw [hc] at hrow
  cases ht : i.catalog.find? table with
  | none =>
    rw [ht] at hrow
    cases hrow
  | some t =>
    rw [ht] at hrow
    exact ⟨t, rfl, List.mem_of_head? (Option.some.inj hrow)⟩

/-- Copies of all records of a table show as they do, and have their keys. -/
theorem exists_of_copied {keyPath : String} (h : j.Copied table (Query.columnsOf i table) keyPath c.records.entries) :
    ∃ d, j.find? table = some d ∧ rowsOf j table d = rowsOf i table c ∧ d.records.keys = c.records.keys ∧
      ∀ k, (d.find? k).map (Query.project (Query.columnsOf i table)) =
        (c.find? k).map (Query.project (Query.columnsOf i table)) := by
  obtain ⟨d, hd, -, hentries⟩ := h.container
  have hrecords : d.records = c.records.mapValues (Record.copy (Query.columnsOf i table)) :=
    congrArg OrderedMap.mk hentries
  have hproject : Query.project (Query.columnsOf i table) ∘ Record.copy (Query.columnsOf i table) =
      Query.project (Query.columnsOf i table) := funext Record.project_copy
  refine ⟨d, hd, ?_, ?_, fun k => ?_⟩
  · rw [rowsOf, rowsOf, h.columns_eq, Container.scan, hrecords, OrderedMap.values_mapValues, List.map_map, hproject,
      Container.scan]
  · rw [hrecords, OrderedMap.keys, OrderedMap.mapValues, List.map_map]
    rfl
  · rw [Container.find?, hrecords, OrderedMap.find?_mapValues, Option.map_map, hproject, Container.find?]

/-- The texts of a dump are carried out one after another where the table is empty, and copy its records. -/
theorem succeed_dumped {g : Engine} (ha : i.Aligned) (hkeyed : i.Each Container.Keyed)
    (hboolFree : i.Each Container.BoolFree) (hc : i.find? table = some c) (hfinite : ∀ r ∈ c.scan, r.Finite)
    (hg : g.session.Commits j) (ha' : j.Aligned) {d : Container} (hd : j.find? table = some d)
    (hempty : d.records = .empty) (hsame : j.catalog.find? table = i.catalog.find? table) :
    Succeed ((dumped i table c).map .run) g ∧ ∃ j', (after ((dumped i table c).map .run) g).session.Commits j' ∧
      j'.Copied table (Query.columnsOf i table) c.keyPath c.records.entries := by
  obtain ⟨t, ht, hpath⟩ := exists_table ha hc
  have hcolumns : Query.columnsOf i table = t.columnNames := by rw [Query.columnsOf, ht]
  have hcolumns' : Query.columnsOf j table = t.columnNames := by rw [Query.columnsOf, hsame, ht]
  have hpaths : d.keyPath = c.keyPath := by
    have h := ha table
    have h' := ha' table
    rw [hd, hsame, h, hc] at h'
    exact (Option.some.inj (Option.some.inj h')).symm
  have hstart : j.Copied table t.columnNames c.keyPath [] :=
    ⟨hcolumns', d, hd, hpaths, by rw [hempty]; rfl⟩
  have htexts : c.records.entries.map (fun x => Request.run (String.ofList (insertion i table x.2).write)) =
      (dumped i table c).map .run := by
    rw [dumped, Container.scan, OrderedMap.values, List.map_map, List.map_map]
    rfl
  have hreplayed := replayed ht (hkeyed.of_find? hc) hpath (hboolFree.of_find? hc) hfinite c.records.entries rfl hg
    hstart
  rwa [htexts, ← hcolumns] at hreplayed

/-- **A dump is replayed.** Take any table of an engine over a new store that was only asked by the texts of statements
and for other names of tables, with no real in it that is not finite, and any other engine that has a table of the same
name and definition without records, and whose commits will reach the medium. Then the statements of the dump succeed
there, one after another; both tables show the same columns and rows in the same order, and hold the same values of
these columns under the same keys. -/
theorem dump_is_replayed {e f : Engine} (he : e.IsNew) (calls : List Call) (hf : f.IsNew) (rs : List Request)
    (hrs : ∀ r ∈ rs, r.Migrates) {i j : Image} {table : String} {c d : Container}
    (hi : (after (calls.map Call.request) e).Shows i) (hc : i.find? table = some c) (hfinite : ∀ r ∈ c.scan, r.Finite)
    (hj : (after rs f).Shows j) (hd : j.find? table = some d) (hempty : d.records = .empty)
    (hsame : j.catalog.find? table = i.catalog.find? table) (hcommits : (after rs f).session.store.Steadfast) :
    ∃ texts, (serve (.dump table) (after (calls.map Call.request) e)).1 = .ok (.texts texts) ∧
      Succeed (texts.map .run) (after rs f) ∧
      ∃ j' d', (after (texts.map .run) (after rs f)).Shows j' ∧ j'.find? table = some d' ∧
        (serve (.run (selection table)) (after (calls.map Call.request) e)).1 = .ok (.resultSet (rowsOf i table c)) ∧
        (serve (.run (selection table)) (after (texts.map .run) (after rs f))).1 =
          .ok (.resultSet (rowsOf i table c)) ∧
        d'.records.keys = c.records.keys ∧
        ∀ k, (d'.find? k).map (Query.project (Query.columnsOf i table)) =
          (c.find? k).map (Query.project (Query.columnsOf i table)) := by
  obtain ⟨-, ha, hkeyed, hboolFree⟩ := shown_after he hi
  obtain ⟨hopen, ha'⟩ := commits_after hf hrs hj hcommits
  obtain ⟨hsucceed, j', hopen', hcopied⟩ := succeed_dumped ha hkeyed hboolFree hc hfinite hopen ha' hd hempty hsame
  obtain ⟨d', hd', hrows, hkeys, hvalues⟩ := exists_of_copied hcopied
  have hshows := shows_after_runs hj hopen'.live
  have hselection := serve_selection hshows hd'
  rw [hrows] at hselection
  exact ⟨dumped i table c, serve_dump hi hc, succeed_of_shows hj hsucceed, j', d', hshows, hd', serve_selection hi hc,
    hselection, hkeys, hvalues⟩

/-- An engine with a table that has a real that is an integer for a key, a zero below zero, a key from the generator,
quotes and a comment mark in texts, and a missing value; a keyword is the name of the table. -/
def filling : List Call :=
  [.run "CREATE TABLE t (k REAL, \"a b\" TEXT)", .run "INSERT INTO t VALUES (2.0, 'it''s'), (-0.0, NULL)",
    .run "INSERT INTO t (\"a b\") VALUES ('--')", .rename "t" "select"]

/-- The same table without records, in a keyspace that is opened again. -/
def preparing : List Request :=
  [.run "CREATE TABLE \"select\" (k REAL, \"a b\" TEXT)", .restart { seeded := false }]

/-- The definition of both tables. -/
def filledTable : Table := ⟨"select", [⟨"k", .real⟩, ⟨"a b", .text⟩]⟩

theorem filled_table_is_replayed : ∃ i c j d texts,
    (after (filling.map Call.request) (inMemory { seeded := false } [])).Shows i ∧ i.find? "select" = some c ∧
    c.records.keys = [.integer 0, .integer 2, .integer 3] ∧ (∀ r ∈ c.scan, r.Finite) ∧
    (after preparing (overKeyspace { seeded := false } [])).Shows j ∧ j.find? "select" = some d ∧ d.records = .empty ∧
    j.catalog.find? "select" = i.catalog.find? "select" ∧
    (after preparing (overKeyspace { seeded := false } [])).session.store.Steadfast ∧
    (serve (.dump "select") (after (filling.map Call.request) (inMemory { seeded := false } []))).1 =
      .ok (.texts texts) ∧
    Succeed (texts.map .run) (after preparing (overKeyspace { seeded := false } [])) := by
  have hsource :
      ((serve .ready (after (filling.map Call.request) (inMemory { seeded := false } []))).2.session.live.bind fun i =>
        (i.find? "select").map fun c => (i.catalog.find? "select", c.records.keys,
          decide (∀ r ∈ c.scan, r.Finite))) =
          some (some filledTable, [.integer 0, .integer 2, .integer 3], true) := by decide +kernel
  have htarget : ((serve .ready (after preparing (overKeyspace { seeded := false } []))).2.session.live.bind
      fun j => (j.find? "select").map fun d => (j.catalog.find? "select", d.records)) =
        some (some filledTable, .empty) := by decide +kernel
  have hfates : (after preparing (overKeyspace { seeded := false } [])).session.store.fates = [] ∧
      (after preparing (overKeyspace { seeded := false } [])).session.store.failing = false := by decide +kernel
  have hsteadfast := Store.steadfast_of_nil hfates.1 hfates.2
  obtain ⟨i, hi, hc⟩ := Option.bind_eq_some_iff.1 hsource
  obtain ⟨c, hc, hshown⟩ := Option.map_eq_some_iff.1 hc
  obtain ⟨ht, hshown⟩ := Prod.mk.inj hshown
  obtain ⟨hkeys, hfinite⟩ := Prod.mk.inj hshown
  obtain ⟨j, hj, hd⟩ := Option.bind_eq_some_iff.1 htarget
  obtain ⟨d, hd, hshown'⟩ := Option.map_eq_some_iff.1 hd
  obtain ⟨ht', hempty⟩ := Prod.mk.inj hshown'
  have hmigrates : ∀ r ∈ preparing, r.Migrates := by simp [preparing, Request.Migrates]
  have hfinite' := of_decide_eq_true hfinite
  have hsame := ht'.trans ht.symm
  obtain ⟨texts, hdump, hsucceed, -⟩ := dump_is_replayed (isNew_inMemory _ _) filling (isNew_overKeyspace _ _) preparing
    hmigrates hi hc hfinite' hj hd hempty hsame hsteadfast
  exact ⟨i, c, j, d, texts, hi, hc, hkeys, hfinite', hj, hd, hempty, hsame, hsteadfast, hdump, hsucceed⟩

end Engine

end TableStore
