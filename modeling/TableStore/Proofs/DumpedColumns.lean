import TableStore.Proofs.HeldColumns

/-!
# The columns of a dump

- an insertion takes any columns that it names, and a dump names those of the catalog; a column that is named beside the
  catalog is a stray (`Engine.strays`);
- the records of the live image, and those that the store holds, are within the columns of the catalog and the strays of
  the run (`Session.Within`). A request adds its strays and takes the others along where their table goes
  (`Engine.within_serve`), and by induction a run does so, restarts and failed requests included
  (`Engine.within_after`);
- so the dump of a table leaves out its strays and nothing else (`Engine.dump_leaves_out_strays`).
-/

namespace TableStore

open Attempt

/-! ## Sessions -/

theorem Keyspace.Holds.ordered {k : Keyspace} {i : Image} (h : k.Holds i) : i.Ordered := by
  refine .of_find? h.files.sorted fun name c hc => ?_
  obtain ⟨shelf, hs⟩ := Option.isSome_iff_exists.1 ((h.files.same name).trans (congrArg Option.isSome hc))
  exact (h.files.keeps hs hc).ordered

/-- What a keyspace holds for an image has its frame, and records within the same columns. -/
def Medium.Within (S : String → Set String) (m : Medium) (j : Image) : Prop :=
  ∀ k, m = .keyspace k → ∃ i, k.Holds i ∧ i.catalog.Filed ∧ i.SameFrame j ∧ i.Within S

/-- A medium that retains an image within some columns, and has its records within them too. -/
structure Medium.Confines (S : String → Set String) (m : Medium) (j : Image) : Prop where
  retains : m.Retains j
  within : m.Within S j
  wellFormed : j.WellFormed
  keyed : j.Each Container.Keyed
  image : j.Within S

/-- A session whose live image and whose medium are within some columns; a medium that is not written has no records. -/
def Session.Within (S : String → Set String) : Session → Prop :=
  Over Medium.Unwritten (Medium.Confines S) fun _ => True

namespace Medium

variable {S S' : String → Set String} {m m' : Medium} {changes : ChangeSet} {i j : Image}

theorem Within.mono (h : m.Within S j) (hS : ∀ name, S name ⊆ S' name) : m.Within S' j := fun k hk => by
  obtain ⟨i, hi, hf, hframe, hw⟩ := h k hk
  exact ⟨i, hi, hf, hframe, hw.mono hS⟩

/-- What is loaded is within the columns of what is kept. -/
theorem Confines.load {o : Option Image} (h : m.Confines S j) (hl : m.load = .ok o) :
    ∃ i, o = some i ∧ m.Confines S i := by
  obtain ⟨hs, hm, hj, hk, hw⟩ := h
  obtain ⟨i, rfl, hs', hi, hsame⟩ := hs.load hj hl
  refine ⟨i, rfl, ?_⟩
  rcases hsame with rfl | ⟨-, hk'⟩
  · exact ⟨hs, hm, hj, hk, hw⟩
  · cases hs with
    | memory =>
      cases hl
      exact ⟨hs', hm, hi, hk', hw⟩
    | @keyspace k =>
      obtain ⟨l, hheld, hfiled, -, hlw⟩ := hm k rfl
      refine ⟨hs', fun k' hk => ?_, hi, hk', hheld.within_of_load hfiled hlw hl⟩
      cases hk
      exact ⟨l, hheld, hfiled, (hheld.load_sound hfiled hl).1, hlw⟩

/-- The first commit writes what the image has. -/
theorem Unwritten.commit_within (h : m.Unwritten) (hf : changes.Fits {} i) (hi : i.WellFormed) (hw : i.Within S)
    (hc : m.commit changes = (.ok (), m')) : m'.Within S i := by
  rintro k' rfl
  cases h with
  | memory => cases (commit_memory none hf.apply_eq).symm.trans hc
  | keyspace _ hk =>
    obtain ⟨k, hcommit, -, hh⟩ := hk.commit hf
    cases (commit_keyspace hcommit).symm.trans hc
    exact ⟨i, hh, hi.filed, .refl i, hw⟩

/-- **A commit takes the medium along with the live image.** -/
theorem Within.commit (h : m.Within S i) (hs : m.Retains i) (hi : i.WellFormed) (hj : j.WellFormed)
    (hf : changes.Fits i j) (hw : i.Within S) (hpasses : Image.Passes S S' i j)
    (hc : m.commit changes = (.ok (), m')) : m'.Within S' j := by
  rintro k' rfl
  cases hs with
  | memory => cases (commit_memory (some i) hf.apply_eq).symm.trans hc
  | @keyspace k =>
    obtain ⟨l, hheld, hfiled, hframe, hlw⟩ := h k rfl
    have hsorted := hheld.files.sorted
    obtain ⟨k'', hcommit, -, hh⟩ := hheld.commit (hf.transfer hsorted hi.sound.sorted hframe)
    cases (commit_keyspace hcommit).symm.trans hc
    have hframe' := hframe.applied hsorted hi.sound.sorted changes
    rw [hf.applied_eq] at hframe'
    exact ⟨l.applied changes, hh, hf.filed_applied hj.filed hfiled, hframe',
      hlw.applied hheld.ordered hi.sound.image_ordered hframe hf (hpasses.within hw) hpasses.grows⟩

end Medium

namespace Session.Within

variable {S S' : String → Set String} {s : Session}

theorem mono (h : s.Within S) (hS : ∀ name, S name ⊆ S' name) : s.Within S' :=
  Over.imp h (fun _ => id) fun _ _ h => ⟨h.retains, h.within.mono hS, h.wellFormed, h.keyed, h.image.mono hS⟩

/-- **Units that lead from images to images within other columns lead from sessions to sessions within them**, as far as
that is asked of the sessions that they lead to. -/
theorem passage (F : Session → Prop) : Passage (fun i => i.Each Container.Keyed ∧ i.Within fun _ => ∅)
    (fun i i' => (i.Each Container.Keyed → i'.Each Container.Keyed) ∧
      ((∃ store, F ⟨store, some i'⟩) → i.Each Container.Keyed → Image.Passes S S' i i'))
    (fun _ => Within S) fun _ s => F s → s.Within S' := by
  have hmedium : Medium.Passage (fun i => i.Each Container.Keyed ∧ i.Within fun _ => ∅)
      (fun i i' => (i.Each Container.Keyed → i'.Each Container.Keyed) ∧
        ((∃ store, F ⟨store, some i'⟩) → i.Each Container.Keyed → Image.Passes S S' i i'))
      (fun _ => Medium.Unwritten) (fun _ => Medium.Confines S)
      (fun _ m i => (∃ store, F ⟨store, some i⟩) → m.Confines S' i) fun _ => True := {
    wellFormed := fun h => h.wellFormed
    new := fun h => h.load_eq
    load := fun h _ hl => h.load hl
    first := by
      intro _ m changes i hnew hf
      obtain ⟨m', hm, hretains⟩ := hnew.commit hf
      refine ⟨m', hm, fun hi hc _ => ?_⟩
      have hw : Image.Within S _ := hc.2.mono fun _ => Set.empty_subset _
      exact ⟨hretains hi, hnew.commit_within hf hi hw hm, hi, hc.1, hw⟩
    next := by
      intro _ m changes i i' h hf
      obtain ⟨m', hm, hretains⟩ := h.retains.commit h.wellFormed hf
      refine ⟨m', hm, fun _ hi' hd _ hF => ?_⟩
      have hpasses := hd.2 hF h.keyed
      exact ⟨hretains hi', h.within.commit h.retains h.wellFormed hi' hf h.image hpasses hm, hi', hd.1 h.keyed,
        hpasses.within h.image⟩ }
  exact Over.passage hmedium ⟨.empty 1 {}, Image.within_empty _ 1⟩
    (fun u hu => ⟨Container.steady_keyed.makes_fill u hu, Demo.makes_within u hu⟩)
    fun h hF => .kept (h ⟨_, hF⟩) (.inr rfl)

end Session.Within

/-! ## Insertions -/

/-- A record that is added is there, with its columns. -/
theorem Container.exists_of_add {c d : Container} {r : Record} {k : Key} (h : c.add r = .ok (k, d)) :
    ∃ r' ∈ d.scan, ∀ x ∈ r.names, x ∈ r'.names := by
  rw [add] at h
  split at h
  · cases h
  · rename_i k' r' hkeyed
    split at h <;> cases h
    rename_i hfree
    have hperm := (OrderedMap.perm_insertIn r' (Option.not_isSome_iff_eq_none.1 hfree)).map Prod.snd
    exact ⟨r', hperm.mem_iff.2 List.mem_cons_self, fun x hx => (mem_names_of_keyed hkeyed).2 (.inl hx)⟩

/-- A row that is added has as many values as there are columns. -/
theorem Query.length_of_addRows {columns : List String} {row : List Value} {rows : List (List Value)} {c d : Container}
    (h : addRows columns (row :: rows) c = (.ok ⟨⟩, d)) : row.length = columns.length := by
  by_contra hne
  rw [addRows, Attempt.forEach, bind_apply, addRow, if_neg hne] at h
  cases h

/-! ## Requests -/

theorem Statement.Leads.and {D D' : Image → Image → Prop} {s : Statement} (h : s.Leads D) (h' : s.Leads D') :
    s.Leads fun i j => D i j ∧ D' i j := by
  cases s with
  | create table => exact fun i a u hi hr => ⟨h i a u hi hr, h' i a u hi hr⟩
  | createAs name rows => exact fun t rs ht i a u hi hr => ⟨h t rs ht i a u hi hr, h' t rs ht i a u hi hr⟩
  | drop name => exact fun i a u hi hr => ⟨h i a u hi hr, h' i a u hi hr⟩
  | select => trivial
  | insert table columns rows => exact fun i a j hi hr => ⟨h i a j hi hr, h' i a j hi hr⟩
  | delete table condition =>
    cases condition with
    | none => trivial
    | some condition => exact fun m i a j hi hr => ⟨h m i a j hi hr, h' m i a j hi hr⟩

theorem Request.Leads.and {C C' : Image → Prop} {D D' : Image → Image → Prop} {r : Request} (h : r.Leads C D)
    (h' : r.Leads C' D') : r.Leads (fun i => C i ∧ C' i) fun i j => D i j ∧ D' i j := by
  cases r with
  | run text => exact fun s hs => (h s hs).and (h' s hs)
  | execute s => exact Statement.Leads.and h h'
  | rename | migrate | upgrade => exact fun i a u hi hr => ⟨h i a u hi hr, h' i a u hi hr⟩
  | write => exact fun i a j hi hr => ⟨h i a j hi hr, h' i a j hi hr⟩
  | openWith => exact fun u hu => ⟨h u hu, h' u hu⟩
  | _ => trivial

/-- A request that changes tables and records by statements and other names for tables only. -/
def Request.Plain : Request → Prop
  | .migrate _ | .write _ | .upgrade _ | .openWith _ => False
  | _ => True

theorem Request.Plain.migrates {r : Request} (hr : r.Plain) : r.Migrates := by
  cases r <;> trivial

namespace Engine

variable {S S' : String → Set String} {r : Request} {e : Engine} {i : Image} {table name x : String}

/-- The columns that an insertion into a table names and the table has not, if it succeeds and brings rows. -/
def strays (r : Request) (e : Engine) (table : String) : List String :=
  match (serve r e).1, r.statement?, (serve r e).2.session.live with
  | .ok _, some (.insert name (some columns) (_ :: _)), some i =>
    if name = table then columns.filter fun x => x ∉ Query.columnsOf i table else []
  | _, _, _ => []

/-- What becomes of columns of tables in a request: they go with the tables, and strays are added. -/
def passedOn (S : String → Set String) (r : Request) (e : Engine) (name : String) : Set String :=
  {x | x ∈ strays r e name} ∪ {x | ∃ source, x ∈ S source ∧ nameAfter r e source = some name}

theorem mem_strays {a : Answer} {columns : List String} {rows : List (List Value)} (ha : (serve r e).1 = .ok a)
    (hs : r.statement? = some (.insert table (some columns) rows)) (hrows : rows ≠ [])
    (hlive : (serve r e).2.session.live = some i) (hx : x ∈ columns) (hnot : x ∉ Query.columnsOf i table) :
    x ∈ strays r e table := by
  obtain ⟨row, rows, rfl⟩ := List.exists_cons_of_ne_nil hrows
  rw [strays, ha, hs, hlive]
  simp [hx, hnot]

theorem exists_of_mem_strays (h : x ∈ strays r e table) : ∃ a columns rows i, (serve r e).1 = .ok a ∧
    r.statement? = some (.insert table (some columns) rows) ∧ rows ≠ [] ∧ (serve r e).2.session.live = some i ∧
    x ∈ columns ∧ x ∉ Query.columnsOf i table := by
  rw [strays] at h
  split at h
  · rename_i a name columns row rows i ha hs hi
    split at h
    · rename_i hname
      obtain rfl := hname
      obtain ⟨hx, hnot⟩ := List.mem_filter.1 h
      exact ⟨a, columns, row :: rows, i, ha, hs, List.cons_ne_nil row rows, hi, hx, of_decide_eq_true hnot⟩
    · exact absurd h List.not_mem_nil
  · exact absurd h List.not_mem_nil

/-- Without migrations a table keeps its name. -/
theorem nameAfter_of_nil (h : r.migrations = []) (e : Engine) (name : String) : nameAfter r e name = some name := by
  rw [nameAfter, h]
  split <;> rfl

theorem nameAfter_of_singleton {a : Answer} {m : Migration} (ha : (serve r e).1 = .ok a) (h : r.migrations = [m])
    (name : String) : nameAfter r e name = m.nameAfter name := by
  rw [nameAfter, ha, h]
  change (m.nameAfter name).bind (Migration.nameAfterAll []) = _
  cases m.nameAfter name <;> rfl

theorem subset_passedOn (h : nameAfter r e name = some table) : S name ⊆ passedOn S r e table := fun _ hx =>
  .inr ⟨name, hx, h⟩

/-- A request is answered without an error, and leads to a session. -/
def LeadsTo (r : Request) (e : Engine) (s : Session) : Prop := (∃ a, (serve r e).1 = .ok a) ∧ (serve r e).2.session = s

/-- An insertion brings columns of the table and strays only. -/
theorem passes_of_insert {columns : Option (List String)} {rows : List (List Value)} {a : Answer} {j : Image} {n : Nat}
    (hs : r.statement? = some (.insert table columns rows)) (hm : r.migrations = []) (hi : i.WellFormed)
    (hr : Query.insert table columns rows i = (.ok n, j)) (ha : (serve r e).1 = .ok a)
    (hlive : (serve r e).2.session.live = some (Transaction.finished j)) :
    Image.Passes S (passedOn S r e) i (Transaction.finished j) := by
  refine Query.passes_insert hi.sound hr (fun name => subset_passedOn (nameAfter_of_nil hm e name)) fun hrows x hx => ?_
  have hcatalog : j.catalog = i.catalog := by
    obtain ⟨_, hj⟩ := Query.keeps_insert table columns rows i ⟨_, .start hi.sound⟩
    rw [hr] at hj
    exact hj.catalog
  by_cases hcolumn : x ∈ Query.columnsOf i table
  · exact .inl hcolumn
  · cases columns with
    | none => exact absurd hx hcolumn
    | some columns =>
      refine .inr (.inl (mem_strays ha hs hrows hlive hx ?_))
      rw [Query.columnsOf] at hcolumn ⊢
      rwa [← hcatalog] at hcolumn

/-- **Statements stay within the columns that they pass on.** -/
theorem leads_passes_of_statement {s : Statement} (hs : r.statement? = some s) (hm : r.migrations = s.migrations)
    (S : String → Set String) (e : Engine) : s.Leads fun i j => (∃ store, LeadsTo r e ⟨store, some j⟩) →
      i.Each Container.Keyed → Image.Passes S (passedOn S r e) i j := by
  have hmigration : ∀ m : Migration, s.migrations = [m] → m.Declared → Upgrade.Leads
      (fun i j => (∃ store, LeadsTo r e ⟨store, some j⟩) → i.Each Container.Keyed →
        Image.Passes S (passedOn S r e) i j) (Migration.runAll [m]) := by
    rintro m hsm hdeclared i a u hi hr ⟨_, ⟨a, ha⟩, _⟩ hk
    rw [Migration.runAll_singleton] at hr
    refine Migration.passes hdeclared hi hk hr fun source name hname => subset_passedOn ?_
    rw [nameAfter_of_singleton ha (hm.trans hsm), hname]
  cases s with
  | create table => exact hmigration _ rfl trivial
  | createAs name rows =>
    intro table records ht
    refine hmigration _ ?_ (Statement.declared_of_literalTable ht)
    rw [Statement.migrations, ht]
  | drop name => exact hmigration _ rfl trivial
  | select => trivial
  | insert table columns rows =>
    rintro i n j hi hr ⟨store, ⟨a, ha⟩, hsession⟩ -
    exact passes_of_insert hs hm hi hr ha (by rw [hsession])
  | delete table condition =>
    cases condition with
    | none => trivial
    | some condition =>
      exact fun m i n j hi hr _ hk => Query.passes_delete hi.sound hk hr fun name =>
        subset_passedOn (nameAfter_of_nil hm e name)

theorem leads_passes (hr : r.Plain) (C : Image → Prop) (S : String → Set String) (e : Engine) :
    r.Leads C fun i j => (∃ store, LeadsTo r e ⟨store, some j⟩) → i.Each Container.Keyed →
      Image.Passes S (passedOn S r e) i j := by
  cases r with
  | run text =>
    intro s hs
    have hstatement : (Request.run text).statement? = some s := by
      rw [Request.statement?, hs]
      rfl
    refine leads_passes_of_statement hstatement ?_ S e
    change ((Request.run text).statement?.map Statement.migrations).getD [] = s.migrations
    rw [hstatement]
    rfl
  | execute s => exact leads_passes_of_statement rfl rfl S e
  | rename source target =>
    rintro i a u hi hr ⟨_, ⟨a, ha⟩, _⟩ hk
    rw [Migration.runAll_singleton] at hr
    refine Migration.passes (m := .rename source target) trivial hi hk hr fun source name hname => subset_passedOn ?_
    rw [nameAfter_of_singleton ha rfl, hname]
  | migrate => exact hr.elim
  | write => exact hr.elim
  | upgrade => exact hr.elim
  | openWith => exact hr.elim
  | _ => trivial

/-- **A plain request leads from a session within some columns to one within those that it passes on.** -/
theorem within_serve (hr : r.Plain) (he : e.session.Within S) : (serve r e).2.session.Within (passedOn S r e) := by
  have hkept : ∀ {s : Session}, s.Within S → (r.upgrades = 0 ∨ ∃ err, (serve r e).1 = .error err) →
      s.Within (passedOn S r e) := fun hs h => by
    refine hs.mono fun name => subset_passedOn ?_
    rcases h with hu | ⟨err, herr⟩
    · exact nameAfter_of_nil (hr.migrates.migrations_eq_nil hu) e name
    · rw [nameAfter, herr]
  have hmeets := meets_serve_of_leads (n := 0) (Session.Within.passage (LeadsTo r e))
    (fun hu _ _ hs hm hl _ => hkept (Session.Over.of_medium hs hm hl) (.inl hu))
    (fun _ hsettings _ _ hs _ => hkept (Session.Over.restart hs fun _ _ => trivial) (.inl (by rw [hsettings]; rfl)))
    ((Container.steady_keyed.leads r).and (leads_passes hr _ S e)) e he
  cases hs : serve r e with
  | mk outcome e' =>
    rw [hs] at hmeets
    cases outcome with
    | ok a => exact hmeets ⟨⟨a, by rw [hs]⟩, by rw [hs]⟩
    | error err => exact hkept hmeets (.inr ⟨err, by rw [hs]⟩)

/-! ## Runs -/

theorem nameAfterAll_concat (r : Request) : ∀ (rs : List Request) (e : Engine) (name : String),
    nameAfterAll (rs ++ [r]) e name = (nameAfterAll rs e name).bind (nameAfter r (after rs e))
  | [], e, name => by
    change (nameAfter r e name).bind (nameAfterAll [] _) = nameAfter r e name
    cases nameAfter r e name <;> rfl
  | r' :: rs, e, name => by
    change (nameAfter r' e name).bind (nameAfterAll (rs ++ [r]) _) =
      ((nameAfter r' e name).bind (nameAfterAll rs _)).bind _
    rw [Option.bind_assoc]
    exact congrArg _ (funext fun n => nameAfterAll_concat r rs _ n)

/-- The strays of a table in a run: an insertion has named the column, into the table under the name that it had then.
-/
def Strayed (rs : List Request) (e : Engine) (table : String) : Set String :=
  {x | ∃ earlier r later name, rs = earlier ++ r :: later ∧ x ∈ strays r (after earlier e) name ∧
    nameAfterAll later (serve r (after earlier e)).2 name = some table}

theorem passedOn_strayed (rs : List Request) (r : Request) (e : Engine) (table : String) :
    passedOn (Strayed rs e) r (after rs e) table ⊆ Strayed (rs ++ [r]) e table := by
  rintro x (hx | ⟨source, ⟨earlier, r', later, name, rfl, hx, hname⟩, hsource⟩)
  · exact ⟨rs, r, [], table, rfl, hx, rfl⟩
  · refine ⟨earlier, r', later ++ [r], name, by simp, hx, ?_⟩
    have hafter : after (earlier ++ r' :: later) e = after later (serve r' (after earlier e)).2 := by
      rw [after, List.foldl_append, List.foldl_cons]
      rfl
    rw [nameAfterAll_concat, hname, Option.bind_some, ← hafter, hsource]

/-- **The records of a run stay within the columns of the catalog and the strays.** -/
theorem within_after (he : e.IsNew) {rs : List Request} (hrs : ∀ r ∈ rs, r.Plain) :
    (after rs e).session.Within (Strayed rs e) := by
  induction rs using List.reverseRecOn with
  | nil => exact .new he.medium_unwritten he.closed
  | append_singleton rs r ih =>
    obtain ⟨hrs, hr⟩ := List.forall_mem_append.1 hrs
    have hstep := within_serve (hr r (List.mem_singleton_self r)) (ih hrs)
    have hafter : after (rs ++ [r]) e = (serve r (after rs e)).2 := List.foldl_concat ..
    rw [hafter]
    exact hstep.mono (passedOn_strayed rs r e)

/-- An insertion that names a stray leaves a record with it. -/
theorem exists_record_of_strays (he : e.session.Regular) (hx : x ∈ strays r e table) : ∃ i c record,
    (serve r e).2.session.live = some i ∧ i.find? table = some c ∧ record ∈ c.scan ∧ x ∈ record.names ∧
      x ∉ Query.columnsOf i table := by
  obtain ⟨a, columns, rows, i, ha, hs, hrows, hlive, hx, hnot⟩ := exists_of_mem_strays hx
  obtain ⟨row, rows, rfl⟩ := List.exists_cons_of_ne_nil hrows
  obtain ⟨store, i₀, n, hopened, hwrite⟩ := exists_of_insert hs ha
  have hregular := regular_opened he r
  rw [hopened] at hregular
  obtain ⟨-, hw, -⟩ := hregular.of_live
  obtain ⟨j, store', hbody, -, hsession⟩ := Session.exists_of_write_live hwrite
  obtain rfl : Transaction.finished j = i := by
    rw [hsession] at hlive
    exact Option.some.inj hlive
  cases hc : i₀.find? table with
  | none =>
    rw [Query.insert_of_none hc] at hbody
    cases hbody
  | some c =>
    obtain ⟨d, hadded, hfound⟩ := Query.insert_eq_ok hw.sound hc hbody
    have hlength := Query.length_of_addRows hadded
    obtain ⟨k, b, hadd, hrest⟩ := Query.addRows_cons hadded
    obtain ⟨hkept, -⟩ := Container.sublist_of_addRows hrest
    obtain ⟨record, hrecord, hnames⟩ := Container.exists_of_add hadd
    refine ⟨_, _, record, hlive, hfound, (hkept.map Prod.snd).subset hrecord, hnames x ?_, hnot⟩
    refine Record.mem_names_ofList.2 ?_
    rwa [List.map_fst_zip (Nat.le_of_eq hlength.symm)]

/-! ## Dumps -/

theorem plain_of_mem_strays (h : x ∈ strays r e table) : r.Plain := by
  obtain ⟨_, columns, rows, _, _, hs, _⟩ := exists_of_mem_strays h
  cases r with
  | migrate | write | upgrade | openWith => cases hs
  | _ => trivial

theorem IsNew.aligned_of_live (he : e.IsNew) {rs : List Request} (hrs : ∀ r ∈ rs, r.Plain)
    (hi : (after rs e).session.live = some i) : i.Aligned :=
  (live_after Demo.makes_aligned (Image.aligned_empty 1) Image.reloads_aligned
    (fun r hr => (hrs r hr).migrates.leads) he hi).2

/-- What is shown after a run is within the columns of the catalog and the strays. -/
theorem within_of_shows (he : e.IsNew) {rs : List Request} (hrs : ∀ r ∈ rs, r.Plain) (hi : (after rs e).Shows i) :
    i.Within (Strayed rs e) := by
  have hready := within_serve (r := .ready) trivial (within_after he hrs)
  have hw : i.Within (passedOn (Strayed rs e) .ready (after rs e)) := by
    cases hs : (serve .ready (after rs e)).2.session with
    | mk store live =>
      rw [hs] at hready
      obtain rfl : live = some i := (congrArg Session.live hs).symm.trans hi
      exact (Session.Over.of_live hready).image
  refine hw.mono fun name x hx => ?_
  rcases hx with hx | ⟨source, hx, hname⟩
  · exact absurd (exists_of_mem_strays hx) (by simp [Request.statement?])
  · obtain rfl : source = name := Option.some.inj ((nameAfter_of_nil rfl _ source).symm.trans hname)
    exact hx

/-- **A dump leaves out the strays of its table, and nothing else.** After any plain requests to a new engine, failed
ones and restarts among them, the dump of a table has an insertion for each record, in the order of the keys, which
gives each column of the table the value that the record has. If the record has any other column, an insertion that
succeeded has named this column, into the table under the name that it had then, though the table had no such column.
And each insertion that does so leaves a record whose insertion in a dump is without the column. -/
theorem dump_leaves_out_strays (he : e.IsNew) {rs : List Request} (hrs : ∀ r ∈ rs, r.Plain) (table : String) :
    (∀ i c, (after rs e).Shows i → i.find? table = some c →
      (serve (.dump table) (after rs e)).1 = .ok (.texts (dumped i table c)) ∧
      ∀ record ∈ c.scan, ∃ columns,
        insertion i table record = .insert table (some columns) [Query.project columns record] ∧
        ∀ x ∈ record.names, x ∈ columns ∨ x ∈ Strayed rs e table) ∧
    ∀ r, ∀ x ∈ strays r (after rs e) table, ∃ i c record columns,
      (serve (.dump table) (serve r (after rs e)).2).1 = .ok (.texts (dumped i table c)) ∧
      record ∈ c.scan ∧ x ∈ record.names ∧
      insertion i table record = .insert table (some columns) [Query.project columns record] ∧ x ∉ columns := by
  constructor
  · intro i c hi hc
    refine ⟨serve_dump hi hc, fun record hrecord => ?_⟩
    have hplain : ∀ r ∈ rs ++ [.ready], r.Plain :=
      List.forall_mem_append.2 ⟨hrs, List.forall_mem_singleton.2 trivial⟩
    have haligned : i.Aligned := he.aligned_of_live hplain (by rw [after_ready]; exact hi)
    obtain ⟨t, ht, hpath⟩ := exists_table haligned hc
    have hcolumns : Query.columnsOf i table = t.columnNames := by rw [Query.columnsOf, ht]
    refine ⟨t.columnNames, insertion_eq ht record, fun x hx => ?_⟩
    rw [← hcolumns] at hpath ⊢
    rcases within_of_shows he hrs hi table c hc record hrecord x hx with hx | rfl
    · exact hx
    · exact .inl hpath
  · intro r x hx
    obtain ⟨i, c, record, hlive, hc, hrecord, hnames, hnot⟩ :=
      exists_record_of_strays (regular_after (he.tracks fun _ hp => hp) rs) hx
    have hplain : ∀ r' ∈ rs ++ [r], r'.Plain :=
      List.forall_mem_append.2 ⟨hrs, List.forall_mem_singleton.2 (plain_of_mem_strays hx)⟩
    have hafter : after (rs ++ [r]) e = (serve r (after rs e)).2 := List.foldl_concat ..
    obtain ⟨t, ht, -⟩ := exists_table (he.aligned_of_live hplain (by rw [hafter]; exact hlive)) hc
    rw [Query.columnsOf, ht] at hnot
    exact ⟨i, c, record, t.columnNames, serve_dump (shows_of_live hlive) hc, hrecord, hnames,
      insertion_eq ht record, hnot⟩

/-- A table that gets another name between two insertions, of which the second names a column that it has not, and a
restart after them. -/
def astray : List Request :=
  [.run "CREATE TABLE t (id INTEGER)", .run "INSERT INTO t (id) VALUES (1)", .rename "t" "u",
    .run "INSERT INTO u (id, zzz) VALUES (2, 'x')", .restart { seeded := false }]

theorem stray_value_is_left_out :
    ∃ i c, (after astray (overKeyspace { seeded := false } [])).Shows i ∧ i.find? "u" = some c ∧
      c.scan.map Record.names = [["id"], ["id", "zzz"]] ∧
      (serve (.dump "u") (after astray (overKeyspace { seeded := false } []))).1 =
        .ok (.texts ["INSERT INTO u (id) VALUES (1)", "INSERT INTO u (id) VALUES (2)"]) ∧
      "zzz" ∈ Strayed astray (overKeyspace { seeded := false } []) "u" := by
  have hshown : ((serve .ready (after astray (overKeyspace { seeded := false } []))).2.session.live.bind fun i =>
      (i.find? "u").map fun c => (dumped i "u" c, c.scan.map fun r => (r.names, insertion i "u" r))) =
      some (["INSERT INTO u (id) VALUES (1)", "INSERT INTO u (id) VALUES (2)"],
        [(["id"], .insert "u" (some ["id"]) [[.integer 1]]),
          (["id", "zzz"], .insert "u" (some ["id"]) [[.integer 2]])]) := by decide +kernel
  obtain ⟨i, hi, hshown⟩ := Option.bind_eq_some_iff.1 hshown
  obtain ⟨c, hc, hshown⟩ := Option.map_eq_some_iff.1 hshown
  obtain ⟨hdumped, hrecords⟩ := Prod.mk.inj hshown
  have hplain : ∀ r ∈ astray, r.Plain := by simp [astray, Request.Plain]
  obtain ⟨hdump, hcolumns⟩ :=
    (dump_leaves_out_strays (isNew_overKeyspace { seeded := false } []) hplain "u").1 i c hi hc
  have hnames : c.scan.map Record.names = [["id"], ["id", "zzz"]] := by
    have := congrArg (List.map Prod.fst) hrecords
    rwa [List.map_map] at this
  obtain ⟨record, hrecord, heq⟩ : ∃ record ∈ c.scan, (record.names, insertion i "u" record) =
      (["id", "zzz"], .insert "u" (some ["id"]) [[.integer 2]]) :=
    List.mem_map.1 (hrecords ▸ List.mem_cons_of_mem _ List.mem_cons_self)
  obtain ⟨hzzz, hinsertion⟩ := Prod.mk.inj heq
  obtain ⟨columns, hinsert, hall⟩ := hcolumns record hrecord
  have hid : ["id"] = columns := Option.some.inj (Statement.insert.inj (hinsertion.symm.trans hinsert)).2.1
  refine ⟨i, c, hi, hc, hnames, by rw [hdump, hdumped], ?_⟩
  refine (hall "zzz" (by rw [hzzz]; decide)).resolve_left ?_
  rw [← hid]
  decide

end Engine

end TableStore
