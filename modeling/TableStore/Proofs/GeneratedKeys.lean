import TableStore.Proofs.Renaming

/-!
# Generated keys through runs

- `Engine.generated` are the keys that the generator of a table gives to the records of an insertion that succeeds, and
  `Engine.nameAfter` is the name that the table has after a request;
- an image is `Past` a key at a table whose generator has gone beyond the key; all requests that change tables by
  migrations keep that, but where the table gets another name `Engine.regains` must say that the records that are left
  take the new generator beyond the key (`Engine.past_serve`);
- so generated keys increase through such runs (`Engine.generated_keys_increase`).
-/

namespace TableStore

open Attempt

/-! ## Images -/

/-- A container with its records under their keys and a positive next key. -/
def Container.Regular (c : Container) : Prop := c.Keyed ∧ 1 ≤ c.nextKey

theorem Container.steady_regular : Steady Regular := steady_keyed.and steady_positive

/-- The generator of a table is past a key. -/
def Image.Past (name : String) (k : Int64) (i : Image) : Prop :=
  ∃ c, i.find? name = some c ∧ c.autoIncrement = true ∧ 1 ≤ c.nextKey ∧ k < c.nextKey

namespace Image

variable {i j : Image} {name : String} {k : Int64}

theorem SameFrame.exists_find? (h : i.SameFrame j) {c : Container} (hc : i.find? name = some c) :
    ∃ d, j.find? name = some d ∧ d.frame = c.frame := by
  have hframe := h.frames name
  rw [hc] at hframe
  obtain ⟨d, hd, he⟩ := Option.map_eq_some_iff.1 hframe.symm
  exact ⟨d, hd, he⟩

theorem reloads_past (name : String) (k : Int64) : Reloads (Past name k) := by
  rintro i j ⟨c, hc, hauto, hpos, hk⟩ h - -
  obtain ⟨d, hd, he⟩ := h.exists_find? hc
  simp only [Container.frame, Prod.mk.injEq] at he
  obtain ⟨-, ha, hn⟩ := he
  exact ⟨d, hd, ha.trans hauto, hn ▸ hpos, hn ▸ hk⟩

theorem reloads_regular : Reloads (Each Container.Regular) := by
  intro i j hi h hj hk c hc
  refine ⟨hk c hc, ?_⟩
  obtain ⟨name, -, hname⟩ := hj.sound.sorted.mem_values.1 hc
  obtain ⟨d, hd, he⟩ := h.symm.exists_find? hname
  simp only [Container.frame, Prod.mk.injEq] at he
  rw [← he.2.2]
  exact (hi.of_find? hd).2

theorem not_past_empty (name : String) (k : Int64) : ¬Past name k {} := by
  rintro ⟨c, hc, -⟩
  cases hc

end Image

theorem Transaction.find?_finished (j : Image) (name : String) :
    (finished j).find? name = (j.find? name).map Container.commit := OrderedMap.find?_mapValues _ _ _

/-- A transaction that has changed one container of a sound image is finished with that container. -/
theorem Image.Sound.finished_set {i : Image} (hi : i.Sound) (name : String) (d : Container) :
    Transaction.finished (i.set name d) = i.set name d.commit := by
  have hsorted := hi.sorted.insert (k := name) trivial d
  refine Image.ext_find? rfl rfl (hsorted.mapValues _) (hi.sorted.insert trivial _) fun n => ?_
  rw [Transaction.find?_finished, Image.find?_set hi.sorted, Image.find?_set hi.sorted]
  split
  · rfl
  · cases hc : i.find? n with
    | none => rfl
    | some c => exact congrArg some (Container.commit_of_none (hi.settled hc).closed)

/-- Transactions leave a generator past a key. -/
theorem Transaction.Working.past {i j : Image} (hj : Working i j) {name : String} {k : Int64} (hi : i.Past name k) :
    (finished j).Past name k := by
  obtain ⟨c, hc, hauto, hpos, hk⟩ := hi
  rcases hj.find? name with ⟨hn, -⟩ | ⟨c', d, ks, hc', hd, -, hs⟩
  · rw [hc] at hn
    cases hn
  · obtain rfl : c' = c := Option.some.inj (hc'.symm.trans hc)
    have hle := hs.nextKey_le
    refine ⟨d.commit, ?_, hs.autoIncrement_eq.trans hauto, Int64.le_trans hpos hle, Int64.lt_of_lt_of_le hk hle⟩
    rw [find?_finished, hd, Option.map_some]

/-- Migrations leave a generator past a key, if it is still past the key where the table gets another name. -/
theorem Migration.leads_past {i : Image} {ms : List Migration} {name name' : String} {k : Int64} {u : Upgrade}
    (hi : i.WellFormed) (hreg : i.Each Container.Regular) (hpast : i.Past name k)
    (hname : nameAfterAll ms name = some name')
    (hregain : moves ms name = true → ∀ c, i.find? name = some c → k < c.regained) {v : Nat}
    (hr : runAll ms (Upgrade.start i v) = (.ok (), u)) : u.finished.Past name' k := by
  obtain ⟨c, hc, hauto, hpos, hk⟩ := hpast
  have hkeyed := (hreg.of_find? hc).1
  have hu := meets_finds_all hkeyed hname (Upgrade.start i v) (Upgrade.finds_start hi hc v)
  rw [hr] at hu
  have hfound := Upgrade.find?_finished u name'
  rw [hu.found, Option.map_some] at hfound
  refine ⟨_, hfound, ?_⟩
  cases hm : moves ms name with
  | false => exact ⟨hauto, hpos, hk⟩
  | true =>
    have hnext : (c.renewed name').nextKey = c.regained := if_pos hauto
    rw [if_pos rfl]
    show c.autoIncrement = true ∧ 1 ≤ (c.renewed name').nextKey ∧ k < (c.renewed name').nextKey
    rw [hnext]
    exact ⟨hauto, hkeyed.ordered.one_le_regained, hregain hm c hc⟩

namespace Session

variable {α : Type} {s s' : Session} {i : Image} {store : Store}

/-- All containers are regular in the images of a session, and in those of a store that it will create. -/
def Regular (s : Session) : Prop := s.Tracks (Image.Each Container.Regular) (Image.Each Container.Regular)

/-! ## Opened sessions -/

theorem live_of_image (h : image s = (.ok i, s')) : s'.live = some i := by
  rw [image] at h
  split at h
  · cases h
  · split at h
    · rename_i hl
      cases h
      exact hl
    · cases h

theorem image_of_live (h : s.live = some i) : image s = (.ok i, s) := by
  obtain ⟨store, live⟩ := s
  obtain rfl : live = some i := h
  rfl

/-- A session that was opened is open. -/
theorem exists_live_of_openWith {init : Attempt Upgrade Unit} {o : OpenOutcome} (h : openWith init s = (.ok o, s')) :
    ∃ i, s'.live = some i := by
  rw [openWith] at h
  split at h
  · rename_i i hl
    cases h
    exact ⟨i, hl⟩
  · split at h
    · cases h
    · cases h
      exact ⟨_, rfl⟩
    · dsimp only at h
      split at h <;> cases h
      exact ⟨_, rfl⟩

/-- A transaction works on the session that was opened for it. -/
theorem exists_of_write_ok {body : Attempt Image α} {a : α} (h : write body s = (.ok a, s')) :
    ∃ store i, (image s).2 = ⟨store, some i⟩ ∧ write body ⟨store, some i⟩ = (.ok a, s') := by
  rw [write] at h
  cases hi : image s with
  | mk outcome s₁ =>
    rw [hi] at h
    cases outcome with
    | error e => cases h
    | ok i =>
      obtain ⟨store, live⟩ := s₁
      obtain rfl : live = some i := live_of_image hi
      exact ⟨store, i, rfl, h⟩

/-- What a transaction that succeeds has come to. -/
theorem exists_of_write_live {body : Attempt Image α} {a : α} (h : write body ⟨store, some i⟩ = (.ok a, s')) :
    ∃ j store', body i = (.ok a, j) ∧ commitTransaction j store = (.ok (), store') ∧
      s' = ⟨store', some (Transaction.finished j)⟩ := by
  obtain ⟨store', live⟩ := s'
  have hlive : ∃ i', live = some i' := by
    rw [write_of_live body rfl] at h
    exact ⟨_, (congrArg (fun r => r.2.live) h).symm⟩
  obtain ⟨i', rfl⟩ := hlive
  obtain ⟨j, hr, hc, rfl⟩ := write_eq_ok h
  exact ⟨j, store', hr, hc, rfl⟩

end Session

/-- An insertion that succeeds has added its rows to the container of the table. -/
theorem Query.insert_eq_ok {table : String} {columns : Option (List String)} {rows : List (List Value)} {i j : Image}
    {n : Nat} {c : Container} (hi : i.Sound) (hc : i.find? table = some c)
    (h : Query.insert table columns rows i = (.ok n, j)) :
    ∃ d, addRows (columns.getD (columnsOf i table)) rows c.begin = (.ok (), d) ∧
      (Transaction.finished j).find? table = some d.commit := by
  have hcontains : i.contains table = true := by rw [Image.contains_eq_isSome, hc]; rfl
  simp only [insert, bind_apply, Attempt.read_apply, hcontains, if_pos, Transaction.edit, Image.edit, hc] at h
  cases hr : addRows (columns.getD (columnsOf i table)) rows c.begin with
  | mk outcome d =>
    rw [hr] at h
    cases outcome with
    | error e => cases h
    | ok _ =>
      cases h
      refine ⟨d, rfl, ?_⟩
      have hset : (i.set table d).find? table = some d := by rw [Image.find?_set hi.sorted, if_pos rfl]
      rw [Transaction.find?_finished, hset, Option.map_some]

/-! ## Requests -/

/-- What commits no upgrade makes no migrations. -/
theorem Statement.migrations_eq_nil {s : Statement} (h : s.upgrades = 0) : s.migrations = [] := by
  cases s with
  | create => cases h
  | createAs => cases h
  | drop => cases h
  | _ => rfl

theorem Request.Migrates.migrations_eq_nil {r : Request} (hr : r.Migrates) (h : r.upgrades = 0) :
    r.migrations = [] := by
  cases r with
  | run text =>
    show ((statement? (.run text)).map Statement.migrations).getD [] = []
    rw [statement?]
    cases hparse : Statement.parse text with
    | error e => rfl
    | ok s =>
      simp only [upgrades, hparse] at h
      exact Statement.migrations_eq_nil h
  | execute s => exact Statement.migrations_eq_nil h
  | rename => cases h
  | migrate => cases h
  | upgrade => exact hr.elim
  | openWith => exact hr.elim
  | _ => rfl

namespace Engine

/-- The session that a request works on: opened, and filled if it is new and users ask for tables by name. -/
def opened (r : Request) (e : Engine) : Session :=
  match r with
  | .run _ | .rename _ _ => (ready e.settings e.session).2
  | _ => (Session.image e.session).2

/-- The image that a request finds. -/
def found (r : Request) (e : Engine) : Option Image := (opened r e).live

/-- The keys that the generator of a table gives to the records of a request, if that is an insertion that succeeds. -/
def generated (r : Request) (e : Engine) (table : String) : List Int64 :=
  match (serve r e).1, r.statement?, found r e with
  | .ok _, some (.insert name columns rows), some i =>
    if name = table then
      match i.find? table with
      | some c => Query.generated (columns.getD (Query.columnsOf i table)) rows c.begin
      | none => []
    else []
  | _, _, _ => []

/-- The name of a table after a request, if it is not dropped. -/
def nameAfter (r : Request) (e : Engine) (name : String) : Option String :=
  match (serve r e).1 with
  | .ok _ => Migration.nameAfterAll r.migrations name
  | .error _ => some name

/-- The name of a table after some requests, if it is not dropped. -/
def nameAfterAll : List Request → Engine → String → Option String
  | [], _, name => some name
  | r :: rs, e, name => (nameAfter r e name).bind (nameAfterAll rs (serve r e).2)

/-- Whether a request gives a table another name, be it on the way. -/
def renames (r : Request) (e : Engine) (name : String) : Bool :=
  match (serve r e).1 with
  | .ok _ => Migration.moves r.migrations name
  | .error _ => false

/-- Whether a new generator is past a key wherever a table gets another name by some requests: whether the keys of the
records that the table has then take it past the key. -/
def regains (k : Int64) : List Request → Engine → String → Bool
  | [], _, _ => true
  | r :: rs, e, name =>
    (!renames r e name || ((found r e).bind (·.find? name)).all fun c => k < c.regained) &&
      (nameAfter r e name).all (regains k rs (serve r e).2)

variable {C P : Image → Prop} {e : Engine} {r : Request} {name name' : String} {k : Int64}

theorem tracks_opened (hblank : C { version := 1 }) (hfill : Upgrade.Makes C Demo.fill) (hP : Image.Reloads P)
    (he : e.session.Tracks C P) (r : Request) : (opened r e).Tracks C P := by
  have hpassage := Session.Tracks.passage_opening hblank hfill hP
  have hready := (meets_ready (n := 0) hpassage e.settings).keeps he
  have himage := (hpassage.meets_image (n := 0)).imp (fun _ hs => hs) (fun _ _ hs => hs.1) fun _ hs => hs
  cases r with
  | run text => exact hready
  | rename source target => exact hready
  | _ => exact himage.keeps he

theorem regular_opened (he : e.session.Regular) (r : Request) : (opened r e).Regular :=
  tracks_opened (.empty 1 {}) Container.steady_regular.makes_fill Image.reloads_regular he r

/-- An open session is worked on as it is. -/
theorem found_of_live {i : Image} (h : e.session.live = some i) (r : Request) : found r e = some i := by
  obtain ⟨settings, store, live⟩ := e
  obtain rfl : live = some i := h
  cases r <;> rfl

/-- A closed session is opened to the image that is loaded. -/
theorem found_of_load {i : Image} (h : e.session.live = none) (hl : e.session.store.load = .ok (some i))
    (r : Request) : found r e = some i := by
  obtain ⟨settings, store, live⟩ := e
  obtain rfl : live = none := h
  have hload : store.load = .ok (some i) := hl
  cases r <;> simp [found, opened, ready, Session.image, Session.openWith, hload, bind_apply]

theorem exists_live_of_ready {settings : Settings} {s s' : Session} {b : Bool} (h : ready settings s = (.ok b, s')) :
    ∃ i, s'.live = some i := by
  rw [ready, bind_apply] at h
  split at h
  · rename_i ho
    cases h
    exact Session.exists_live_of_openWith ho
  · cases h

theorem exists_of_execute {m : Matching} {table : String} {columns : Option (List String)} {rows : List (List Value)}
    {s s' : Session} {a : ResultSet} (h : execute m (.insert table columns rows) s = (.ok a, s')) :
    ∃ store i n, (Session.image s).2 = ⟨store, some i⟩ ∧
      Session.write (Query.insert table columns rows) ⟨store, some i⟩ = (.ok n, s') := by
  simp only [execute, perform, bind_apply] at h
  cases hw : Session.write (Query.insert table columns rows) s with
  | mk outcome s₁ =>
    rw [hw] at h
    cases outcome with
    | error e => cases h
    | ok n =>
      cases h
      obtain ⟨store, i, hi, hn⟩ := Session.exists_of_write_ok hw
      exact ⟨store, i, n, hi, hn⟩

/-- An insertion that succeeds is a transaction on the session that was opened. -/
theorem exists_of_insert {table : String} {columns : Option (List String)} {rows : List (List Value)} {a : Answer}
    (hs : r.statement? = some (.insert table columns rows)) (h : (serve r e).1 = .ok a) :
    ∃ store i n, opened r e = ⟨store, some i⟩ ∧
      Session.write (Query.insert table columns rows) ⟨store, some i⟩ = (.ok n, (serve r e).2.session) := by
  cases r with
  | run text =>
    cases hparse : Statement.parse text with
    | error err =>
      rw [Request.statement?, hparse] at hs
      cases hs
    | ok s =>
      rw [Request.statement?, hparse] at hs
      obtain rfl : s = .insert table columns rows := Option.some.inj hs
      simp only [serve, onSession, run, bind_apply, Attempt.read_apply, hparse] at h ⊢
      cases hready : ready e.settings e.session with
      | mk outcome s₁ =>
        rw [hready] at h
        cases outcome with
        | error err => cases h
        | ok b =>
          dsimp only at h ⊢
          cases hx : execute e.settings.matching (.insert table columns rows) s₁ with
          | mk outcome s₂ =>
            rw [hx] at h
            cases outcome with
            | error err => cases h
            | ok result =>
              obtain ⟨store, i, n, hi, hn⟩ := exists_of_execute hx
              refine ⟨store, i, n, ?_, hn⟩
              obtain ⟨j, hj⟩ := exists_live_of_ready hready
              rw [opened, hready, ← hi, Session.image_of_live hj]
  | execute s =>
    obtain rfl : s = .insert table columns rows := Option.some.inj hs
    simp only [serve, onSession] at h ⊢
    cases hx : execute e.settings.matching (.insert table columns rows) e.session with
    | mk outcome s₂ =>
      rw [hx] at h
      cases outcome with
      | error err => cases h
      | ok result => exact exists_of_execute hx
  | _ => cases hs

/-- All requests keep containers regular. -/
theorem regular_after (he : e.session.Regular) (rs : List Request) : (after rs e).session.Regular :=
  tracks_after (.empty 1 {}) Container.steady_regular.makes_fill Image.reloads_regular (fun _ _ _ hp hd => hd hp)
    (fun r _ => Container.steady_regular.leads r) he

theorem regular_serve (he : e.session.Regular) (r : Request) : (serve r e).2.session.Regular := regular_after he [r]

/-- The images that a request finds are regular. -/
theorem regular_found (he : e.session.Regular) {i : Image} (hi : found r e = some i) :
    i.WellFormed ∧ i.Each Container.Regular := by
  have hopened := regular_opened he r
  rw [found] at hi
  cases hs : opened r e with
  | mk store live =>
    rw [hs] at hopened hi
    obtain rfl : live = some i := hi
    exact hopened.of_live.2

/-! ## Steps -/

/-- What is known of the keys that a request generates: they are those of an insertion that was committed. -/
theorem exists_of_mem_generated {table : String} (h : k ∈ generated r e table) :
    ∃ a columns rows i c, (serve r e).1 = .ok a ∧ r.statement? = some (.insert table columns rows) ∧
      found r e = some i ∧ i.find? table = some c ∧
      k ∈ Query.generated (columns.getD (Query.columnsOf i table)) rows c.begin := by
  rw [generated] at h
  split at h
  · rename_i a name columns rows i ha hs hi
    split at h
    · rename_i hname
      obtain rfl := hname
      split at h
      · rename_i c hc
        exact ⟨a, columns, rows, i, c, ha, hs, hi, hc, h⟩
      · exact absurd h List.not_mem_nil
    · exact absurd h List.not_mem_nil
  · exact absurd h List.not_mem_nil

/-- The keys of one insertion increase. -/
theorem generated_pairwise (r : Request) (e : Engine) (table : String) :
    (generated r e table).Pairwise fun k l => k < l ∨ k = Int64.maxValue := by
  rw [generated]
  split
  · split
    · split
      · exact Query.generated_increasing
      · exact .nil
    · exact .nil
  · exact .nil

/-- **A generated key is the key of a record, and the generator is past it.** -/
theorem past_of_generated {table : String} (he : e.session.Regular) (hk : k ∈ generated r e table) :
    (∃ i c, (serve r e).2.session.live = some i ∧ i.find? table = some c ∧ c.records.contains (.integer k)) ∧
      (k ≠ Int64.maxValue → (serve r e).2.session.Tracks (fun _ => True) (Image.Past table k)) := by
  obtain ⟨a, columns, rows, i, c, ha, hs, hi, hc, hk⟩ := exists_of_mem_generated hk
  obtain ⟨store, i', n, hopened, hwrite⟩ := exists_of_insert hs ha
  obtain rfl : i' = i := by
    rw [found, hopened] at hi
    exact Option.some.inj hi
  have htracks := regular_opened he r
  rw [hopened] at htracks
  obtain ⟨hretains, hw, hreg⟩ := htracks.of_live
  obtain ⟨j, store', hbody, hcommit, hsession⟩ := Session.exists_of_write_live hwrite
  obtain ⟨d, hrows, hfound⟩ := Query.insert_eq_ok hw.sound hc hbody
  have hworking : Transaction.Working i' j := by
    have := Query.keeps_insert table columns rows i' ⟨_, .start hw.sound⟩
    rwa [hbody] at this
  have hregular := hreg.of_find? hc
  have hordered : c.begin.Ordered := Container.ordered_begin.2 hregular.1.ordered
  have hpos : 1 ≤ c.begin.nextKey := by rw [Container.begin_nextKey]; exact hregular.2
  obtain ⟨ks, hedited⟩ := (Query.edits_addRows (columns.getD (Query.columnsOf i' table)) rows).edited c.begin
  rw [hrows] at hedited
  refine ⟨⟨_, d.commit, by rw [hsession], hfound, Query.contains_of_mem_generated hordered hrows k hk⟩, fun hmax => ?_⟩
  rw [hsession]
  refine .kept ⟨Store.retains_of_commitTransaction hretains hw hworking hcommit, hworking.wellFormed hw, ?_⟩ (.inr rfl)
  refine ⟨d.commit, hfound, ?_, Int64.le_trans hpos hedited.nextKey_le,
    (Query.generated_lt_nextKey hrows k hk).resolve_right hmax⟩
  exact hedited.shape_eq.2.2.trans (Query.autoIncrement_of_mem_generated hk)

/-- A request that succeeds has followed the table through its migrations. -/
theorem nameAfterAll_of_ok {a : Answer} (hname : nameAfter r e name = some name') (ha : (serve r e).1 = .ok a) :
    Migration.nameAfterAll r.migrations name = some name' := by
  rw [nameAfter, ha] at hname
  exact hname

/-- **A request leaves a generator past a key**, under the name that the table has then. -/
theorem past_serve (hr : r.Migrates) (hreg : e.session.Regular)
    (he : e.session.Tracks (fun _ => True) (Image.Past name k)) (hname : nameAfter r e name = some name')
    (hregain : regains k [r] e name) :
    (serve r e).2.session.Tracks (fun _ => True) (Image.Past name' k) := by
  -- where the request makes no migrations, the table keeps its name
  have hkept : r.migrations = [] → ∀ i, Image.Past name k i → ∀ a, (serve r e).1 = .ok a → Image.Past name' k i := by
    intro hn i hp a ha
    have hall := nameAfterAll_of_ok hname ha
    rw [hn] at hall
    cases hall
    exact hp
  have hleads : r.Leads (fun _ => True) fun i i' => found r e = some i → Image.Past name k i →
      ∀ a, (serve r e).1 = .ok a → Image.Past name' k i' := by
    refine hr.leads_of_migrations (fun i _ u hi hrun hF hp a ha => ?_) fun hn _ _ hb =>
      Transaction.leads_of_working hb fun i j _ hj _ hp => hkept hn _ (hj.past hp)
    refine Migration.leads_past hi (regular_found hreg hF).2 hp (nameAfterAll_of_ok hname ha) (fun hm c hc => ?_) hrun
    have hrenames : renames r e name = true := by
      rw [renames, ha]
      exact hm
    simpa [regains, hrenames, hF, hc] using (Bool.and_eq_true_iff.1 hregain).1
  have hpassage := Session.Tracks.passage_from (F := fun i => found r e = some i)
    (Q := fun i => ∀ a, (serve r e).1 = .ok a → Image.Past name' k i) (fun i hi => found_of_live hi r)
    (fun i hi hl => found_of_load hi hl r) (Image.reloads_past name k) (Image.not_past_empty name k)
  have hmeets := meets_serve_of_leads (n := 0) hpassage
    (fun hu _ _ h hm hl =>
      (Session.Tracks.lasting.of_medium (n := 0) h.1 hm hl).imp (hkept (hr.migrations_eq_nil hu)))
    (fun settings hs _ _ h => (Session.Tracks.lasting.restarted (n := 0) h.1).imp (hkept (by rw [hs]; rfl)))
    hleads e ⟨he, .inl rfl⟩
  cases hs : serve r e with
  | mk outcome e' =>
    rw [hs] at hmeets
    cases outcome with
    | ok a => exact hmeets.imp fun i hi => hi a rfl
    | error err =>
      have hsame : name' = name := by
        rw [nameAfter, hs] at hname
        exact (Option.some.inj hname).symm
      rw [hsame]
      exact hmeets.1

/-- A run of requests leaves a generator past a key. -/
theorem past_after : ∀ {rs : List Request} {e : Engine} {name : String}, (∀ r ∈ rs, r.Migrates) → e.session.Regular →
    e.session.Tracks (fun _ => True) (Image.Past name k) → nameAfterAll rs e name = some name' → regains k rs e name →
    (after rs e).session.Regular ∧ (after rs e).session.Tracks (fun _ => True) (Image.Past name' k)
  | [], _, _, _, hreg, he, hname, _ => by
    cases hname
    exact ⟨hreg, he⟩
  | r :: rs, e, name, hrs, hreg, he, hname, hregains => by
    obtain ⟨hr, hrest⟩ := List.forall_mem_cons.1 hrs
    obtain ⟨n, hn, hnames⟩ := Option.bind_eq_some_iff.1 hname
    obtain ⟨hregain, hregains⟩ := Bool.and_eq_true_iff.1 hregains
    have hstep : regains k [r] e name := by
      rw [regains, hregain, hn]
      rfl
    rw [hn] at hregains
    show (after rs (serve r e).2).session.Regular ∧ (after rs (serve r e).2).session.Tracks _ _
    exact past_after hrest (regular_serve hreg r) (past_serve hr hreg he hn hstep) hnames hregains

/-- Keys that are generated where the generator is past a key are greater. -/
theorem lt_of_mem_generated (he : e.session.Tracks (fun _ => True) (Image.Past name k))
    {l : Int64} (hl : l ∈ generated r e name) : k < l := by
  obtain ⟨_, columns, rows, i, c, -, -, hi, hc, hl⟩ := exists_of_mem_generated hl
  have hopened := tracks_opened trivial (fun _ _ => trivial) (Image.reloads_past name k) he r
  rw [found] at hi
  cases hs : opened r e with
  | mk store live =>
    rw [hs] at hopened hi
    obtain rfl : live = some i := hi
    obtain ⟨-, -, d, hd, -, -, hk⟩ := hopened.of_live
    obtain rfl : d = c := Option.some.inj (hd.symm.trans hc)
    rw [← Container.begin_nextKey] at hk
    exact Int64.lt_of_lt_of_le hk (Query.nextKey_le_generated l hl)

/-- **Generated keys increase.** After any run of requests over a new store, let an insertion into a table succeed: the
keys that the generator gives to its records are keys of the table, each greater than the ones before it. If the table
is then followed through any requests that change tables by migrations only, failed ones and restarts among them, each
key that is generated later is greater than a key from before, if that is not the greatest integer, and if wherever the
table got another name the keys of the records that were left have taken the new generator past it. -/
theorem generated_keys_increase (he : e.IsNew) (rs : List Request) (r : Request) (table : String) :
    (generated r (after rs e) table).Pairwise (fun k l => k < l ∨ k = Int64.maxValue) ∧
      ∀ k ∈ generated r (after rs e) table,
        (∃ i c, (serve r (after rs e)).2.session.live = some i ∧ i.find? table = some c ∧
          c.records.contains (.integer k)) ∧
        (k ≠ Int64.maxValue → ∀ later name, (∀ r ∈ later, r.Migrates) →
          nameAfterAll later (serve r (after rs e)).2 table = some name →
          regains k later (serve r (after rs e)).2 table →
          ∀ r', ∀ l ∈ generated r' (after later (serve r (after rs e)).2) name, k < l) := by
  have hreg : (after rs e).session.Regular := regular_after (he.tracks fun _ hp => hp) rs
  refine ⟨generated_pairwise r _ table, fun k hk => ?_⟩
  obtain ⟨hthere, hpast⟩ := past_of_generated hreg hk
  refine ⟨hthere, fun hmax later name hlater hname hregains r' l hl => ?_⟩
  obtain ⟨-, hpast'⟩ := past_after hlater (regular_serve hreg r) (hpast hmax) hname hregains
  exact lt_of_mem_generated hpast' hl

/-- The engine over a new keyspace that has created a table. -/
def withTable : Engine := after [.run "CREATE TABLE t (id INTEGER, x TEXT)"] (overKeyspace { seeded := false } [])

/-- An insertion of two records. -/
def twoRows : Request := .run "INSERT INTO t (x) VALUES ('a'), ('b')"

/-- An insertion of one record, after the table got another name. -/
def oneRow : Request := .run "INSERT INTO u (x) VALUES ('c')"

/-- The first of two records is deleted, an insertion fails, the table gets another name, and the engine is started
again. -/
def interlude : List Request :=
  [.run "DELETE FROM t WHERE id = 1", .run "INSERT INTO t (id) VALUES (2)", .rename "t" "u",
    .restart { seeded := false }]

theorem keys_increase_through_changes : generated twoRows withTable "t" = [1, 2] ∧
    generated oneRow (after interlude (serve twoRows withTable).2) "u" = [3] ∧ (2 : Int64) < 3 := by
  have hkeys : generated twoRows withTable "t" = [1, 2] := by decide +kernel
  have hlast : generated oneRow (after interlude (serve twoRows withTable).2) "u" = [3] := by decide +kernel
  have hmem : (2 : Int64) ∈ generated twoRows withTable "t" := by rw [hkeys]; decide
  have hmem' : (3 : Int64) ∈ generated oneRow (after interlude (serve twoRows withTable).2) "u" := by
    rw [hlast]
    decide
  obtain ⟨-, h⟩ := generated_keys_increase (isNew_overKeyspace { seeded := false } [])
    [.run "CREATE TABLE t (id INTEGER, x TEXT)"] twoRows "t"
  obtain ⟨-, hlater⟩ := h 2 hmem
  exact ⟨hkeys, hlast, hlater (by decide) interlude "u" (by simp [interlude, Request.Migrates]) (by decide +kernel)
    (by decide +kernel) _ 3 hmem'⟩

/-- A key is given out again if its record is deleted before the table gets another name. -/
example : generated oneRow
    (after [.run "DELETE FROM t WHERE id = 2", .rename "t" "u"] (serve twoRows withTable).2) "u" = [2] := by
  decide +kernel

end Engine

end TableStore
