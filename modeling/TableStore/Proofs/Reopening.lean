import TableStore.Proofs.Loading
import TableStore.Proofs.Media

/-!
# Reopening a keyspace

- over a keyspace, what users ask for by the text of statements and by renamings keeps the live image in the texts
  of the keyspace (`Archived`);
- so after every run of them a new engine over the same keyspace opens it with as many records in every table exactly
  if the live image survives its texts (`Engine.reopens_iff_survives`), and some runs leave an image that does not.
-/

namespace TableStore

/-- A new session over a store opens it, with the tables of an image and as many records in each. -/
def Store.Reopens (store : Store) (i : Image) : Prop :=
  ∃ j, Session.openWith (pure ()) (Session.mk store none) = (.ok .opened, ⟨store, some j⟩) ∧ j.Matches i

namespace Store

/-- A store is opened exactly if it can be loaded. -/
theorem reopens_iff_load {store : Store} {i : Image} :
    store.Reopens i ↔ ∃ j, store.load = .ok (some j) ∧ j.Matches i := by
  refine exists_congr fun j => and_congr_left fun _ => ?_
  simp only [Session.openWith]
  cases hl : store.load with
  | error e => simp
  | ok stored =>
    cases stored with
    | some j' => simp
    | none =>
      -- a store that has no image yet is created, not opened
      cases hc : store.commit (Upgrade.start {} 1).changeSet with
      | mk outcome store' => cases outcome <;> simp [Session.settleUpgrade, hc]

end Store

namespace Medium

/-- A keyspace that is not written yet. -/
def Blank (m : Medium) : Prop := ∃ k, m = .keyspace k ∧ k.version = none ∧ k.Holds {}

/-- A keyspace that holds an image, with its version. -/
def Archives (m : Medium) (i : Image) : Prop :=
  ∃ k, m = .keyspace k ∧ k.version = some i.version ∧ k.Holds i ∧ i.WellFormed

theorem Blank.load_eq {m : Medium} (h : m.Blank) : m.load = .ok none := by
  obtain ⟨k, rfl, hv, -⟩ := h
  rw [load, Keyspace.load, hv]

/-- A keyspace takes what fits. Images have `Q` if new ones do and units keep it. -/
theorem passage_archives {C Q Left : Image → Prop} {D : Image → Image → Prop} (hC : ∀ i, C i → Q i)
    (hD : ∀ i i', Q i → D i i' → Q i')
    (hload : ∀ {m : Medium} {i}, m.Archives i → Q i → Left i → m.load = .ok (some i)) :
    Medium.Passage C D (fun _ => Blank) (fun _ m i => m.Archives i ∧ Q i) (fun _ m i => m.Archives i ∧ Q i) Left where
  wellFormed := by
    rintro _ _ _ ⟨⟨-, -, -, -, hi⟩, -⟩
    exact hi
  new := Blank.load_eq
  load h hleft hl := ⟨_, Except.ok.inj (hl.symm.trans (hload h.1 h.2 hleft)), h⟩
  first := by
    rintro _ m changes i ⟨k, rfl, -, hk⟩ hf
    obtain ⟨k', hk', hv', hh⟩ := hk.commit hf
    exact ⟨_, commit_keyspace hk', fun hi hq _ => ⟨⟨k', rfl, hv', hh, hi⟩, hC i hq⟩⟩
  next := by
    rintro _ m changes i i' ⟨⟨k, rfl, -, hk, -⟩, hq⟩ hf
    obtain ⟨k', hk', hv', hh⟩ := hk.commit hf
    exact ⟨_, commit_keyspace hk', fun _ hi hd _ => ⟨⟨k', rfl, hv', hh, hi⟩, hD i i' hq hd⟩⟩

end Medium

/-- A new engine over a new keyspace, some of whose commits will fail. -/
def Engine.overKeyspace (settings : Settings) (fates : List Bool) : Engine :=
  { settings, session := { store := { medium := .keyspace {}, fates } } }

/-- A session over a keyspace: there is no image yet, or the keyspace holds the live image, which has `Q`; the session
is closed only where that image is in `Left`. -/
def Archived (Q Left : Image → Prop) : Session → Prop := Session.Over Medium.Blank (fun m i => m.Archives i ∧ Q i) Left

namespace Archived

variable {Q Left : Image → Prop}

/-- **What units do to a session over a keyspace keeps its image in the keyspace**, if what is left is loaded again. -/
theorem passage {C : Image → Prop} {D : Image → Image → Prop} (hblank : C { version := 1 })
    (hfill : Upgrade.Makes C Demo.fill) (hC : ∀ i, C i → Q i) (hD : ∀ i i', Q i → D i i' → Q i')
    (hload : ∀ {m : Medium} {i}, m.Archives i → Q i → Left i → m.load = .ok (some i)) :
    Session.Passage C D (fun _ => Archived Q Left) fun _ => Archived Q Left :=
  Session.Over.passage (Medium.passage_archives hC hD hload) hblank hfill fun h => .kept h (.inr rfl)

theorem new_overKeyspace (settings : Settings) (fates : List Bool) :
    Archived Q Left (Engine.overKeyspace settings fates).session :=
  .new ⟨_, rfl, rfl, ⟨rfl, .empty⟩⟩ rfl

end Archived

namespace Engine

/-- What users ask for by name: the text of a statement, or another name for a table. -/
inductive Call where
  | run (text : String)
  | rename (source target : String)

/-- The request that a call is. -/
def Call.request : Call → Request
  | .run text => .run text
  | .rename source target => .rename source target

/-- A call keeps whatever units do. -/
theorem Call.meets_serve {I : Nat → Session → Prop} (hI : Session.Invariant I) (c : Call) (n : Nat) :
    Attempt.Meets (fun e => I n e.session) (serve c.request) (fun _ e => I (n + c.request.upgrades) e.session)
      fun e => I n e.session := by
  cases c with
  | run text =>
    exact meets_onSession _ fun settings => meets_run hI settings (fun _ _ => id) (leads_true (.run text))
  | rename source target =>
    exact meets_onSession _ fun settings => meets_rename hI settings (leads_true (.rename source target))

/-- The session of a new engine over a new keyspace after calls. -/
def sessionAfter (settings : Settings) (fates : List Bool) (calls : List Call) : Session :=
  (after (calls.map Call.request) (overKeyspace settings fates)).session

/-- After every run of calls the keyspace holds the live image, or there is none and the keyspace is not written. -/
theorem archived_after (settings : Settings) (fates : List Bool) (calls : List Call) :
    Archived (fun _ => True) (fun _ => False) (sessionAfter settings fates calls) := by
  have hinvariant : Session.Invariant fun _ => Archived (fun _ => True) fun _ => False :=
    Archived.passage trivial (fun _ _ => trivial) (fun _ _ => trivial) (fun _ _ _ _ => trivial) fun _ _ h => h.elim
  refine invariant_after (I := fun _ => Archived (fun _ => True) fun _ => False) (n := 0) (fun r hr n => ?_)
    (Archived.new_overKeyspace settings fates)
  obtain ⟨c, -, rfl⟩ := List.mem_map.1 hr
  exact c.meets_serve hinvariant n

/-- **When a store can be opened again without losing records.** After every run of calls, whichever commits fail, a
new engine over the keyspace opens it with the same tables and as many records in each exactly if the live image
survives its texts; without a live image the keyspace has not been created yet. -/
theorem reopens_iff_survives (settings : Settings) (fates : List Bool) (calls : List Call) :
    ((sessionAfter settings fates calls).live = none → (sessionAfter settings fates calls).store.load = .ok none) ∧
      ∀ i, (sessionAfter settings fates calls).live = some i →
        ∃ k, (sessionAfter settings fates calls).store.medium = .keyspace k ∧
          ((sessionAfter settings fates calls).store.Reopens i ↔ i.Survives k) := by
  have h := archived_after settings fates calls
  generalize sessionAfter settings fates calls = s at h
  obtain ⟨store, live⟩ := s
  refine ⟨?_, ?_⟩
  · rintro rfl
    obtain hblank | ⟨-, -, hleft⟩ := h.of_closed
    · exact hblank.load_eq
    · exact hleft.elim
  · rintro i rfl
    obtain ⟨⟨k, hm, hv, hk, hi⟩, -⟩ := h.of_live
    refine ⟨k, hm, Iff.trans ?_ (hk.load_iff hv hi)⟩
    rw [Store.reopens_iff_load, Store.load, hm, Medium.load]

/-- A table with an infinite number as its only key. -/
def infinite : Container where
  name := "t"
  keyPath := "x"
  autoIncrement := false
  records := ⟨[(.real ⟨0x7FF0000000000000⟩, .ofList [("x", .real ⟨0x7FF0000000000000⟩)])]⟩

/-- An infinite number is accepted as a key, but its text is `null`, which is none. -/
theorem infinite_key_is_not_reopened :
    ∃ i, (sessionAfter { seeded := false } [] [.run "CREATE TABLE t AS SELECT 1e999 AS x"]).live = some i ∧
      i.find? "t" = some infinite ∧
      ¬(sessionAfter { seeded := false } [] [.run "CREATE TABLE t AS SELECT 1e999 AS x"]).store.Reopens i := by
  have hlive : ((sessionAfter { seeded := false } [] [.run "CREATE TABLE t AS SELECT 1e999 AS x"]).live.bind
      fun i => i.find? "t") = some infinite := by decide +kernel
  obtain ⟨i, hi, hc⟩ := Option.bind_eq_some_iff.1 hlive
  refine ⟨i, hi, hc, fun hr => ?_⟩
  obtain ⟨k, -, hiff⟩ := (reopens_iff_survives _ _ _).2 i hi
  have hkeyed := ((hiff.1 hr).containers "t" _ hc).keyed
  have hnone : ∃ r ∈ infinite.scan, infinite.rekeyed? r = none := by decide +kernel
  obtain ⟨r, hr, hn⟩ := hnone
  have := hkeyed r hr
  rw [hn] at this
  cases this

end Engine

end TableStore
