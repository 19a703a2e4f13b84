import TableStore.Proofs.Frame
import TableStore.Proofs.Reopening
import TableStore.Proofs.Synchrony

/-!
# Properties of images through restarts

- a property of images `Reloads` when it goes over from an image to what a keyspace makes of it;
- a session is `Retaining` images with a property when its live image has it, and so has every image that will be
  opened: in memory that is the image that is kept, and in a keyspace one with the same frame; it `Tracks` the property
  when it may be closed at any time;
- units that lead from images with one property to images with another one lead from sessions that track the one to
  sessions that track the other (`Session.Tracks.passage`), and restarts change nothing (`Session.Tracks.lasting`);
- where it matters which image a request finds, its one unit leads from that image (`Session.Tracks.passage_from`);
- so the live image after every run of requests has what the first image has and all units keep
  (`Engine.tracks_after`).
-/

namespace TableStore

/-- A property that an image has if one with the same frame has it, and its own records are under their keys. -/
def Image.Reloads (P : Image → Prop) : Prop :=
  ∀ i j, P i → i.SameFrame j → j.WellFormed → j.Each Container.Keyed → P j

/-- A medium keeps an image in memory, or the frame of it in a keyspace. -/
inductive Medium.Retains : Medium → Image → Prop
  | memory (j : Image) : Retains (.memory (some j)) j
  | keyspace {k : Keyspace} {i j : Image} (hv : k.version ≠ none) (hk : k.Holds i) (hi : i.catalog.Filed)
      (hf : i.SameFrame j) : Retains (.keyspace k) j

/-- A medium keeps no image yet. -/
inductive Medium.Unwritten : Medium → Prop
  | memory : Unwritten (.memory none)
  | keyspace {k : Keyspace} (hv : k.version = none) (hk : k.Holds {}) : Unwritten (.keyspace k)

/-- A session whose images have `P`: there is none yet, but every new one with `C` will have it, or the medium retains
one, and the live image is that one; the session is closed only where that image is in `Left`. -/
def Session.Retaining (C P Left : Image → Prop) : Session → Prop :=
  Over (fun m => m.Unwritten ∧ ∀ i, C i → P i) (fun m i => m.Retains i ∧ i.WellFormed ∧ P i) Left

/-- A session whose images have `P`, which may be closed and opened again at any time. -/
abbrev Session.Tracks (C P : Image → Prop) : Session → Prop := Retaining C P fun _ => True

/-- The catalog that a change set brings, or leaves, is in order on every image. -/
theorem ChangeSet.Fits.filed_applied {changes : ChangeSet} {i i' j : Image} (h : changes.Fits i i')
    (hi' : i'.catalog.Filed) (hj : j.catalog.Filed) : (j.applied changes).catalog.Filed := by
  rw [← h.applied_eq, Image.catalog_applied] at hi'
  rw [Image.catalog_applied]
  cases hcatalog : changes.catalog with
  | none => exact hj
  | some c =>
    rw [hcatalog] at hi'
    exact hi'

theorem Keyspace.exists_of_load {k : Keyspace} {o : Option Image} (hv : k.version ≠ none) (hl : k.load = .ok o) :
    ∃ j, o = some j := by
  cases o with
  | some j => exact ⟨j, rfl⟩
  | none =>
    obtain ⟨v, hv⟩ := Option.ne_none_iff_exists'.1 hv
    rw [load, hv] at hl
    cases hcatalog : readTables {} k.tables.values <;> simp only [hcatalog, bind, Except.bind] at hl
    · cases hl
    · cases hshelves : k.readShelves .empty k.shelves.entries <;> rw [hshelves] at hl <;> cases hl

namespace Medium

variable {m : Medium} {changes : ChangeSet} {i i' : Image}

theorem Unwritten.load_eq (h : m.Unwritten) : m.load = .ok none := by
  cases h with
  | memory => rfl
  | keyspace hv hk => rw [load, Keyspace.load, hv]

/-- What is loaded is what is kept in memory, or has the frame of what is kept in a keyspace. -/
theorem Retains.load {o : Option Image} (h : m.Retains i) (hi : i.WellFormed) (hl : m.load = .ok o) :
    ∃ j, o = some j ∧ m.Retains j ∧ j.WellFormed ∧ (j = i ∨ i.SameFrame j ∧ j.Each Container.Keyed) := by
  cases h with
  | memory =>
    cases hl
    exact ⟨i, rfl, .memory i, hi, .inl rfl⟩
  | @keyspace k _ _ hv hk hc hf =>
    rw [Medium.load] at hl
    obtain ⟨j, rfl⟩ : ∃ j, o = some j := Keyspace.exists_of_load hv hl
    obtain ⟨hf', hj, hkeyed⟩ := hk.load_sound hc hl
    exact ⟨j, rfl, .keyspace hv hk hc hf', hj, .inr ⟨hf.symm.trans hf', hkeyed⟩⟩

/-- The first commit. -/
theorem Unwritten.commit (h : m.Unwritten) (hf : changes.Fits {} i) :
    ∃ m', m.commit changes = (.ok (), m') ∧ (i.WellFormed → m'.Retains i) := by
  cases h with
  | memory => exact ⟨_, commit_memory none hf.apply_eq, fun _ => .memory i⟩
  | keyspace hv hk =>
    obtain ⟨k', hk', hv', hh⟩ := hk.commit hf
    refine ⟨_, commit_keyspace hk', fun hi => .keyspace ?_ hh hi.filed (.refl i)⟩
    rw [hv']
    exact Option.some_ne_none _

/-- A commit on what is retained: the change set that fits the live image fits what the keyspace holds. -/
theorem Retains.commit (h : m.Retains i) (hi : i.WellFormed) (hf : changes.Fits i i') :
    ∃ m', m.commit changes = (.ok (), m') ∧ (i'.WellFormed → m'.Retains i') := by
  cases h with
  | memory => exact ⟨_, commit_memory (some i) hf.apply_eq, fun _ => .memory i'⟩
  | keyspace hv hk hl hframe =>
    have hsorted := hk.files.sorted
    obtain ⟨k', hk', hv', hh⟩ := hk.commit (hf.transfer hsorted hi.sound.sorted hframe)
    have hframe' := hframe.applied hsorted hi.sound.sorted changes
    rw [hf.applied_eq] at hframe'
    refine ⟨_, commit_keyspace hk', fun hi' => .keyspace ?_ hh (hf.filed_applied hi'.filed hl) hframe'⟩
    rw [hv']
    exact Option.some_ne_none _

end Medium

namespace Store

variable {store store' : Store} {changes : ChangeSet} {i i' : Image}

/-- The next commits all reach the medium. -/
structure Steadfast (store : Store) : Prop where
  fates : ∀ fails ∈ store.fates, fails = false
  failing : store.failing = false

theorem steadfast_of_nil (hf : store.fates = []) (h : store.failing = false) : store.Steadfast where
  fates _ hmem := by
    rw [hf] at hmem
    cases hmem
  failing := h

/-- A commit leaves the fates of the others. -/
theorem Steadfast.commit (hs : store.Steadfast) (changes : ChangeSet) : (store.commit changes).2.Steadfast := by
  have hafter : ∀ medium log, Steadfast { store with fates := store.fates.tail, medium, log } := fun _ _ =>
    ⟨fun fails hmem => hs.fates fails (List.mem_of_mem_tail hmem), hs.failing⟩
  rw [Store.commit]
  split
  · exact hafter _ _
  · split <;> exact hafter _ _

/-- **What fits is committed**, if the commit reaches the medium. -/
theorem Steadfast.commits (hs : store.Steadfast) (h : store.medium.Retains i) (hi : i.WellFormed)
    (hf : changes.Fits i i') : ∃ store', store.commit changes = (.ok (), store') ∧ store'.Steadfast ∧
      (i'.WellFormed → store'.medium.Retains i') := by
  have hfate : store.fates.headD store.failing = false := by
    cases hfates : store.fates with
    | nil => exact hs.failing
    | cons fails _ => exact hs.fates fails (by simp [hfates])
  obtain ⟨m', hm, hretains⟩ := h.commit hi hf
  have hcommit : (store.commit changes).1 = .ok () := by
    simp only [Store.commit, hfate, hm, Bool.false_eq_true, if_false]
  have hcommit : store.commit changes = (.ok (), (store.commit changes).2) := Prod.ext hcommit rfl
  refine ⟨_, hcommit, hs.commit changes, fun hi' => ?_⟩
  rw [medium_of_commit_ok hm hcommit]
  exact hretains hi'

/-- A transaction that has changed nothing commits nothing. -/
theorem retains_of_commitTransaction {j : Image} (h : store.medium.Retains i) (hi : i.WellFormed)
    (hj : Transaction.Working i j) (hc : Session.commitTransaction j store = (.ok (), store')) :
    store'.medium.Retains (Transaction.finished j) := by
  have hfinished := hj.wellFormed hi
  obtain ⟨_, hj⟩ := hj
  rw [Session.commitTransaction] at hc
  split at hc
  · rename_i hn
    cases hc
    rwa [hj.finished_eq hi.sound (List.isEmpty_iff.1 hn)]
  · obtain ⟨m', hm, hretains⟩ := h.commit hi (hj.fits hi.sound)
    rw [medium_of_commit_ok hm hc]
    exact hretains hfinished

end Store

/-- Units lead from sessions that retain images with one property to sessions that retain images with another one, if
images that are left still have it when they are loaded. -/
theorem Session.Retaining.passage {C P Q Left : Image → Prop} {D : Image → Image → Prop} (hblank : C { version := 1 })
    (hfill : Upgrade.Makes C Demo.fill)
    (hP : ∀ i j, Left i → P i → i.SameFrame j → j.WellFormed → j.Each Container.Keyed → P j)
    (hD : ∀ i i', i.WellFormed → P i → D i i' → Q i') :
    Passage C D (fun _ => Retaining C P Left) fun _ => Retaining C Q Left := by
  have hmedium : Medium.Passage C D (fun _ m => m.Unwritten ∧ ∀ i, C i → P i)
      (fun _ m i => m.Retains i ∧ i.WellFormed ∧ P i) (fun _ m i => m.Retains i ∧ i.WellFormed ∧ Q i) Left := {
    wellFormed := fun h => h.2.1
    new := fun h => h.1.load_eq
    load := by
      rintro _ m i o ⟨hretains, hi, hp⟩ hleft hl
      obtain ⟨j, rfl, hretains', hj, hsame⟩ := hretains.load hi hl
      refine ⟨j, rfl, hretains', hj, ?_⟩
      rcases hsame with rfl | ⟨hf, hk⟩
      · exact hp
      · exact hP i j hleft hp hf hj hk
    first := by
      rintro _ m changes i ⟨hnew, hC⟩ hf
      obtain ⟨m', hm, hretains⟩ := hnew.commit hf
      exact ⟨m', hm, fun hi hc _ => ⟨hretains hi, hi, hC i hc⟩⟩
    next := by
      rintro _ m changes i i' ⟨hretains, hi, hp⟩ hf
      obtain ⟨m', hm, hretains'⟩ := hretains.commit hi hf
      exact ⟨m', hm, fun _ hi' hd _ => ⟨hretains' hi', hi', hD i i' hi hp hd⟩⟩ }
  exact Over.passage hmedium hblank hfill fun h => .kept h (.inr rfl)

namespace Session.Tracks

variable {C P Q : Image → Prop} {D : Image → Image → Prop} {s : Session} {store : Store} {i : Image}

theorem imp (h : Tracks C P s) (hP : ∀ i, P i → Q i) : Tracks C Q s :=
  Over.imp h (fun _ hm => ⟨hm.1, fun i hi => hP i (hm.2 i hi)⟩) fun _ i hm => ⟨hm.1, hm.2.1, hP i hm.2.2⟩

theorem of_load_none (h : Tracks C P ⟨store, none⟩) (hl : store.load = .ok none) : ∀ i, C i → P i := by
  obtain ⟨-, hC⟩ | ⟨i, ⟨hretains, hi, -⟩, -⟩ := h.of_closed
  · exact hC
  · obtain ⟨j, hj, -⟩ := hretains.load hi hl
    cases hj

/-- **Units lead from sessions that track one property to sessions that track another one**, if what they do leads from
images with the one to images with the other. -/
theorem passage (hblank : C { version := 1 }) (hfill : Upgrade.Makes C Demo.fill) (hP : Image.Reloads P)
    (hD : ∀ i i', i.WellFormed → P i → D i i' → Q i') :
    Passage C D (fun _ => Tracks C P) fun _ => Tracks C Q :=
  Retaining.passage hblank hfill (fun i j _ => hP i j) hD

/-- Sessions track what they have while they are opened, whatever units will do. -/
theorem passage_opening (hblank : C { version := 1 }) (hfill : Upgrade.Makes C Demo.fill) (hP : Image.Reloads P) :
    Passage C (fun _ _ => False) (fun _ => Tracks C P) fun _ => Tracks C P :=
  passage hblank hfill hP fun _ _ _ _ h => h.elim

/-- **Units of one request**, where it is known which images the session of that request can be opened to: a unit that
succeeds leads from these images. Something that not all images have is tracked, so there is a store. -/
theorem passage_from {s₀ : Session} {F : Image → Prop} (hlive : ∀ i, s₀.live = some i → F i)
    (hload : ∀ i, s₀.live = none → s₀.store.load = .ok (some i) → F i) (hP : Image.Reloads P) {i₀ : Image}
    (hne : ¬P i₀) :
    Passage (fun _ => True) (fun i i' => F i → P i → Q i')
      (fun _ s => s.Tracks (fun _ => True) P ∧ (s = s₀ ∨ ∃ i, s.live = some i ∧ F i))
      fun _ => Tracks (fun _ => True) Q := by
  have hblocked : ∀ {store : Store}, Tracks (fun _ => True) P ⟨store, none⟩ → store.load ≠ .ok none := fun h hl =>
    hne (h.of_load_none hl i₀ trivial)
  have hpassage : Passage (fun _ => True) (fun i i' => P i → Q i') (fun _ => Tracks (fun _ => True) P)
      fun _ => Tracks (fun _ => True) Q :=
    passage trivial (fun _ _ => trivial) hP fun _ _ _ hp hd => hd hp
  have hfound : ∀ {store : Store} {i : Image}, ((⟨store, some i⟩ : Session) = s₀ ∨
      ∃ j, (⟨store, some i⟩ : Session).live = some j ∧ F j) → F i := by
    rintro store i (rfl | ⟨j, hj, hF⟩)
    · exact hlive i rfl
    · cases hj
      exact hF
  exact {
    blank := trivial
    filled := fun _ _ => trivial
    wellFormed := fun h => h.1.of_live.2.1
    opened := fun {n store i} h hl => by
      refine ⟨hpassage.opened (n := n) h.1 hl, .inr ⟨i, rfl, ?_⟩⟩
      rcases h.2 with rfl | ⟨j, hj, -⟩
      · exact hload i rfl hl
      · cases hj
    created := fun h hl _ _ _ _ _ => absurd hl (hblocked h.1)
    notCreated := fun h hl _ _ => absurd hl (hblocked h.1)
    committed := fun {n _ _ _ _ d _} h hf hi' hD hv hc =>
      hpassage.committed (n := n) (d := d) h.1 hf hi' (hD (hfound h.2)) hv hc
    notCommitted := fun {n _ _ i _ _ _} h hf hc =>
      ⟨hpassage.notCommitted (n := n) h.1 hf hc, .inr ⟨i, rfl, hfound h.2⟩⟩ }

theorem lasting : Lasting fun _ => Tracks C P := Over.lasting

end Session.Tracks

namespace Engine

/-- An engine over a new store, in memory or in a keyspace, some of whose commits may fail. -/
structure IsNew (e : Engine) : Prop where
  closed : e.session.live = none
  unwritten : e.session.store.medium = .memory none ∨ e.session.store.medium = .keyspace {}

variable {C P : Image → Prop} {D : Image → Image → Prop} {e : Engine}

theorem isNew_inMemory (settings : Settings) (fates : List Bool) : (inMemory settings fates).IsNew := ⟨rfl, .inl rfl⟩

theorem isNew_overKeyspace (settings : Settings) (fates : List Bool) : (overKeyspace settings fates).IsNew :=
  ⟨rfl, .inr rfl⟩

theorem IsNew.medium_unwritten (he : e.IsNew) : e.session.store.medium.Unwritten := by
  rcases he.unwritten with hm | hm <;> rw [hm]
  · exact .memory
  · exact .keyspace rfl ⟨rfl, .empty⟩

theorem IsNew.tracks (he : e.IsNew) (hC : ∀ i, C i → P i) : e.session.Tracks C P :=
  .new ⟨he.medium_unwritten, hC⟩ he.closed

/-- **A run of requests tracks what all their units keep.** -/
theorem tracks_after (hblank : C { version := 1 }) (hfill : Upgrade.Makes C Demo.fill) (hP : Image.Reloads P)
    (hD : ∀ i i', i.WellFormed → P i → D i i' → P i') {rs : List Request} (hrs : ∀ r ∈ rs, r.Leads C D)
    (he : e.session.Tracks C P) : (after rs e).session.Tracks C P :=
  invariant_after (I := fun _ => Session.Tracks C P) (n := 0) (fun r hr n =>
    meets_serve_of_leads (n := n) (Session.Tracks.passage hblank hfill hP hD)
      (fun _ => Session.Tracks.lasting.of_medium (n := n))
      (fun _ _ => Session.Tracks.lasting.restarted (n := n)) (hrs r hr)) he

/-- The live image after a run of requests over a new store has what new images have and all units keep. -/
theorem live_after (hfill : Upgrade.Makes P Demo.fill) (hblank : P { version := 1 }) (hP : Image.Reloads P)
    {rs : List Request} (hrs : ∀ r ∈ rs, r.Leads P fun i i' => P i → P i') (he : e.IsNew) {i : Image}
    (hi : (after rs e).session.live = some i) : i.WellFormed ∧ P i := by
  have h := tracks_after hblank hfill hP (fun _ _ _ hp hd => hd hp) hrs (he.tracks fun _ hp => hp)
  cases hs : (after rs e).session with
  | mk store live =>
    rw [hs] at h hi
    obtain rfl : live = some i := hi
    exact h.of_live.2

end Engine

end TableStore
