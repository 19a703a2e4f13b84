import TableStore.Proofs.Bodies
import TableStore.Proofs.Session
import TableStore.Request

/-!
# Invariants of sessions

- a change set `Fits` two images when it makes the one out of the other; what a unit commits fits the images before
  and after it;
- a `Passage C D I J` leads from sessions with `I` to sessions with `J` through units that succeed, and back to `I`
  through those that fail; `C` is known of the images of new stores, and `D` of the images before and after a unit
  (`Upgrade.Makes`, `Upgrade.Leads`, `Transaction.Leads`);
- an `Invariant` of sessions holds with a number of upgrades so far, and leads to itself through all units, whatever
  images they make;
- whatever keeps that is kept by every request (`Engine.meets_serve`), and counts the upgrades that succeed
  (`Engine.invariant_after`).
-/

namespace TableStore

/-- A change set that makes one image out of another. Its entries are exact, none is without keys, and what is created
is in order. -/
structure ChangeSet.Fits (changes : ChangeSet) (i i' : Image) : Prop where
  apply_eq : i.apply changes = .ok i'
  ordered : ∀ c ∈ changes.created, c.Ordered
  present : ∀ c ∈ changes.updated, ((i.renewed changes).find? c.name).isSome
  nonempty : ∀ c ∈ changes.updated, c.isEmpty = false
  exact : ∀ c ∈ changes.updated, ∃ ks, c.Exact ks

theorem ChangeSet.Fits.applied_eq {changes : ChangeSet} {i i' : Image} (h : changes.Fits i i') :
    i.applied changes = i' := by
  have ha := h.apply_eq
  rw [Image.apply] at ha
  split at ha
  · cases ha
  · exact Except.ok.inj ha

theorem Upgrade.Since.fits {i : Image} {v : Nat} {h : History} {u : Upgrade} (hi : i.Sound) (hu : Since i v h u) :
    u.changeSet.Fits i u.finished := by
  refine ⟨hu.apply_changeSet hi, fun _ => hu.ordered_created, fun _ => hu.isSome_find?_renewed hi, fun c hc => ?_,
    fun c hc => ⟨_, (hu.mem_updated hc).2.2.2.2.2⟩⟩
  obtain ⟨-, -, -, he⟩ := hu.mem_journaled.1 hc
  exact he

theorem Transaction.Since.fits {i j : Image} {h : History} (hi : i.Sound) (hj : Since i h j) :
    (changeSet j).Fits i (finished j) := by
  have hf := hj.toUpgrade.fits hi
  exact ⟨hj.apply_changeSet hi, hf.ordered, hf.present, hf.nonempty, hf.exact⟩

/-! ## What units make of images -/

/-- An initializer makes images with a property, if it succeeds. -/
def Upgrade.Makes (C : Image → Prop) (init : Attempt Upgrade Unit) : Prop :=
  ∀ u, init (start {} 1) = (.ok (), u) → C u.finished

/-- An upgrade leads from images to images in a relation, if it succeeds. -/
def Upgrade.Leads {α : Type} (D : Image → Image → Prop) (body : Attempt Upgrade α) : Prop :=
  ∀ i a u, i.WellFormed → body (start i (i.version + 1)) = (.ok a, u) → D i u.finished

/-- A transaction leads from images to images in a relation, if it succeeds. -/
def Transaction.Leads {α : Type} (D : Image → Image → Prop) (body : Attempt Image α) : Prop :=
  ∀ i a j, i.WellFormed → body i = (.ok a, j) → D i (finished j)

/-- What sessions with `I` come to: units that succeed, given what is known of the images that they make, lead to `J`,
and units that fail back to `I`. Upgrades that were committed are counted. -/
structure Session.Passage (C : Image → Prop) (D : Image → Image → Prop) (I J : Nat → Session → Prop) : Prop where
  blank : C { version := 1 }
  filled : Upgrade.Makes C Demo.fill
  wellFormed : ∀ {n store i}, I n ⟨store, some i⟩ → i.WellFormed
  opened : ∀ {n store i}, I n ⟨store, none⟩ → store.load = .ok (some i) → I n ⟨store, some i⟩
  created : ∀ {n store changes i store'}, I n ⟨store, none⟩ → store.load = .ok none → changes.Fits {} i →
    i.WellFormed → C i → i.version = 1 → store.commit changes = (.ok (), store') → I n ⟨store', some i⟩
  notCreated : ∀ {n store changes i e store'}, I n ⟨store, none⟩ → store.load = .ok none → changes.Fits {} i →
    store.commit changes = (.error e, store') → I n ⟨store', none⟩
  committed : ∀ {n store changes i i' d store'}, I n ⟨store, some i⟩ → changes.Fits i i' → i'.WellFormed → D i i' →
    i'.version = i.version + d → store.commit changes = (.ok (), store') → J (n + d) ⟨store', some i'⟩
  notCommitted : ∀ {n store changes i i' e store'}, I n ⟨store, some i⟩ → changes.Fits i i' →
    store.commit changes = (.error e, store') → I n ⟨store', some i⟩

/-- What is kept by everything that units do to a session, whatever images they make, with the number of upgrades that
were committed. -/
abbrev Session.Invariant (I : Nat → Session → Prop) : Prop := Passage (fun _ => True) (fun _ _ => True) I I

/-- What also is kept when the engine is started again over the store, and by whatever leaves the medium alone. -/
structure Session.Lasting (I : Nat → Session → Prop) : Prop where
  restarted : ∀ {n store live}, I n ⟨store, live⟩ → I n ⟨store, none⟩
  medium : ∀ {n store live store'}, I n ⟨store, live⟩ → store'.medium = store.medium → I n ⟨store', live⟩

theorem Session.Lasting.of_medium {I : Nat → Session → Prop} (hL : Lasting I) {n : Nat} {s s' : Session} (hs : I n s)
    (hm : s'.store.medium = s.store.medium) (hl : s'.live = s.live) : I n s' := by
  obtain ⟨store, live⟩ := s
  obtain ⟨store', live'⟩ := s'
  obtain rfl : live' = live := hl
  exact hL.medium hs hm

open Attempt

/-! ## Relations between images -/

section Leads

variable {C : Image → Prop} {D D' : Image → Image → Prop} {α β : Type}

/-- What is done after an upgrade without changing anything does not matter. -/
theorem Upgrade.Leads.bind {body : Attempt Upgrade α} (h : Leads D body) {f : α → Attempt Upgrade β}
    (hf : ∀ a u, (f a u).2 = u) : Leads D (body >>= f) := by
  intro i b u hi hr
  rw [bind_apply] at hr
  cases hb : body (start i (i.version + 1)) with
  | mk outcome v =>
    rw [hb] at hr
    cases outcome with
    | error e => cases hr
    | ok a =>
      obtain rfl : v = u := (hf a v).symm.trans (congrArg Prod.snd hr)
      exact h i a v hi hb

/-- The bodies of a statement lead from images to images in a relation. -/
def Statement.Leads (D : Image → Image → Prop) : Statement → Prop
  | .create table => Upgrade.Leads D (Migration.runAll [.create table])
  | .createAs name rows => ∀ table records, literalTable name rows = .ok (table, records) →
      Upgrade.Leads D (Migration.runAll [.load table records])
  | .drop name => Upgrade.Leads D (Migration.runAll [.drop name])
  | .select .. => True
  | .insert table columns rows => Transaction.Leads D (Query.insert table columns rows)
  | .delete _ none => True
  | .delete table (some condition) => ∀ m, Transaction.Leads D (Query.delete m table condition)

/-- The units of a request make images with a property, or lead from images to images in a relation. -/
def Request.Leads (C : Image → Prop) (D : Image → Image → Prop) : Request → Prop
  | .run text => ∀ s, Statement.parse text = .ok s → s.Leads D
  | .execute s => s.Leads D
  | .rename source target => Upgrade.Leads D (Migration.runAll [.rename source target])
  | .migrate ms => Upgrade.Leads D (Migration.runAll ms)
  | .write steps => Transaction.Leads D (Script.body TransactionOp.run steps)
  | .upgrade steps => Upgrade.Leads D (Script.body UpgradeOp.run steps)
  | .openWith steps => Upgrade.Makes C (Script.body UpgradeOp.run steps)
  | _ => True

/-- A statement leads where all migrations, insertions and deletions do. -/
theorem Statement.leads_of_all (hm : ∀ ms, Upgrade.Leads D (Migration.runAll ms))
    (hi : ∀ table columns rows, Transaction.Leads D (Query.insert table columns rows))
    (hd : ∀ m table condition, Transaction.Leads D (Query.delete m table condition)) (s : Statement) : s.Leads D := by
  cases s with
  | create table => exact hm _
  | createAs name rows => exact fun _ _ _ => hm _
  | drop name => exact hm _
  | select => trivial
  | insert table columns rows => exact hi table columns rows
  | delete table condition =>
    cases condition with
    | none => trivial
    | some condition => exact fun m => hd m table condition

end Leads

namespace Session

variable {C : Image → Prop} {D : Image → Image → Prop} {I J : Nat → Session → Prop} {n : Nat} {α : Type}

/-! ## Opening -/

theorem wellFormed_empty : Image.WellFormed {} := ⟨sound_empty, .empty⟩

theorem Passage.meets_openWith (hP : Passage C D I J) {init : Attempt Upgrade Unit}
    (hinit : Keeps (Upgrade.Working {} 1) init) (hC : Upgrade.Makes C init) :
    Meets (I n) (openWith init) (fun _ s => I n s ∧ ∃ i, s.live = some i) (I n) := by
  rintro ⟨store, live⟩ hs
  cases live with
  | some i => exact ⟨hs, i, rfl⟩
  | none =>
    cases hl : store.load with
    | error e => simpa only [openWith, hl] using hs
    | ok stored =>
      cases stored with
      | some i => simpa only [openWith, hl] using ⟨hP.opened hs hl, i, rfl⟩
      | none =>
        have hw := hinit _ (.start wellFormed_empty 1)
        cases hr : init (Upgrade.start {} 1) with
        | mk outcome u =>
          rw [hr] at hw
          obtain ⟨h, hu⟩ := hw.since
          cases outcome with
          | error e => simpa only [openWith, hl, hr, settleUpgrade] using hs
          | ok a =>
            cases hc : store.commit u.changeSet with
            | mk committed store' =>
              cases committed with
              | ok _ =>
                simp only [openWith, hl, hr, settleUpgrade, hc]
                exact ⟨hP.created hs hl (hu.fits sound_empty) hw.finished (hC u hr) hu.version hc, _, rfl⟩
              | error e =>
                simp only [openWith, hl, hr, settleUpgrade, hc]
                exact hP.notCreated hs hl (hu.fits sound_empty) hc

/-- Opening a session leaves a new store empty. -/
theorem Passage.meets_open (hP : Passage C D I J) :
    Meets (I n) (openWith (pure ())) (fun _ s => I n s ∧ ∃ i, s.live = some i) (I n) :=
  hP.meets_openWith (Keeps.pure ()) fun u hr => by
    cases hr
    exact hP.blank

theorem Passage.meets_image (hP : Passage C D I J) :
    Meets (I n) image (fun i s => I n s ∧ s.live = some i) (I n) := by
  intro s hs
  have ho := hP.meets_open (n := n) s hs
  rw [image]
  cases hr : openWith (pure ()) s with
  | mk outcome s' =>
    rw [hr] at ho
    cases outcome with
    | error e => exact ho
    | ok o =>
      obtain ⟨hs', i, hi⟩ := ho
      simp only [hi]
      exact ⟨hs', trivial⟩

theorem Passage.meets_read (hP : Passage C D I J) (f : Image → Except Error α) :
    Meets (I n) (read f) (fun _ => I n) (I n) := by
  intro s hs
  have hm := hP.meets_image s hs
  rw [read]
  cases hr : image s with
  | mk outcome s' =>
    rw [hr] at hm
    cases outcome with
    | error e => exact hm
    | ok i =>
      dsimp only
      cases f i <;> exact hm.1

/-! ## Units -/

/-- What a transaction that settles leads to, by its outcome. -/
theorem Passage.settleTransaction (hP : Passage C D I J) {store : Store} {i j : Image} (hs : I n ⟨store, some i⟩)
    (hIJ : J n ⟨store, some i⟩) (hj : Transaction.Working i j) {outcome : Except Error α}
    (hD : ∀ a, outcome = .ok a → D i (Transaction.finished j)) :
    match settleTransaction outcome j store with
    | (.ok _, i', store') => J n ⟨store', some i'⟩
    | (.error _, i', store') => I n ⟨store', some i'⟩ := by
  have hi := hP.wellFormed hs
  have hfinished := hj.wellFormed hi
  obtain ⟨h, hj⟩ := hj
  cases outcome with
  | error e => simpa only [Session.settleTransaction, hj.aborted_eq hi.sound] using hs
  | ok a =>
    rw [settleTransaction_ok]
    cases hc : commitTransaction j store with
    | mk committed store' =>
      rw [commitTransaction] at hc
      split at hc
      · -- nothing to commit
        rename_i hn
        cases hc
        simpa only [hj.finished_eq hi.sound (List.isEmpty_iff.1 hn)] using hIJ
      · cases committed with
        | ok _ => exact hP.committed (d := 0) hs (hj.fits hi.sound) hfinished (hD a rfl) hj.upgrade.version hc
        | error e =>
          simp only [hj.aborted_eq hi.sound]
          exact hP.notCommitted hs (hj.fits hi.sound) hc

theorem Passage.meets_write (hP : Passage C D I J) (hIJ : ∀ {s}, I n s → J n s) {body : Attempt Image α}
    (hb : ∀ i, Keeps (Transaction.Working i) body) (hD : Transaction.Leads D body) :
    Meets (I n) (write body) (fun _ => J n) (I n) := by
  intro s hs
  have hm := hP.meets_image s hs
  rw [write]
  cases hr : image s with
  | mk outcome s' =>
    rw [hr] at hm
    cases outcome with
    | error e => exact hm
    | ok i =>
      obtain ⟨store, live⟩ := s'
      obtain ⟨hs', hl⟩ := hm
      obtain rfl : live = some i := hl
      have hi := hP.wellFormed hs'
      have hw := hb i i ⟨_, .start hi.sound⟩
      have hd : ∀ a, (body i).1 = .ok a → D i (Transaction.finished (body i).2) :=
        fun a ha => hD i a _ hi (by rw [← ha])
      have hsettled := hP.settleTransaction hs' (hIJ hs') hw hd
      dsimp only
      cases hset : Session.settleTransaction (body i).1 (body i).2 store with
      | mk outcome rest =>
        rw [hset] at hsettled
        cases outcome <;> exact hsettled

theorem Passage.meets_upgrade (hP : Passage C D I J) {body : Attempt Upgrade α}
    (hb : ∀ i v, Keeps (Upgrade.Working i v) body) (hD : Upgrade.Leads D body) :
    Meets (I n) (upgrade body) (fun _ => J (n + 1)) (I n) := by
  intro s hs
  have hm := hP.meets_image s hs
  rw [upgrade]
  cases hr : image s with
  | mk outcome s' =>
    rw [hr] at hm
    cases outcome with
    | error e => exact hm
    | ok i =>
      obtain ⟨store, live⟩ := s'
      obtain ⟨hs', hl⟩ := hm
      obtain rfl : live = some i := hl
      have hi := hP.wellFormed hs'
      have hw := hb i _ _ (.start hi (i.version + 1))
      dsimp only
      cases hbody : body (Upgrade.start i (i.version + 1)) with
      | mk outcome u =>
        rw [hbody] at hw
        obtain ⟨h, hu⟩ := hw.since
        cases outcome with
        | error e => simpa only [settleUpgrade, hu.aborted_eq hi.sound] using hs'
        | ok a =>
          cases hc : store.commit u.changeSet with
          | mk committed store' =>
            cases committed with
            | ok _ =>
              simp only [settleUpgrade, hc]
              exact hP.committed hs' (hu.fits hi.sound) hw.finished (hD i a u hi hbody) hu.version hc
            | error e =>
              simp only [settleUpgrade, hc, hu.aborted_eq hi.sound]
              exact hP.notCommitted hs' (hu.fits hi.sound) hc

end Session

/-! ## Requests -/

/-- How many upgrades a statement commits if it is carried out. -/
def Statement.upgrades (s : Statement) : Nat := if s.changesSchema then 1 else 0

/-- How many upgrades a request commits if it is answered without an error. -/
def Request.upgrades : Request → Nat
  | .run text =>
    match Statement.parse text with
    | .ok s => s.upgrades
    | .error _ => 0
  | .execute s => s.upgrades
  | .rename _ _ | .migrate _ | .upgrade _ => 1
  | _ => 0

namespace Engine

variable {C : Image → Prop} {D : Image → Image → Prop} {I J : Nat → Session → Prop} {n : Nat}

theorem meets_ready (hP : Session.Passage C D I J) (settings : Settings) :
    Meets (I n) (ready settings) (fun _ => I n) (I n) := by
  rw [ready]
  refine Meets.bind (Q := fun _ => I n) ?_ fun _ => Meets.pure fun _ hs => hs
  split
  · exact (hP.meets_openWith Demo.keeps_fill hP.filled).imp (fun _ hs => hs) (fun _ _ hs => hs.1) fun _ hs => hs
  · exact hP.meets_open.imp (fun _ hs => hs) (fun _ _ hs => hs.1) fun _ hs => hs

theorem meets_migrate (hP : Session.Passage C D I J) {ms : List Migration}
    (hD : Upgrade.Leads D (Migration.runAll ms)) : Meets (I n) (migrate ms) (fun _ => J (n + 1)) (I n) :=
  hP.meets_upgrade (fun _ _ => (Migration.keeps_working ms).bind fun _ => Keeps.read _) (hD.bind fun _ _ => rfl)

/-- A migration and an answer that does not fail. -/
theorem meets_migrate_pure {α : Type} (hP : Session.Passage C D I J) {ms : List Migration}
    (hD : Upgrade.Leads D (Migration.runAll ms)) (a : Nat → α) :
    Meets (I n) (migrate ms >>= fun v => pure (a v)) (fun _ => J (n + 1)) (I n) :=
  (meets_migrate hP hD).bind fun _ => Meets.pure fun _ hs => hs

theorem meets_write_pure {α β : Type} (hP : Session.Passage C D I J) (hIJ : ∀ {s}, I n s → J n s)
    {body : Attempt Image α} (a : α → β) (hb : ∀ i, Keeps (Transaction.Working i) body)
    (hD : Transaction.Leads D body) :
    Meets (I n) (Session.write body >>= fun v => pure (a v)) (fun _ => J n) (I n) :=
  (hP.meets_write hIJ hb hD).bind fun _ => Meets.pure fun _ hs => hs

theorem meets_perform (hP : Session.Passage C D I J) (m : Matching) {s : Statement}
    (hIJ : s.upgrades = 0 → ∀ {s}, I n s → J n s) (hD : s.Leads D) :
    Meets (I n) (perform m s) (fun _ => J (n + s.upgrades)) (I n) := by
  cases s with
  | create table => exact meets_migrate_pure hP hD _
  | createAs name rows =>
    exact Meets.bind (Meets.read fun _ hs => hs) fun p session ⟨hs, hp⟩ =>
      meets_migrate_pure hP (hD p.1 p.2 hp) _ session hs
  | drop name => exact meets_migrate_pure hP hD _
  | select projection table condition =>
    exact (hP.meets_read _).imp (fun _ hs => hs) (fun _ _ hs => hIJ rfl hs) fun _ hs => hs
  | insert table columns rows =>
    exact meets_write_pure hP (hIJ rfl) _ (fun i => Query.keeps_insert table columns rows) hD
  | delete table condition =>
    cases condition with
    | none => exact fun _ hs => hs
    | some condition => exact meets_write_pure hP (hIJ rfl) _ (fun i => Query.keeps_delete m table condition) (hD m)

theorem meets_execute (hP : Session.Passage C D I J) (m : Matching) {s : Statement}
    (hIJ : s.upgrades = 0 → ∀ {s}, I n s → J n s) (hD : s.Leads D) :
    Meets (I n) (execute m s) (fun _ => J (n + s.upgrades)) (I n) :=
  (meets_perform hP m hIJ hD).bind fun _ => Meets.pure fun _ hs => hs

theorem meets_run (hP : Session.Passage C D I J) (settings : Settings) {text : String}
    (hIJ : (Request.run text).upgrades = 0 → ∀ {s}, I n s → J n s) (hD : (Request.run text).Leads C D) :
    Meets (I n) (run settings text) (fun _ => J (n + (Request.run text).upgrades)) (I n) := by
  refine (meets_ready hP settings).bind fun _ => (Meets.read fun _ hs => hs).bind fun s => ?_
  intro session hs
  simp only [Request.upgrades, hs.2] at hIJ ⊢
  exact meets_execute hP settings.matching hIJ (hD s hs.2) session hs.1

theorem meets_rename (hP : Session.Passage C D I J) (settings : Settings) {source target : String}
    (hD : Upgrade.Leads D (Migration.runAll [.rename source target])) :
    Meets (I n) (rename settings source target) (fun _ => J (n + 1)) (I n) :=
  (meets_ready hP settings).bind fun _ => meets_migrate_pure hP hD _

theorem meets_synced (hP : Session.Passage C D I J) : Meets (I n) synced (fun _ => I n) (I n) :=
  ((Keeps.read _).meets).bind fun _ => hP.meets_image.bind fun _ => Meets.pure fun _ hs => hs.1

/-- A step on the session of an engine. -/
theorem meets_onSession {α : Type} {P R : Session → Prop} {Q : Session → Prop} (answer : α → Answer)
    {step : Settings → Attempt Session α} (h : ∀ settings, Meets P (step settings) (fun _ => Q) R) :
    Meets (fun e => P e.session) (onSession answer step) (fun _ e => Q e.session) fun e => R e.session := by
  intro e he
  have := h e.settings e.session he
  rw [onSession]
  cases hr : step e.settings e.session with
  | mk outcome s =>
    rw [hr] at this
    cases outcome <;> exact this

/-- A step that leaves the medium and the live image alone, and does not fail. -/
theorem meets_of_medium {α : Type} {R : Session → Prop}
    (hM : ∀ {s s'}, I n s → s'.store.medium = s.store.medium → s'.live = s.live → J n s') {x : Attempt Session α}
    (h : ∀ s, (∃ a, (x s).1 = .ok a) ∧ (x s).2.store.medium = s.store.medium ∧ (x s).2.live = s.live) :
    Meets (I n) x (fun _ => J n) R := by
  intro s hs
  obtain ⟨⟨a, ha⟩, hm, hl⟩ := h s
  cases hx : x s with
  | mk outcome s' =>
    rw [hx] at ha hm hl
    obtain rfl : outcome = .ok a := ha
    exact hM hs hm hl

/-- **Every request whose units lead from images to images as they should leads from sessions to sessions as units do**,
and counts one more upgrade if it is one and succeeds; if it fails, sessions keep what they have. What commits no
upgrade must go over from `I` to `J`, also where the session is closed by a restart. -/
theorem meets_serve_of_leads (hP : Session.Passage C D I J) {r : Request}
    (hM : r.upgrades = 0 → ∀ {s s'}, I n s → s'.store.medium = s.store.medium → s'.live = s.live → J n s')
    (hR : ∀ settings, r = .restart settings → ∀ {store live}, I n ⟨store, live⟩ → J n ⟨store, none⟩)
    (hD : r.Leads C D) :
    Meets (fun e => I n e.session) (serve r) (fun _ e => J (n + r.upgrades) e.session) fun e => I n e.session := by
  have hIJ : r.upgrades = 0 → ∀ {s}, I n s → J n s := fun hr _ hs => hM hr hs rfl rfl
  -- requests that only read
  have hreads : ∀ {α : Type} {x : Attempt Session α} {Q : α → Session → Prop}, r.upgrades = 0 →
      Meets (I n) x Q (I n) → (∀ a s, Q a s → I n s) → Meets (I n) x (fun _ => J n) (I n) :=
    fun hr hx hQ => hx.imp (fun _ hs => hs) (fun a s hs => hIJ hr (hQ a s hs)) fun _ hs => hs
  have hready : ∀ {α : Type} (f : Image → Except Error α) settings, r.upgrades = 0 →
      Meets (I n) (ready settings >>= fun _ => Session.read f) (fun _ => J n) (I n) := fun f settings hr =>
    hreads hr ((meets_ready hP settings).bind fun _ => hP.meets_read f) fun _ _ hs => hs
  cases r with
  | ready => exact meets_onSession _ fun settings => hreads rfl (meets_ready hP settings) fun _ _ hs => hs
  | openStore => exact meets_onSession _ fun _ => hreads rfl hP.meets_open fun _ _ hs => hs.1
  | isOpen =>
    have hk : Keeps (I n) (Attempt.read fun s : Session => .ok s.isOpen) := Keeps.read _
    exact meets_onSession .flag fun _ => hreads rfl hk.meets fun _ _ hs => hs
  | version => exact meets_onSession _ fun settings => hready _ settings rfl
  | tables => exact meets_onSession _ fun settings => hready _ settings rfl
  | run text => exact meets_onSession _ fun settings => meets_run hP settings hIJ hD
  | execute s => exact meets_onSession _ fun settings => meets_execute hP settings.matching hIJ hD
  | rename source target => exact meets_onSession _ fun settings => meets_rename hP settings hD
  | dump table => exact meets_onSession _ fun settings => hready _ settings rfl
  | migrate ms => exact meets_onSession _ fun _ => meets_migrate hP hD
  | image => exact meets_onSession _ fun _ => hreads rfl hP.meets_image fun _ _ hs => hs.1
  | stored =>
    have hk : Keeps (I n) (Attempt.read fun s : Session => s.store.load) := Keeps.read _
    exact meets_onSession .image fun _ => hreads rfl hk.meets fun _ _ hs => hs
  | synced => exact meets_onSession _ fun _ => hreads rfl (meets_synced hP) fun _ _ hs => hs
  | restart settings => exact fun _ he => hR settings rfl he
  | failing on =>
    have hk : Meets (I n) (Attempt.change fun s => { s with store := { s.store with failing := on } }) (fun _ => J n)
        (I n) := meets_of_medium (hM rfl) fun _ => ⟨⟨_, rfl⟩, rfl, rfl⟩
    exact meets_onSession (fun _ => .done) fun _ => hk
  | commits =>
    have hk : Meets (I n) takeLog (fun _ => J n) (I n) := meets_of_medium (hM rfl) fun _ => ⟨⟨_, rfl⟩, rfl, rfl⟩
    exact meets_onSession .commits fun _ => hk
  | write steps =>
    exact meets_onSession _ fun _ =>
      hP.meets_write (hIJ rfl) (fun _ => Script.keeps_body (fun op => op.keeps_working) steps) hD
  | upgrade steps =>
    exact meets_onSession _ fun _ =>
      hP.meets_upgrade (fun _ _ => Script.keeps_body (fun op => op.keeps_working) steps) hD
  | openWith steps =>
    exact meets_onSession _ fun _ =>
      hreads rfl (hP.meets_openWith (Script.keeps_body (fun op => op.keeps_working) steps) hD) fun _ _ hs => hs.1

/-- Where nothing is asked of images, all units do. -/
theorem leads_true (r : Request) : r.Leads (fun _ => True) fun _ _ => True := by
  have hs : ∀ s : Statement, s.Leads fun _ _ => True :=
    Statement.leads_of_all (fun _ _ _ _ _ _ => trivial) (fun _ _ _ _ _ _ _ _ => trivial)
      fun _ _ _ _ _ _ _ _ => trivial
  cases r with
  | run text => exact fun s _ => hs s
  | execute s => exact hs s
  | rename | migrate | write | upgrade => exact fun _ _ _ _ _ => trivial
  | openWith => exact fun _ _ => trivial
  | _ => trivial

/-- **Every request keeps an invariant**, and counts one more upgrade if it is one and succeeds. -/
theorem meets_serve (hI : Session.Invariant I) (hL : Session.Lasting I) (r : Request) :
    Meets (fun e => I n e.session) (serve r) (fun _ e => I (n + r.upgrades) e.session) fun e => I n e.session :=
  meets_serve_of_leads hI (fun _ => hL.of_medium) (fun _ _ => hL.restarted) (leads_true r)

/-- How many upgrades the requests of a run commit. -/
def committedUpgrades : List Request → Engine → Nat
  | [], _ => 0
  | r :: rs, e =>
    (match (serve r e).1 with
      | .ok _ => r.upgrades
      | .error _ => 0) + committedUpgrades rs (serve r e).2

/-- **A run keeps what all its requests keep**, and the number of upgrades adds up. -/
theorem invariant_after : ∀ {rs : List Request} {e : Engine} {n : Nat},
    (∀ r ∈ rs, ∀ n, Meets (fun e => I n e.session) (serve r) (fun _ e => I (n + r.upgrades) e.session)
      fun e => I n e.session) →
    I n e.session → I (n + committedUpgrades rs e) (after rs e).session
  | [], _, _, _, he => he
  | r :: rs, e, n, h, he => by
    obtain ⟨hr, hrs⟩ := List.forall_mem_cons.1 h
    have hstep := hr n e he
    rw [committedUpgrades, ← Nat.add_assoc]
    show I _ (after rs (serve r e).2).session
    cases hs : serve r e with
    | mk answer e' =>
      rw [hs] at hstep
      cases answer with
      | ok a => exact invariant_after hrs hstep
      | error err => exact invariant_after hrs hstep

end Engine

end TableStore
