import Mathlib.Data.Set.BooleanAlgebra
import Mathlib.Order.CompletePartialOrder
import TableStore.Proofs.Batch
import TableStore.Proofs.Replay

/-!
# Tables that keep apart

- two images can have the same tables under certain names (`Image.AgreeOn`); a unit that names no others does the same
  on both, and leaves the other names alone on both (`Image.Matched`, `Upgrade.Matched`);
- so an attempt on open sessions `StaysWithin` the names: it has the same result on both, they agree there again, and
  under other names nothing has changed; statements stay within the name of their table
  (`Statement.staysWithin_execute`);
- an engine that serves two kinds of requests `Shares` the tables of each kind with one that serves these alone
  (`Engine.Shares.run`), so it has the same answers and the same tables (`Engine.tables_do_not_interfere`).
-/

namespace TableStore

open Attempt

/-! ## Maps that change together -/

/-- Two maps that came out of two others by the same changes under certain keys. -/
structure OrderedMap.Matched {α : Type} (A : Set String) (m₀ n₀ m n : OrderedMap String α) : Prop where
  same : ∀ k ∈ A, m.find? k = n.find? k
  left : ∀ k ∉ A, m₀.find? k = m.find? k
  right : ∀ k ∉ A, n₀.find? k = n.find? k
  sorted_left : m.Sorted fun _ => True
  sorted_right : n.Sorted fun _ => True

namespace OrderedMap.Matched

variable {α : Type} {A : Set String} {m₀ n₀ m n : OrderedMap String α} {k : String}

theorem start (h : ∀ k ∈ A, m.find? k = n.find? k) (hm : m.Sorted fun _ => True) (hn : n.Sorted fun _ => True) :
    Matched A m n m n := ⟨h, fun _ _ => rfl, fun _ _ => rfl, hm, hn⟩

theorem insert (h : Matched A m₀ n₀ m n) (hk : k ∈ A) (a : α) : Matched A m₀ n₀ (m.insert k a) (n.insert k a) where
  same l hl := by
    rw [h.sorted_left.find?_insert trivial a trivial, h.sorted_right.find?_insert trivial a trivial, h.same l hl]
  left l hl := by
    rw [h.sorted_left.find?_insert trivial a trivial, if_neg (ne_of_mem_of_not_mem hk hl).symm]
    exact h.left l hl
  right l hl := by
    rw [h.sorted_right.find?_insert trivial a trivial, if_neg (ne_of_mem_of_not_mem hk hl).symm]
    exact h.right l hl
  sorted_left := h.sorted_left.insert trivial a
  sorted_right := h.sorted_right.insert trivial a

theorem erase (h : Matched A m₀ n₀ m n) (hk : k ∈ A) : Matched A m₀ n₀ (m.erase k) (n.erase k) where
  same l hl := by
    rw [h.sorted_left.find?_erase trivial trivial, h.sorted_right.find?_erase trivial trivial, h.same l hl]
  left l hl := by
    rw [h.sorted_left.find?_erase trivial trivial, if_neg (ne_of_mem_of_not_mem hk hl).symm]
    exact h.left l hl
  right l hl := by
    rw [h.sorted_right.find?_erase trivial trivial, if_neg (ne_of_mem_of_not_mem hk hl).symm]
    exact h.right l hl
  sorted_left := h.sorted_left.erase trivial
  sorted_right := h.sorted_right.erase trivial

theorem contains_eq (h : Matched A m₀ n₀ m n) (hk : k ∈ A) : m.contains k = n.contains k := by
  rw [contains_eq_isSome, contains_eq_isSome, h.same k hk]

end OrderedMap.Matched

/-! ## Images -/

namespace Image

/-- Two images have the same definitions and the same containers under certain names. -/
structure AgreeOn (A : Set String) (i j : Image) : Prop where
  definitions : ∀ name ∈ A, i.catalog.find? name = j.catalog.find? name
  containers : ∀ name ∈ A, i.find? name = j.find? name

/-- Two images that came out of two others by the same changes under certain names. -/
structure Matched (A : Set String) (i j u v : Image) : Prop where
  catalog : OrderedMap.Matched A i.catalog.tables j.catalog.tables u.catalog.tables v.catalog.tables
  containers : OrderedMap.Matched A i.containers j.containers u.containers v.containers

namespace AgreeOn

variable {A B : Set String} {i j k : Image}

theorem refl (i : Image) : i.AgreeOn A i := ⟨fun _ _ => rfl, fun _ _ => rfl⟩

theorem symm (h : i.AgreeOn A j) : j.AgreeOn A i :=
  ⟨fun name hn => (h.definitions name hn).symm, fun name hn => (h.containers name hn).symm⟩

theorem trans (h : i.AgreeOn A j) (h' : j.AgreeOn A k) : i.AgreeOn A k :=
  ⟨fun name hn => (h.definitions name hn).trans (h'.definitions name hn),
    fun name hn => (h.containers name hn).trans (h'.containers name hn)⟩

theorem mono (h : i.AgreeOn B j) (hAB : A ⊆ B) : i.AgreeOn A j :=
  ⟨fun name hn => h.definitions name (hAB hn), fun name hn => h.containers name (hAB hn)⟩

end AgreeOn

namespace Matched

variable {A : Set String} {i j u v : Image} {name : String}

theorem start (hi : i.WellFormed) (hj : j.WellFormed) (h : i.AgreeOn A j) : Matched A i j i j :=
  ⟨.start h.definitions hi.filed.sorted hj.filed.sorted, .start h.containers hi.sound.sorted hj.sound.sorted⟩

theorem agree (h : Matched A i j u v) : u.AgreeOn A v := ⟨h.catalog.same, h.containers.same⟩

theorem agree_left (h : Matched A i j u v) : i.AgreeOn Aᶜ u := ⟨h.catalog.left, h.containers.left⟩

theorem agree_right (h : Matched A i j u v) : j.AgreeOn Aᶜ v := ⟨h.catalog.right, h.containers.right⟩

theorem find?_eq (h : Matched A i j u v) (hn : name ∈ A) : u.find? name = v.find? name := h.containers.same name hn

theorem set (h : Matched A i j u v) (hn : name ∈ A) (c : Container) : Matched A i j (u.set name c) (v.set name c) :=
  ⟨h.catalog, h.containers.insert hn c⟩

theorem contains_eq (h : Matched A i j u v) (hn : name ∈ A) : u.contains name = v.contains name :=
  h.containers.contains_eq hn

/-- Work on the container of a name. -/
theorem parallel_edit {α : Type} (hn : name ∈ A) (ready : Container → Container) (f : Attempt Container α) :
    Parallel (Matched A i j) (edit ready name f) (Matched A i j) := by
  intro u v h
  rw [edit, edit, h.find?_eq hn]
  cases v.find? name with
  | none => exact .error
  | some c =>
    dsimp only
    cases (f (ready c)).1 with
    | ok a => exact .ok (h.set hn _)
    | error e => exact .error

end Matched

end Image

/-! ## Upgrades -/

namespace Upgrade

/-- Two upgrades of two images that have made the same changes under certain names. -/
structure Matched (A : Set String) (i j : Image) (u v : Upgrade) : Prop where
  image : Image.Matched A i j u.image v.image
  created : OrderedMap.Matched A .empty .empty u.created v.created

variable {A : Set String} {i j : Image} {u v : Upgrade} {name : String}

theorem Matched.start (hi : i.WellFormed) (hj : j.WellFormed) (h : i.AgreeOn A j) (m n : Nat) :
    Matched A i j (start i m) (start j n) :=
  ⟨⟨(Image.Matched.start hi hj h).catalog, (Image.Matched.start hi hj h).containers⟩,
    .start (fun _ _ => rfl) OrderedMap.sorted_empty OrderedMap.sorted_empty⟩

theorem Matched.delete (hn : name ∈ A) : Parallel (Matched A i j) (delete name) (Matched A i j) := by
  intro u v h
  have hwithout : Image.Matched A i j (u.without name).image (v.without name).image :=
    ⟨h.image.catalog, h.image.containers.erase hn⟩
  rw [Upgrade.delete, Upgrade.delete, h.image.find?_eq hn, h.created.contains_eq hn]
  cases v.image.find? name with
  | none => exact .ok h
  | some c =>
    dsimp only
    split
    · exact .ok ⟨hwithout, h.created.erase hn⟩
    · exact .ok ⟨hwithout, h.created⟩

/-- What is done under the names is done to both upgrades, and the other names are left alone. -/
theorem congruence_matched (A : Set String) (i j : Image) : Congruence A (Matched A i j) fun _ => Matched A i j where
  defined h hn := h.image.catalog.same _ hn
  found h hn := h.image.find?_eq hn
  create h hn c _ := ⟨h.image.set hn c, h.created.insert hn ()⟩
  created h := h
  ready h hn := by rw [ready, ready, h.created.contains_eq hn]
  edit h hn _ _ := ⟨h.image.set hn _, h.created⟩
  delete hn := Matched.delete hn
  put h hn := ⟨⟨h.image.catalog.insert hn _, h.image.containers⟩, h.created⟩
  erase h hn := ⟨⟨h.image.catalog.erase hn, h.image.containers⟩, h.created⟩

end Upgrade

/-! ## Insertions and deletions -/

namespace Query

variable {A : Set String} {i j : Image} {table : String}

theorem columnsOf_eq {u v : Image} (h : Image.AgreeOn A u v) (hn : table ∈ A) :
    columnsOf u table = columnsOf v table := by
  rw [columnsOf, columnsOf, h.definitions table hn]

theorem parallel_insert (hn : table ∈ A) (columns : Option (List String)) (rows : List (List Value)) :
    Parallel (Image.Matched A i j) (insert table columns rows) (Image.Matched A i j) := by
  refine (Parallel.read fun u v h => ?_).bind fun columns => ?_
  · rw [h.contains_eq hn, columnsOf_eq h.agree hn]
  · exact (Image.Matched.parallel_edit hn _ _).bind fun _ => .pure _

theorem parallel_delete (hn : table ∈ A) (m : Matching) (condition : Condition) :
    Parallel (Image.Matched A i j) (delete m table condition) (Image.Matched A i j) := by
  refine (Parallel.read fun u v h => ?_).bind fun _ => Image.Matched.parallel_edit hn _ _
  rw [h.contains_eq hn]

theorem select_eq {u v : Image} (h : Image.AgreeOn A u v) (hn : table ∈ A) (m : Matching) (projection : Projection)
    (condition : Option Condition) : select m projection table condition u = select m projection table condition v := by
  unfold select
  rw [h.containers table hn, columnsOf_eq h hn]

end Query

/-- What a transaction has changed under certain names is kept, and the rest stays. -/
theorem Image.Matched.finished {A : Set String} {i j u v : Image} (hi : i.WellFormed) (hj : j.WellFormed)
    (h : Image.Matched A i j u v) : (Transaction.finished u).AgreeOn A (Transaction.finished v) ∧
      i.AgreeOn Aᶜ (Transaction.finished u) ∧ j.AgreeOn Aᶜ (Transaction.finished v) := by
  have hkept : ∀ {i u : Image}, i.WellFormed → i.AgreeOn Aᶜ u → i.AgreeOn Aᶜ (Transaction.finished u) :=
    fun {i u} hi h => by
      refine ⟨h.definitions, fun name hn => ?_⟩
      rw [Transaction.find?_finished, ← h.containers name hn]
      cases hc : i.find? name with
      | none => rfl
      | some c => exact congrArg some (Container.commit_of_none (hi.sound.settled hc).closed).symm
  refine ⟨⟨h.agree.definitions, fun name hn => ?_⟩, hkept hi h.agree_left, hkept hj h.agree_right⟩
  rw [Transaction.find?_finished, Transaction.find?_finished, h.find?_eq hn]

/-! ## Sessions -/

namespace Session

/-- On open sessions whose images agree on certain names, an attempt has the same result; their images agree on these
names afterwards too, and on the other names each agrees with what it was. -/
def StaysWithin {α : Type} (A : Set String) (x : Attempt Session α) : Prop :=
  ∀ s t i j, s.Commits i → t.Commits j → i.AgreeOn A j → (x s).1 = (x t).1 ∧
    ∃ i' j', (x s).2.Commits i' ∧ (x t).2.Commits j' ∧ i'.AgreeOn A j' ∧ i.AgreeOn Aᶜ i' ∧ j.AgreeOn Aᶜ j'

variable {α β : Type} {A : Set String}

/-- An attempt that leaves sessions as they are. -/
theorem staysWithin_of_leaves {x : Attempt Session α} (hx : ∀ s i, s.Commits i → (x s).2 = s)
    (hr : ∀ {s t i j}, s.Commits i → t.Commits j → i.AgreeOn A j → (x s).1 = (x t).1) : StaysWithin A x := by
  intro s t i j hs ht h
  refine ⟨hr hs ht h, i, j, ?_, ?_, h, .refl i, .refl j⟩
  · rwa [hx s i hs]
  · rwa [hx t j ht]

theorem staysWithin_pure (a : α) : StaysWithin A (pure a) := staysWithin_of_leaves (fun _ _ _ => rfl) fun _ _ _ => rfl

theorem staysWithin_fail (e : Error) : StaysWithin A (Attempt.fail e : Attempt Session α) :=
  staysWithin_of_leaves (fun _ _ _ => rfl) fun _ _ _ => rfl

theorem staysWithin_read {f : Image → Except Error α} (hf : ∀ i j, i.AgreeOn A j → f i = f j) :
    StaysWithin A (read f) := by
  have hread : ∀ {s : Session} {i : Image}, s.Commits i → read f s = (f i, s) := fun hs => by
    rw [read, image_of_live hs.live]
  refine staysWithin_of_leaves (fun s i hs => by rw [hread hs]) fun hs ht h => ?_
  rw [hread hs, hread ht, hf _ _ h]

theorem StaysWithin.bind {x : Attempt Session α} {f : α → Attempt Session β} (hx : StaysWithin A x)
    (hf : ∀ a, StaysWithin A (f a)) : StaysWithin A (x >>= f) := by
  intro s t i j hs ht h
  obtain ⟨hresult, i', j', hs', ht', h', hi, hj⟩ := hx s t i j hs ht h
  rw [bind_apply, bind_apply]
  cases hxs : x s with
  | mk outcome s' =>
    cases hxt : x t with
    | mk outcome' t' =>
      rw [hxs, hxt] at hresult
      rw [hxs] at hs'
      rw [hxt] at ht'
      obtain rfl : outcome = outcome' := hresult
      cases outcome with
      | error e => exact ⟨rfl, i', j', hs', ht', h', hi, hj⟩
      | ok a =>
        obtain ⟨hresult, i'', j'', hs'', ht'', h'', hi', hj'⟩ := hf a s' t' i' j' hs' ht' h'
        exact ⟨hresult, i'', j'', hs'', ht'', h'', hi.trans hi', hj.trans hj'⟩

/-! ### Units -/

/-- A transaction whose body fails leaves the session as it was. -/
theorem Commits.write_of_error {s : Session} {i u : Image} {body : Attempt Image α} {e : Error} (h : s.Commits i)
    (hb : Keeps (Transaction.Working i) body) (hr : body i = (.error e, u)) : Session.write body s = (.error e, s) := by
  obtain ⟨store, live⟩ := s
  obtain rfl : live = some i := h.live
  have hu : Transaction.Working i u := by
    have := hb i ⟨_, .start h.wellFormed.sound⟩
    rwa [hr] at this
  obtain ⟨_, hu⟩ := hu
  rw [write_of_live body hr]
  simp only [settleTransaction, hu.aborted_eq h.wellFormed.sound]

/-- **A transaction on certain tables stays within them.** -/
theorem staysWithin_write {body : Attempt Image α} (hb : ∀ i, Keeps (Transaction.Working i) body)
    (hp : ∀ i j, Parallel (Image.Matched A i j) body (Image.Matched A i j)) : StaysWithin A (write body) := by
  intro s t i j hs ht h
  have hsame := hp i j i j (.start hs.wellFormed ht.wellFormed h)
  cases hu : body i with
  | mk outcome u =>
    cases hv : body j with
    | mk outcome' v =>
      rw [hu, hv] at hsame
      cases hsame with
      | error =>
        rw [hs.write_of_error (hb i) hu, ht.write_of_error (hb j) hv]
        exact ⟨rfl, i, j, hs, ht, h, .refl i, .refl j⟩
      | ok h' =>
        obtain ⟨s', hws, hs'⟩ := hs.write (hb i) hu
        obtain ⟨t', hwt, ht'⟩ := ht.write (hb j) hv
        rw [hws, hwt]
        exact ⟨rfl, _, _, hs', ht', h'.finished hs.wellFormed ht.wellFormed⟩

end Session

/-! ## Statements and requests -/

namespace Engine

variable {α : Type} {A : Set String}

/-- An upgrade with a migration of certain tables stays within them, but for the version that it gives. -/
theorem staysWithin_migrate (m : Migration) (hm : ∀ name ∈ m.names, name ∈ A) (a : α) :
    Session.StaysWithin A (do let _ ← migrate [m]; pure a) := by
  have hbind : ∀ s, (do let _ ← migrate [m]; pure a : Attempt Session α) s =
      ((migrate [m] s).1.map fun _ => a, (migrate [m] s).2) := fun s => by
    rw [bind_apply]
    cases migrate [m] s with
    | mk outcome s' => cases outcome <;> rfl
  intro s t i j hs ht h
  have hsame := m.parallel_run_of_names (Upgrade.congruence_matched A i j) hm _ _
    (Upgrade.Matched.start hs.wellFormed ht.wellFormed h (i.version + 1) (j.version + 1))
  rw [hbind, hbind]
  obtain ⟨store, live⟩ := s
  obtain rfl : live = some i := hs.live
  obtain ⟨store', live'⟩ := t
  obtain rfl : live' = some j := ht.live
  cases hu : m.run (Upgrade.start i (i.version + 1)) with
  | mk outcome u =>
    cases hv : m.run (Upgrade.start j (j.version + 1)) with
    | mk outcome' v =>
      rw [hu, hv] at hsame
      rw [← Migration.runAll_singleton] at hu hv
      cases hsame with
      | error =>
        rw [migrate_of_error hs.wellFormed hu, migrate_of_error ht.wellFormed hv]
        exact ⟨rfl, i, j, hs, ht, h, .refl i, .refl j⟩
      | ok h' =>
        obtain ⟨-, hi', _, hretains, hsteadfast, hms⟩ := migrate_of_ok hs.retains hs.steadfast hs.wellFormed hu
        obtain ⟨-, hj', _, hretains', hsteadfast', hmt⟩ := migrate_of_ok ht.retains ht.steadfast ht.wellFormed hv
        rw [hms, hmt]
        exact ⟨rfl, u.image, v.image, ⟨rfl, hretains, hsteadfast, hi'⟩, ⟨rfl, hretains', hsteadfast', hj'⟩,
          h'.image.agree, h'.image.agree_left, h'.image.agree_right⟩

end Engine

namespace Statement

/-- The name of the table that a statement has to do with. -/
def target : Statement → String
  | create table => table.name
  | createAs table _ | drop table | select _ table _ | insert table _ _ | delete table _ => table

variable {A : Set String}

theorem staysWithin_perform (m : Matching) {s : Statement} (hs : s.target ∈ A) :
    Session.StaysWithin A (Engine.perform m s) := by
  cases s with
  | create table => exact Engine.staysWithin_migrate (.create table) (List.forall_mem_singleton.2 hs) _
  | createAs name rows =>
    rw [Engine.perform]
    cases hparts : literalTable name rows with
    | error e => exact Session.staysWithin_fail e
    | ok parts =>
      obtain ⟨table, records⟩ := parts
      have hname : table.name ∈ A := by rwa [(of_literalTable hparts).1]
      exact Engine.staysWithin_migrate (.load table records) (List.forall_mem_singleton.2 hname) _
  | drop name => exact Engine.staysWithin_migrate (.drop name) (List.forall_mem_singleton.2 hs) _
  | select projection table condition =>
    exact Session.staysWithin_read fun i j h => Query.select_eq h hs m projection condition
  | insert table columns rows =>
    exact (Session.staysWithin_write (fun _ => Query.keeps_insert _ _ _) fun _ _ =>
      Query.parallel_insert hs columns rows).bind fun _ => Session.staysWithin_pure _
  | delete table condition =>
    cases condition with
    | none => exact Session.staysWithin_fail _
    | some condition =>
      exact (Session.staysWithin_write (fun _ => Query.keeps_delete _ _ _) fun _ _ =>
        Query.parallel_delete hs m condition).bind fun _ => Session.staysWithin_pure _

/-- **A statement stays within the name of its table.** -/
theorem staysWithin_execute (m : Matching) {s : Statement} (hs : s.target ∈ A) :
    Session.StaysWithin A (Engine.execute m s) :=
  (staysWithin_perform m hs).bind fun _ => Session.staysWithin_pure _

end Statement

/-- A statement, as a text or read already, or another name for a table, that names only certain tables. -/
def Request.Within (A : Set String) : Request → Prop
  | .run text => ∀ s, Statement.parse text = .ok s → s.target ∈ A
  | .execute s => s.target ∈ A
  | .rename source target => source ∈ A ∧ target ∈ A
  | _ => False

namespace Engine

variable {A B : Set String} {e f g : Engine} {i j k : Image}

/-- Two engines with the same settings, whose open sessions commit, and whose images agree on certain names. -/
structure Shares (A : Set String) (e f : Engine) (i j : Image) : Prop where
  settings : e.settings = f.settings
  left : e.session.Commits i
  right : f.session.Commits j
  agree : i.AgreeOn A j

theorem Shares.onSession {α : Type} (h : Shares A e f i j) (answer : α → Answer)
    {step : Settings → Attempt Session α} {x : Attempt Session α} (hx : Session.StaysWithin A x)
    (he : step e.settings e.session = x e.session) (hf : step f.settings f.session = x f.session) :
    (Engine.onSession answer step e).1 = (Engine.onSession answer step f).1 ∧ ∃ i' j',
      Shares A (Engine.onSession answer step e).2 (Engine.onSession answer step f).2 i' j' ∧
        i.AgreeOn Aᶜ i' ∧ j.AgreeOn Aᶜ j' := by
  obtain ⟨hresult, i', j', hleft, hright, hagree, hi, hj⟩ := hx _ _ _ _ h.left h.right h.agree
  rw [Engine.onSession, Engine.onSession, he, hf]
  exact ⟨congrArg (·.map answer) hresult, i', j', ⟨h.settings, hleft, hright, hagree⟩, hi, hj⟩

/-- **A request on certain tables** has the same answer on both engines, and leaves the other tables alone. -/
theorem Shares.serve (h : Shares A e f i j) {r : Request} (hr : r.Within A) :
    (serve r e).1 = (serve r f).1 ∧ ∃ i' j', Shares A (serve r e).2 (serve r f).2 i' j' ∧
      i.AgreeOn Aᶜ i' ∧ j.AgreeOn Aᶜ j' := by
  have hready : ∀ {e : Engine} {i : Image}, e.session.Commits i → ready e.settings e.session = (.ok false, e.session) :=
    fun he => ready_of_live he.live _
  cases r with
  | run text =>
    cases hs : Statement.parse text with
    | ok s =>
      have hrun : ∀ {e : Engine} {i : Image}, e.session.Commits i →
          run e.settings text e.session = execute e.settings.matching s e.session := fun he => by
        rw [run_of_ready (hready he), hs]
      exact h.onSession _ (s.staysWithin_execute _ (hr s hs)) (hrun h.left) (h.settings ▸ hrun h.right)
    | error err =>
      have hrun : ∀ {e : Engine} {i : Image}, e.session.Commits i →
          run e.settings text e.session = (Attempt.fail err : Attempt Session _) e.session := fun he => by
        rw [run_of_ready (hready he), hs]
        rfl
      exact h.onSession _ (Session.staysWithin_fail err) (hrun h.left) (hrun h.right)
  | execute s => exact h.onSession _ (s.staysWithin_execute e.settings.matching hr) rfl (h.settings ▸ rfl)
  | rename source target =>
    have hrename : ∀ {e : Engine} {i : Image}, e.session.Commits i → rename e.settings source target e.session =
        (do let _ ← migrate [.rename source target]; pure () : Attempt Session Unit) e.session := fun he => by
      rw [rename, bind_apply, hready he]
    have hnames : ∀ name ∈ (Migration.rename source target).names, name ∈ A := by
      simpa [Migration.names, Request.Within] using hr
    exact h.onSession _ (staysWithin_migrate _ hnames ()) (hrename h.left) (hrename h.right)
  | _ => exact hr.elim

theorem settings_serve_of_within {r : Request} (hr : r.Within A) (e : Engine) :
    (serve r e).2.settings = e.settings := by
  cases r with
  | run | execute | rename => rfl
  | _ => exact hr.elim

/-- A request on other tables, of which the engine on the right knows nothing. -/
theorem Shares.serve_left (h : Shares A e f i j) (hAB : Disjoint A B) {r : Request} (hr : r.Within B) {i' : Image}
    (hi' : (Engine.serve r e).2.session.Commits i') (hi : i.AgreeOn Bᶜ i') : Shares A (Engine.serve r e).2 f i' j where
  settings := (settings_serve_of_within hr e).trans h.settings
  left := hi'
  right := h.right
  agree := (hi.mono hAB.subset_compl_right).symm.trans h.agree

/-! ## Runs of two kinds of requests -/

/-- What the requests of a run are answered. -/
def answers : List Request → Engine → List (Except Error Answer)
  | [], _ => []
  | r :: rs, e => (serve r e).1 :: answers rs (serve r e).2

/-- What the requests of a run are answered that is made of two: on the side that each of them is from. -/
def answersOfBoth : List (Request ⊕ Request) → Engine → List (Except Error Answer ⊕ Except Error Answer)
  | [], _ => []
  | .inl r :: steps, e => .inl (serve r e).1 :: answersOfBoth steps (serve r e).2
  | .inr r :: steps, e => .inr (serve r e).1 :: answersOfBoth steps (serve r e).2

/-- The requests of a run of two, in their order. -/
def both (steps : List (Request ⊕ Request)) : List Request := steps.map (Sum.elim id id)

/-- The requests from the left side. -/
def lefts (steps : List (Request ⊕ Request)) : List Request := steps.filterMap Sum.getLeft?

/-- The requests from the right side. -/
def rights (steps : List (Request ⊕ Request)) : List Request := steps.filterMap Sum.getRight?

/-- **Two runs in one.** The engine that serves both shares the tables of either side with the engine that serves this
side alone, and has the same answers for it; each request moves the two engines that know of it. -/
theorem Shares.run (hAB : Disjoint A B) : ∀ {steps : List (Request ⊕ Request)} {e f g : Engine} {i j k : Image},
    Shares A e f i j → Shares B e g i k → (∀ r, .inl r ∈ steps → r.Within A) → (∀ r, .inr r ∈ steps → r.Within B) →
    (answersOfBoth steps e).filterMap Sum.getLeft? = answers (lefts steps) f ∧
    (answersOfBoth steps e).filterMap Sum.getRight? = answers (rights steps) g ∧
    ∃ i' j' k', Shares A (after (both steps) e) (after (lefts steps) f) i' j' ∧
      Shares B (after (both steps) e) (after (rights steps) g) i' k' ∧ i.AgreeOn (A ∪ B)ᶜ i'
  | [], _, _, _, i, j, k, hf, hg, _, _ => ⟨rfl, rfl, i, j, k, hf, hg, .refl i⟩
  | .inl r :: steps, e, f, g, i, j, k, hf, hg, hA, hB => by
    have hr : r.Within A := hA r List.mem_cons_self
    obtain ⟨hanswer, i', j', hf', hi, -⟩ := hf.serve hr
    obtain ⟨hleft, hright, i'', j'', k'', hf'', hg'', hi'⟩ := Shares.run hAB hf' (hg.serve_left hAB.symm hr hf'.left hi)
      (fun r h => hA r (List.mem_cons_of_mem _ h)) fun r h => hB r (List.mem_cons_of_mem _ h)
    refine ⟨?_, hright, i'', j'', k'', hf'', hg'', .trans (hi.mono ?_) hi'⟩
    · exact congrArg₂ List.cons hanswer hleft
    · exact Set.compl_subset_compl.2 Set.subset_union_left
  | .inr r :: steps, e, f, g, i, j, k, hf, hg, hA, hB => by
    have hr : r.Within B := hB r List.mem_cons_self
    obtain ⟨hanswer, i', k', hg', hi, -⟩ := hg.serve hr
    obtain ⟨hleft, hright, i'', j'', k'', hf'', hg'', hi'⟩ := Shares.run hAB (hf.serve_left hAB hr hg'.left hi) hg'
      (fun r h => hA r (List.mem_cons_of_mem _ h)) fun r h => hB r (List.mem_cons_of_mem _ h)
    refine ⟨hleft, ?_, i'', j'', k'', hf'', hg'', .trans (hi.mono ?_) hi'⟩
    · exact congrArg₂ List.cons hanswer hright
    · exact Set.compl_subset_compl.2 Set.subset_union_right

/-- What is live after requests is what the store keeps. -/
theorem IsNew.commits_of_live (he : e.IsNew) {rs : List Request} (hi : (after rs e).session.live = some i)
    (hc : (after rs e).session.store.Steadfast) : (after rs e).session.Commits i := by
  have htracks : (after rs e).session.Tracks (fun _ => True) fun _ => True :=
    tracks_after trivial (fun _ _ => trivial) (fun _ _ _ _ _ _ => trivial) (fun _ _ _ _ _ => trivial)
      (fun r _ => leads_true r) (he.tracks fun _ _ => trivial)
  cases hs : (after rs e).session with
  | mk store live =>
    rw [hs] at htracks hi hc
    obtain rfl : live = some i := hi
    obtain ⟨hretains, hi, -⟩ := htracks.of_live
    exact ⟨rfl, hretains, hc, hi⟩

/-- **Tables do not interfere.** From every image that requests lead to, and if commits reach the medium: where
statements and renames that name only tables in `A` are served between others that name only tables in `B`, whatever
their order and whether or not they fail, each is answered as it is if its own side is served alone, and the tables in
`A` and the tables in `B` are in the end those of the run of that side alone. Other tables are what they were. -/
theorem tables_do_not_interfere (e : Engine) (he : e.IsNew) (rs : List Request) (i : Image)
    (hi : (after rs e).session.live = some i) (hc : (after rs e).session.store.Steadfast) (A B : Set String)
    (hAB : Disjoint A B) (steps : List (Request ⊕ Request)) (hA : ∀ r, .inl r ∈ steps → r.Within A)
    (hB : ∀ r, .inr r ∈ steps → r.Within B) :
    (answersOfBoth steps (after rs e)).filterMap Sum.getLeft? = answers (lefts steps) (after rs e) ∧
    (answersOfBoth steps (after rs e)).filterMap Sum.getRight? = answers (rights steps) (after rs e) ∧
    ∃ j a b, (after (both steps) (after rs e)).session.live = some j ∧
      (after (lefts steps) (after rs e)).session.live = some a ∧
      (after (rights steps) (after rs e)).session.live = some b ∧
      j.AgreeOn A a ∧ j.AgreeOn B b ∧ j.AgreeOn (A ∪ B)ᶜ i := by
  have hcommits := he.commits_of_live hi hc
  have hshares : ∀ A, Shares A (after rs e) (after rs e) i i := fun A => ⟨rfl, hcommits, hcommits, .refl i⟩
  obtain ⟨hleft, hright, j, a, b, ha, hb, hrest⟩ := Shares.run hAB (hshares A) (hshares B) hA hB
  exact ⟨hleft, hright, j, a, b, ha.left.live, ha.right.live, hb.right.live, ha.agree, hb.agree, hrest.symm⟩

/-- Three tables. -/
def founding : List Request :=
  [.openStore, .execute (.create ⟨"a", [⟨"id", .integer⟩]⟩), .execute (.create ⟨"b", [⟨"id", .integer⟩]⟩),
    .execute (.create ⟨"d", [⟨"id", .integer⟩]⟩)]

/-- A table gets records and another name, while another one is dropped and created again. The second insertion fails:
the table is no longer under that name. -/
def crossing : List (Request ⊕ Request) :=
  [.inl (.run "INSERT INTO a VALUES (7)"), .inr (.execute (.drop "b")), .inl (.rename "a" "c"),
    .inl (.execute (.insert "a" none [[.integer 8]])), .inr (.execute (.create ⟨"b", [⟨"k", .text⟩]⟩)),
    .inl (.execute (.insert "c" none [[.null]]))]

theorem crossing_runs_keep_apart : ∃ i j a b, (after founding (inMemory {} [])).session.live = some i ∧
    (after (both crossing) (after founding (inMemory {} []))).session.live = some j ∧
    (after (lefts crossing) (after founding (inMemory {} []))).session.live = some a ∧
    (after (rights crossing) (after founding (inMemory {} []))).session.live = some b ∧
    j.AgreeOn {"a", "c"} a ∧ j.AgreeOn {"b"} b ∧ j.AgreeOn ({"a", "c"} ∪ {"b"})ᶜ i ∧
    (answersOfBoth crossing (after founding (inMemory {} []))).filterMap Sum.getLeft? =
      answers (lefts crossing) (after founding (inMemory {} [])) := by
  have hlive : (after founding (inMemory {} [])).session.live.isSome := by decide +kernel
  obtain ⟨i, hi⟩ := Option.isSome_iff_exists.1 hlive
  have hsteadfast : (after founding (inMemory {} [])).session.store.Steadfast :=
    Store.steadfast_of_nil (by decide +kernel) (by decide +kernel)
  have hinsert : Statement.parse "INSERT INTO a VALUES (7)" = .ok (.insert "a" none [[.integer 7]]) :=
    Except.eq_ok_of_toOption (by decide +kernel)
  obtain ⟨hanswers, -, j, a, b, hj, ha, hb, hagree⟩ := tables_do_not_interfere _ (isNew_inMemory {} []) founding i hi
    hsteadfast {"a", "c"} {"b"} (by simp) crossing
    (by simp [crossing, Request.Within, Statement.target, hinsert])
    (by simp [crossing, Request.Within, Statement.target])
  exact ⟨i, j, a, b, hi, hj, ha, hb, hagree.1, hagree.2.1, hagree.2.2, hanswers⟩

end Engine

end TableStore
