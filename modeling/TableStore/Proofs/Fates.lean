import TableStore.Proofs.Attempt
import TableStore.Proofs.Journal
import TableStore.Work

/-!
# What becomes of containers

- a `Bond` says how the container of a name stands to the one from before a unit: how one that was kept may have
  changed, what is known of one that was created, and how close one that is brought back comes to the one from before;
- `Fate` tells what can have become of the container of a name since a unit has started: it was kept and perhaps
  changed under its journal, dropped, created, or dropped and created again;
- `Upgrade.Tracks b i v u` says that `u`, on the way to version `v`, came out of the image `i`, and that every name has
  a fate under its bond; the operations of upgrades keep it, and an upgrade that is undone brings every container back
  (`Upgrade.Tracks.find?_aborted`).
-/

namespace TableStore

namespace Container

theorem begin_of_ne_none {c : Container} (h : c.journal ≠ none) : c.begin = c := by
  obtain ⟨j, hj⟩ := Option.ne_none_iff_exists'.1 h
  simp [begin, hj]

@[simp] theorem journal_rollback (c : Container) : c.rollback.journal = none := by
  unfold rollback
  split
  · assumption
  · rfl

@[simp] theorem rollback_rollback (c : Container) : c.rollback.rollback = c.rollback :=
  rollback_of_none c.journal_rollback

end Container

/-! ## Look-ups in images -/

namespace Image

variable {i : Image}

theorem find?_set (hi : i.containers.Sorted fun _ => True) (name : String) (c : Container) (n : String) :
    (i.set name c).find? n = if n = name then some c else i.find? n :=
  hi.find?_insert trivial c trivial

theorem contains_eq_isSome (i : Image) (name : String) : i.contains name = (i.find? name).isSome :=
  OrderedMap.contains_eq_isSome _ _

/-- Images with the same versions, catalogs and containers are the same. -/
theorem ext_find? {j : Image} (hv : i.version = j.version) (hc : i.catalog = j.catalog)
    (hi : i.containers.Sorted fun _ => True) (hj : j.containers.Sorted fun _ => True)
    (h : ∀ name, i.find? name = j.find? name) : i = j := by
  obtain ⟨_, _, _⟩ := i
  obtain ⟨_, _, _⟩ := j
  obtain rfl : _ = _ := hv
  obtain rfl : _ = _ := hc
  obtain rfl := hi.ext hj fun name _ => h name
  rfl

theorem set_of_find? (hi : i.containers.Sorted fun _ => True) {table : String} {c : Container}
    (hc : i.find? table = some c) : i.set table c = i := by
  refine ext_find? rfl rfl (hi.insert trivial c) hi fun name => ?_
  rw [find?_set hi]
  split
  · rename_i h
    rw [h, hc]
  · rfl

theorem set_set (hi : i.containers.Sorted fun _ => True) (table : String) (c d : Container) :
    (i.set table c).set table d = i.set table d := by
  have hset := hi.insert (k := table) trivial c
  refine ext_find? rfl rfl (hset.insert trivial d) (hi.insert trivial d) fun name => ?_
  rw [find?_set hset, find?_set hi, find?_set hi]
  split <;> rfl

end Image

/-! ## Bonds and fates -/

/-- How the container of a name stands to the one from before a unit. -/
structure Bond where
  /-- The one from before and the one that it has become. -/
  kept : Container → Container → Prop
  /-- One that was created. -/
  fresh : Container → Prop
  /-- One that is brought back and the one from before. -/
  back : Container → Container → Prop

/-- New containers are known as such, and those that were kept can be brought back. -/
structure Bond.Lawful (name : String) (b : Bond) : Prop where
  new : ∀ keyPath autoIncrement, b.fresh { name, keyPath, autoIncrement }
  back_of_kept : ∀ {c d}, b.kept c d → b.back d.rollback c

/-- What has become of the container of a name: the one from before, whether one was created, the one that was
dropped, and the one that is there now. -/
inductive Fate (b : Bond) : Option Container → Bool → Option Container → Option Container → Prop
  | absent : Fate b none false none none
  | kept {c d : Container} (h : b.kept c d) : Fate b (some c) false none (some d)
  | created {d : Container} (hd : b.fresh d) : Fate b none true none (some d)
  | dropped {c d : Container} (hd : b.back d.rollback c) : Fate b (some c) false (some d) none
  | replaced {c d e : Container} (hd : b.back d.rollback c) (he : b.fresh e) : Fate b (some c) true (some d) (some e)

namespace Fate

variable {b b' : Bond} {name : String} {before dropped now : Option Container} {created : Bool}

/-- A fate under one bond is one under another, if what is there now stands so too. -/
theorem imp (h : Fate b before created dropped now)
    (hkept : ∀ {c d}, created = false → now = some d → b.kept c d → b'.kept c d)
    (hfresh : ∀ {d}, now = some d → b.fresh d → b'.fresh d) (hback : ∀ {c d}, b.back d c → b'.back d c) :
    Fate b' before created dropped now := by
  cases h with
  | absent => exact .absent
  | kept h => exact .kept (hkept rfl rfl h)
  | created hd => exact .created (hfresh rfl hd)
  | dropped hd => exact .dropped (hback hd)
  | replaced hd he => exact .replaced (hback hd) (hfresh rfl he)

theorem edit {c d : Container} (h : Fate b before created dropped (some c))
    (hkept : ∀ {a}, created = false → b.kept a c → b'.kept a d) (hfresh : created = true → b.fresh c → b'.fresh d)
    (hback : ∀ {c d}, b.back d c → b'.back d c) : Fate b' before created dropped (some d) := by
  cases h with
  | kept h => exact .kept (hkept rfl h)
  | created hc => exact .created (hfresh rfl hc)
  | replaced hb hc => exact .replaced (hback hb) (hfresh rfl hc)

theorem create {c : Container} (h : Fate b before created dropped none) (hc : b.fresh c) :
    Fate b before true dropped (some c) := by
  cases h with
  | absent => exact .created hc
  | dropped hd => exact .replaced hd hc

theorem delete_created {c : Container} (h : Fate b before true dropped (some c)) :
    Fate b before false dropped none := by
  cases h with
  | created _ => exact .absent
  | replaced hd _ => exact .dropped hd

theorem delete_kept {c : Container} (hb : b.Lawful name) (h : Fate b before false dropped (some c)) :
    Fate b before false (some c) none := by
  cases h with
  | kept h => exact .dropped (hb.back_of_kept h)

/-- Taking back what was created and bringing back what was dropped restores the container. -/
theorem restore (hb : b.Lawful name) (h : Fate b before created dropped now) :
    Option.Rel b.back (((dropped.map Container.rollback).or (if created then none else now)).map Container.rollback)
      before := by
  cases h with
  | absent => exact .none
  | kept h => exact .some (hb.back_of_kept h)
  | created _ => exact .none
  | dropped hd => exact .some (by rwa [Container.rollback_rollback])
  | replaced hd _ => exact .some (by rwa [Container.rollback_rollback])

theorem exists_of_created (h : Fate b before true dropped now) : ∃ c, now = some c := by
  cases h with
  | created _ => exact ⟨_, rfl⟩
  | replaced _ _ => exact ⟨_, rfl⟩

end Fate

/-! ## Upgrades at work -/

namespace Upgrade

/-- An upgrade that came out of an image, with the fates of all containers. -/
structure Tracks (b : String → Bond) (i : Image) (v : Nat) (u : Upgrade) : Prop where
  version : u.image.version = v
  priorVersion : u.priorVersion = i.version
  priorCatalog : u.priorCatalog = i.catalog
  sorted : u.image.containers.Sorted fun _ => True
  created_sorted : u.created.Sorted fun _ => True
  dropped_sorted : u.dropped.Sorted fun _ => True
  fate : ∀ name, Fate (b name) (i.find? name) (u.created.contains name) (u.dropped.find? name) (u.image.find? name)

variable {b b' : String → Bond} {i : Image} {v : Nat} {u : Upgrade} {α : Type}

theorem Tracks.start (hi : i.containers.Sorted fun _ => True)
    (h : ∀ {name : String} {c : Container}, i.find? name = some c → (b name).kept c c) (v : Nat) :
    Tracks b i v (start i v) := by
  refine ⟨rfl, rfl, rfl, hi, OrderedMap.sorted_empty, OrderedMap.sorted_empty, fun name => ?_⟩
  show Fate (b name) (i.find? name) false none (i.find? name)
  cases hc : i.find? name with
  | none => exact .absent
  | some c => exact .kept (h hc)

/-! ### Operations -/

/-- Work on a container changes how that one stands, and no other. -/
theorem Tracks.edit (hu : Tracks b i v u) {name : String} {f : Attempt Container α}
    (hother : ∀ n, n ≠ name → b' n = b n) (hback : ∀ {c d}, (b name).back d c → (b' name).back d c)
    (hkept : ∀ {a c}, u.image.find? name = some c → u.created.contains name = false → (b name).kept a c →
      (b' name).kept a (f c.begin).2)
    (hfresh : ∀ {c}, u.image.find? name = some c → u.created.contains name = true → (b name).fresh c →
      (b' name).fresh (f c).2) :
    Tracks b' i v (edit name f u).2 := by
  simp only [Upgrade.edit, Image.edit]
  cases hc : u.image.find? name with
  | none =>
    refine { hu with fate := fun n => ?_ }
    have hn := hu.fate n
    by_cases he : n = name
    · subst he
      rw [hc] at hn ⊢
      exact hn.imp (fun _ h => by cases h) (fun h => by cases h) hback
    · rwa [hother n he]
  | some c =>
    refine { hu with sorted := hu.sorted.insert trivial _, fate := fun n => ?_ }
    have hn := hu.fate n
    change Fate _ _ _ _ ((u.image.set name _).find? n)
    rw [Image.find?_set hu.sorted]
    by_cases he : n = name
    · subst he
      rw [hc] at hn
      rw [if_pos rfl]
      refine hn.edit (fun hcr h => ?_) (fun hcr h => ?_) hback
      · rw [show u.ready n = Container.begin by simp [ready, hcr]]
        exact hkept hc hcr h
      · rw [show u.ready n = id by simp [ready, hcr]]
        exact hfresh hc hcr h
    · rw [if_neg he, hother n he]
      exact hn

theorem Tracks.editCatalog (hu : Tracks b i v u) (f : Catalog → Catalog) : Tracks b i v (editCatalog f u).2 :=
  { hu with }

/-- A new container is known as created. -/
theorem meets_create {name : String} (hb : (b name).Lawful name) (keyPath : String) (autoIncrement : Bool) :
    Attempt.Meets (Tracks b i v) (create name keyPath autoIncrement)
      (fun _ u => Tracks b i v u ∧ u.created.contains name) (Tracks b i v) := by
  intro u hu
  unfold create
  split
  · rename_i he
    split at he
    · cases he
    · rename_i hc
      cases he
      have hnone : u.image.find? name = none := by simpa [Image.contains_eq_isSome] using hc
      have hcreated : ∀ n, (u.created.insert name ()).contains n = (n = name || u.created.contains n) := fun n => by
        rw [OrderedMap.contains_eq_isSome, hu.created_sorted.find?_insert trivial () trivial,
          OrderedMap.contains_eq_isSome]
        split <;> simp [*]
      refine ⟨{ hu with
        sorted := hu.sorted.insert trivial _
        created_sorted := hu.created_sorted.insert trivial _
        fate := fun n => ?_ }, by simp [hcreated]⟩
      have hn := hu.fate n
      change Fate _ _ ((u.created.insert name ()).contains n) _ ((u.image.set name _).find? n)
      rw [Image.find?_set hu.sorted, hcreated]
      by_cases he : n = name
      · subst he
        rw [hnone] at hn
        simp only [if_pos, decide_true, Bool.true_or]
        exact hn.create (hb.new keyPath autoIncrement)
      · simpa [he] using hn
  · rename_i he
    split at he
    · cases he
      exact hu
    · cases he

theorem Tracks.delete {name : String} (hb : (b name).Lawful name) (hu : Tracks b i v u) :
    Tracks b i v (Upgrade.delete name u).2 := by
  unfold Upgrade.delete
  have hwithout : ∀ n, (u.without name).image.find? n = if n = name then none else u.image.find? n := fun n =>
    hu.sorted.find?_erase trivial trivial
  split
  · exact hu
  · rename_i c hc
    split
    · rename_i hcr
      have hcreated : ∀ n, (u.created.erase name).contains n = (n ≠ name && u.created.contains n) := fun n => by
        rw [OrderedMap.contains_eq_isSome, hu.created_sorted.find?_erase trivial trivial,
          OrderedMap.contains_eq_isSome]
        split <;> simp [*]
      refine { hu with
        sorted := hu.sorted.erase trivial
        created_sorted := hu.created_sorted.erase trivial
        fate := fun n => ?_ }
      have hn := hu.fate n
      change Fate _ _ ((u.created.erase name).contains n) (u.dropped.find? n) ((u.without name).image.find? n)
      rw [hwithout, hcreated]
      by_cases he : n = name
      · subst he
        rw [hc, hcr] at hn
        simpa using hn.delete_created
      · simpa [he] using hn
    · rename_i hcr
      refine { hu with
        sorted := hu.sorted.erase trivial
        dropped_sorted := hu.dropped_sorted.insert trivial _
        fate := fun n => ?_ }
      have hn := hu.fate n
      change Fate _ _ (u.created.contains n) ((u.dropped.insert name c).find? n) ((u.without name).image.find? n)
      rw [hwithout, hu.dropped_sorted.find?_insert trivial c trivial]
      by_cases he : n = name
      · subst he
        rw [hc] at hn
        simp only [if_pos]
        rw [Bool.eq_false_iff.2 hcr] at hn ⊢
        exact hn.delete_kept hb
      · simpa [he] using hn

theorem keeps_create {name : String} (hb : (b name).Lawful name) (keyPath : String) (autoIncrement : Bool) :
    Attempt.Keeps (Tracks b i v) (create name keyPath autoIncrement) := fun _ hu =>
  ((meets_create hb keyPath autoIncrement).imp (fun _ hu => hu) (fun _ _ hu => hu.1) fun _ hu => hu).keeps hu

/-! ### The ends of upgrades -/

theorem containers_aborted (u : Upgrade) : u.aborted.containers =
    ((u.dropped.mapValues Container.rollback).entries.foldl (fun m e => m.insert e.1 e.2)
      (u.created.keys.foldl .erase u.image.containers)).mapValues Container.rollback := by
  simp only [aborted, OrderedMap.mapValues, List.foldl_map]

theorem Tracks.sorted_erased (hu : Tracks b i v u) :
    (u.created.keys.foldl .erase u.image.containers).Sorted fun _ => True :=
  hu.sorted.foldl_erase fun _ _ => trivial

theorem Tracks.sorted_aborted (hu : Tracks b i v u) : u.aborted.containers.Sorted fun _ => True := by
  rw [containers_aborted]
  exact (hu.sorted_erased.foldl_insert (hu.dropped_sorted.mapValues Container.rollback).2).mapValues _

/-- **An upgrade that is undone brings every container back**, and leaves no other. -/
theorem Tracks.find?_aborted (hb : ∀ name, (b name).Lawful name) (hu : Tracks b i v u) (name : String) :
    Option.Rel (b name).back (u.aborted.find? name) (i.find? name) := by
  rw [Image.find?, containers_aborted, OrderedMap.find?_mapValues,
    hu.sorted_erased.find?_foldl_entries (hu.dropped_sorted.mapValues Container.rollback) trivial,
    OrderedMap.find?_mapValues, hu.sorted.find?_foldl_erase_keys hu.created_sorted trivial]
  exact (hu.fate name).restore (hb name)

theorem find?_finished (u : Upgrade) (name : String) :
    u.finished.find? name = (u.image.find? name).map Container.commit :=
  OrderedMap.find?_mapValues _ _ _

end Upgrade

/-! ## Transactions as upgrades -/

/-- A transaction at work, as an upgrade that has created and dropped nothing. -/
def Transaction.asUpgrade (i j : Image) : Upgrade :=
  { image := j, priorVersion := i.version, priorCatalog := i.catalog }

/-- An image that came out of another one by the operations of a transaction. -/
structure Transaction.Tracks (b : String → Bond) (i j : Image) : Prop where
  catalog : j.catalog = i.catalog
  upgrade : Upgrade.Tracks b i i.version (asUpgrade i j)

namespace Transaction

variable {b b' : String → Bond} {i j : Image} {α : Type}

theorem aborted_eq (hj : Tracks b i j) : aborted j = (asUpgrade i j).aborted :=
  congrArg₂ (fun v c => (⟨v, c, _⟩ : Image)) hj.upgrade.version hj.catalog

theorem catalog_edit (name : String) (f : Attempt Container α) (j : Image) : (edit name f j).2.catalog = j.catalog := by
  simp only [edit, Image.edit]
  cases j.find? name <;> rfl

theorem Tracks.edit (hj : Tracks b i j) {name : String} {f : Attempt Container α}
    (hother : ∀ n, n ≠ name → b' n = b n) (hback : ∀ {c d}, (b name).back d c → (b' name).back d c)
    (hkept : ∀ {a c}, j.find? name = some c → (b name).kept a c → (b' name).kept a (f c.begin).2) :
    Tracks b' i (edit name f j).2 :=
  ⟨(catalog_edit name f j).trans hj.catalog,
    hj.upgrade.edit hother hback (fun hc _ h => hkept hc h) fun _ hcr => by cases hcr⟩

end Transaction

end TableStore
