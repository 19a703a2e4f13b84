import TableStore.Proofs.Fates

/-!
# Units of work

- an image is `Sound` when no unit is at work on it: containers stand under their own names, in order, and their
  journals are closed;
- `Upgrade.Since i v h u` says that `u`, on the way to version `v`, came out of the image `i` by operations with the
  history `h`: all containers have their fates under the bond `Bond.exact`, by which the keys that were touched are
  known and what is brought back is the same as before;
- from it follow the two ends of a unit: `aborted` gives back the image (`Upgrade.Since.aborted_eq`), and the change
  set made to the image gives what is kept (`Upgrade.Since.apply_changeSet`) and names what was touched
  (`Upgrade.Since.mem_updated`).
-/

namespace TableStore

/-! ## Sound images -/

/-- A container that no unit is at work on. -/
structure Container.Settled (name : String) (c : Container) : Prop where
  name_eq : c.name = name
  ordered : c.Ordered
  closed : c.journal = none

/-- An image that no unit is at work on. -/
structure Image.Sound (i : Image) : Prop where
  sorted : i.containers.Sorted fun _ => True
  settled : ∀ {name : String} {c : Container}, i.find? name = some c → c.Settled name

/-- What a unit has done so far: the keys that it has touched by container, the newest first, and the names under
which there was no container at some time. -/
structure History where
  touched : String → List Key := fun _ => []
  missing : String → Prop := fun _ => False

/-- The history with keys touched in a container. -/
def History.touch (h : History) (name : String) (ks : List Key) : History :=
  { h with touched := fun n => if n = name then ks ++ h.touched n else h.touched n }

/-- The history with the names missing in an image. -/
def History.pause (h : History) (i : Image) : History :=
  { h with missing := fun name => h.missing name ∨ i.find? name = none }

namespace Container

/-- A container that was there when the unit started: it is as it was, or was changed since its journal was opened. -/
def Since (c : Container) (ks : List Key) (d : Container) : Prop := d = c ∧ ks = [] ∨ c.begin.Edited ks d

variable {name : String} {c d : Container} {ks : List Key}

theorem Since.rollback_eq (hc : c.Settled name) (h : c.Since ks d) : d.rollback = c := by
  rcases h with ⟨rfl, -⟩ | h
  · exact rollback_of_none hc.closed
  · exact h.rollback_begin hc.ordered hc.closed

theorem Since.name_eq (hc : c.Settled name) (h : c.Since ks d) : d.name = name := by
  rcases h with ⟨rfl, -⟩ | h
  · exact hc.name_eq
  · rw [h.shape_eq.1, begin_name, hc.name_eq]

theorem Since.keyPath_eq (h : c.Since ks d) : d.keyPath = c.keyPath := by
  rcases h with ⟨rfl, -⟩ | h
  · rfl
  · rw [h.shape_eq.2.1, begin_keyPath]

theorem Since.autoIncrement_eq (h : c.Since ks d) : d.autoIncrement = c.autoIncrement := by
  rcases h with ⟨rfl, -⟩ | h
  · rfl
  · rw [h.shape_eq.2.2, begin_autoIncrement]

/-- Work on a container opens its journal first. -/
theorem Since.edit (hc : c.Settled name) (h : c.Since ks d) {ks' : List Key} {e : Container}
    (he : d.begin.Edited ks' e) : c.Since (ks' ++ ks) e := by
  rcases h with ⟨rfl, rfl⟩ | h
  · rw [List.append_nil]
    exact .inr he
  · rw [begin_of_ne_none (h.journal_ne_none (by simp [begin_of_none hc.closed]))] at he
    exact .inr (h.trans he)

/-- What the journal tells: nothing of a container that is as it was, and exactly the changes of the others. -/
theorem Since.changes (hc : c.Settled name) (h : c.Since ks d) :
    (d.changes? = none ∧ d = c ∧ ks = []) ∨ ∃ changes, d.changes? = some changes ∧ changes.name = name ∧
      changes.Exact ks ∧ c.apply changes = d.commit := by
  rcases h with ⟨rfl, rfl⟩ | h
  · exact .inl ⟨changes?_of_none hc.closed, rfl, rfl⟩
  · obtain ⟨changes, hch, hname, hex⟩ := h.exact hc.ordered hc.closed
    exact .inr ⟨changes, hch, hname.trans hc.name_eq, hex, h.apply_changes hc.ordered hc.closed hch⟩

/-- A container that was touched nowhere is kept as it was. -/
theorem Since.commit_of_nil (hc : c.Settled name) (h : c.Since [] d) : d.commit = c := by
  rcases h with ⟨rfl, -⟩ | h
  · exact commit_of_none hc.closed
  · cases h
    rw [begin_of_none hc.closed, commit, ← hc.closed]

theorem Settled.edit (hc : c.Settled name) (h : c.Edited ks d) : d.Settled name :=
  ⟨h.shape_eq.1.trans hc.name_eq, h.ordered hc.ordered, h.journal_none hc.closed⟩

end Container

/-! ## Fates -/

/-- The bond of a container whose changes are known: the keys that were touched, and that one that was kept was never
missing. -/
def Bond.exact (name : String) (ks : List Key) (missing : Prop) : Bond where
  kept c d := c.Settled name ∧ c.Since ks d ∧ ¬missing
  fresh := Container.Settled name
  back := Eq

theorem Bond.exact_lawful (name : String) (ks : List Key) (missing : Prop) :
    (Bond.exact name ks missing).Lawful name where
  new _ _ := ⟨rfl, OrderedMap.sorted_empty, rfl⟩
  back_of_kept h := h.2.1.rollback_eq h.1

namespace Fate

variable {name : String} {ks : List Key} {missing : Prop} {before dropped now : Option Container} {created : Bool}

theorem pause (h : Fate (.exact name ks missing) before created dropped now) :
    Fate (.exact name ks (missing ∨ now = none)) before created dropped now :=
  h.imp (fun _ hnow ⟨hc, h, hm⟩ => ⟨hc, h, by simpa [hnow] using hm⟩) (fun _ hd => hd) id

/-- A container stands under its own name. -/
theorem name_eq {c : Container} (h : Fate (.exact name ks missing) before created dropped (some c)) :
    c.name = name := by
  cases h with
  | kept h => exact h.2.1.name_eq h.1
  | created hd => exact hd.name_eq
  | replaced _ he => exact he.name_eq

/-- The containers that are kept are settled. -/
theorem settled_commit {c : Container} (h : Fate (.exact name ks missing) before created dropped (some c)) :
    c.commit.Settled name := by
  refine ⟨h.name_eq, ?_, rfl⟩
  cases h with
  | kept h =>
    obtain ⟨hc, h, -⟩ := h
    rcases h with ⟨rfl, -⟩ | h
    · exact hc.ordered
    · have := h.ordered (Container.ordered_begin.2 hc.ordered)
      exact this
  | created hd => exact hd.ordered
  | replaced _ he => exact he.ordered

/-- Only a container from before tells of changes. -/
theorem of_changes? {c : Container} {changes : Changes}
    (h : Fate (.exact name ks missing) before created dropped (some c))
    (hch : c.changes? = some changes) : created = false ∧ dropped = none ∧ ¬missing ∧ changes.name = name ∧
      changes.Exact ks ∧ ∃ b, before = some b ∧ b.apply changes = c.commit := by
  cases h with
  | kept h =>
    obtain ⟨hc, h, hm⟩ := h
    rcases h.changes hc with ⟨hn, -⟩ | ⟨changes', hch', hname, hex, happ⟩
    · rw [hn] at hch
      cases hch
    · rw [hch'] at hch
      cases hch
      exact ⟨rfl, rfl, hm, hname, hex, _, rfl, happ⟩
  | created hd =>
    rw [Container.changes?_of_none hd.closed] at hch
    cases hch
  | replaced _ he =>
    rw [Container.changes?_of_none he.closed] at hch
    cases hch

/-- The container from before, unless it was dropped; and the one that was created. -/
def redone (before : Option Container) (created : Bool) (dropped now : Option Container) : Option Container :=
  if created then now else if dropped.isSome then none else before

/-- Making the changes to the container from before gives the container that is kept. -/
theorem redo_changes {c : Container} (h : Fate (.exact name ks missing) before created dropped (some c))
    {changes : Changes}
    (hch : c.changes? = some changes) :
    (redone before created dropped (some c)).map (·.apply changes) = some c.commit := by
  obtain ⟨rfl, rfl, -, -, -, b, rfl, happ⟩ := h.of_changes? hch
  exact congrArg some happ

/-- Where there are no changes the container from before, or the new one, is the container that is kept. -/
theorem redo_nothing (h : Fate (.exact name ks missing) before created dropped now)
    (hn : ∀ c changes, now = some c → c.changes? = some changes → changes.isEmpty) :
    redone before created dropped now = now.map Container.commit := by
  cases h with
  | absent => rfl
  | kept h =>
    obtain ⟨hc, h, -⟩ := h
    rcases h.changes hc with ⟨-, rfl, -⟩ | ⟨changes, hch, -, hex, -⟩
    · exact congrArg some (Container.commit_of_none hc.closed).symm
    · obtain rfl := hex.isEmpty_iff.1 (hn _ changes rfl hch)
      exact congrArg some (h.commit_of_nil hc).symm
  | created hd => exact congrArg some (Container.commit_of_none hd.closed).symm
  | dropped _ => rfl
  | replaced _ he => exact congrArg some (Container.commit_of_none he.closed).symm

end Fate

/-! ## Changes of images -/

namespace Image

variable {i : Image}

/-! ### Containers set and changed one after another -/

theorem foldl_set (cs : List Container) (i : Image) : cs.foldl (fun i c => i.set c.name c) i =
    { i with containers := (cs.map fun c => (c.name, c)).foldl (fun m e => m.insert e.1 e.2) i.containers } := by
  induction cs generalizing i with
  | nil => rfl
  | cons c cs ih => exact ih _

@[simp] theorem version_update (i : Image) (changes : Changes) : (i.update changes).version = i.version := by
  unfold update
  split <;> rfl

@[simp] theorem catalog_update (i : Image) (changes : Changes) : (i.update changes).catalog = i.catalog := by
  unfold update
  split <;> rfl

theorem sorted_update (hi : i.containers.Sorted fun _ => True) (changes : Changes) :
    (i.update changes).containers.Sorted fun _ => True := by
  unfold update
  split
  · exact hi.insert trivial _
  · exact hi

theorem find?_update (hi : i.containers.Sorted fun _ => True) (changes : Changes) (name : String) :
    (i.update changes).find? name =
      if name = changes.name then (i.find? name).map (·.apply changes) else i.find? name := by
  unfold update
  split
  · rename_i c hc
    rw [find?_set hi]
    split
    · rename_i h
      rw [h, hc, Option.map_some]
    · rfl
  · rename_i hc
    split
    · rename_i h
      rw [h, hc, Option.map_none]
    · rfl

theorem version_foldl_update (l : List Changes) (i : Image) : (l.foldl update i).version = i.version := by
  induction l generalizing i with
  | nil => rfl
  | cons changes l ih => rw [List.foldl_cons, ih, version_update]

theorem catalog_foldl_update (l : List Changes) (i : Image) : (l.foldl update i).catalog = i.catalog := by
  induction l generalizing i with
  | nil => rfl
  | cons changes l ih => rw [List.foldl_cons, ih, catalog_update]

theorem sorted_foldl_update (hi : i.containers.Sorted fun _ => True) (l : List Changes) :
    (l.foldl update i).containers.Sorted fun _ => True := by
  induction l generalizing i with
  | nil => exact hi
  | cons changes l ih => exact ih (sorted_update hi changes)

theorem find?_foldl_update_of_notMem (hi : i.containers.Sorted fun _ => True) {l : List Changes} {name : String}
    (h : name ∉ l.map Changes.name) : (l.foldl update i).find? name = i.find? name := by
  induction l generalizing i with
  | nil => rfl
  | cons changes l ih =>
    rw [List.map_cons, List.mem_cons, not_or] at h
    rw [List.foldl_cons, ih (sorted_update hi changes) h.2, find?_update hi, if_neg h.1]

theorem find?_foldl_update_of_mem (hi : i.containers.Sorted fun _ => True) {l : List Changes}
    (hl : (l.map Changes.name).Nodup) {changes : Changes} (h : changes ∈ l) :
    (l.foldl update i).find? changes.name = (i.find? changes.name).map (·.apply changes) := by
  induction l generalizing i with
  | nil => cases h
  | cons first l ih =>
    rw [List.map_cons, List.nodup_cons] at hl
    rw [List.foldl_cons]
    rcases List.mem_cons.1 h with rfl | h
    · rw [find?_foldl_update_of_notMem (sorted_update hi _) hl.1, find?_update hi, if_pos rfl]
    · have hne : changes.name ≠ first.name := fun he => hl.1 (he ▸ List.mem_map_of_mem h)
      rw [ih (sorted_update hi _) hl.2 h, find?_update hi, if_neg hne]

/-! ### Change sets -/

theorem sorted_renewed (hi : i.containers.Sorted fun _ => True) (changes : ChangeSet) :
    (i.renewed changes).containers.Sorted fun _ => True := by
  rw [Image.renewed, Image.foldl_set]
  exact (hi.foldl_erase fun _ _ => trivial).foldl_insert fun _ _ => trivial

theorem version_applied (i : Image) (changes : ChangeSet) : (i.applied changes).version = changes.version := by
  rw [applied, version_foldl_update, renewed, foldl_set]

theorem catalog_applied (i : Image) (changes : ChangeSet) :
    (i.applied changes).catalog = changes.catalog.getD i.catalog := by
  rw [applied, catalog_foldl_update, renewed, foldl_set]

theorem missing?_eq_none {l : List Changes} (h : ∀ changes ∈ l, (i.find? changes.name).isSome) :
    i.missing? l = none := by
  simp only [missing?, Option.map_eq_none_iff, List.find?_eq_none, contains_eq_isSome]
  intro changes hc
  simp [h changes hc]

end Image

/-! ## Upgrades at work -/

namespace Upgrade

/-- An upgrade that came out of an image by operations with some history. -/
abbrev Since (i : Image) (v : Nat) (h : History) (u : Upgrade) : Prop :=
  Tracks (fun name => .exact name (h.touched name) (h.missing name)) i v u

variable {i : Image} {v : Nat} {h : History} {u : Upgrade} {α : Type}

theorem Since.start (hi : i.Sound) (v : Nat) : Since i v {} (start i v) :=
  Tracks.start hi.sorted (fun hc => And.intro (hi.settled hc) ⟨.inl ⟨rfl, rfl⟩, id⟩) v

theorem Since.pause (hu : Since i v h u) : Since i v (h.pause u.image) u :=
  { hu with fate := fun name => (hu.fate name).pause }

/-- Work on a container touches the keys of its changes. -/
theorem Since.edit (hu : Since i v h u) {name : String} {f : Attempt Container α} {ks : List Key}
    (hf : ∀ c, u.image.find? name = some c → (u.ready name c).Edited ks (f (u.ready name c)).2) :
    Since i v (h.touch name ks) (edit name f u).2 := by
  refine Tracks.edit hu (fun n hn => by simp [History.touch, hn]) (fun h => h) (fun {a c} hc hcr hk => ?_)
    fun {c} hc hcr hs => ?_
  · have he := hf c hc
    rw [show u.ready name = Container.begin by simp [ready, hcr]] at he
    refine ⟨hk.1, ?_, hk.2.2⟩
    simpa [History.touch] using hk.2.1.edit hk.1 he
  · have he := hf c hc
    rw [show u.ready name = id by simp [ready, hcr]] at he
    exact Container.Settled.edit hs he

/-! ### The ends of upgrades -/

/-- **An upgrade that is undone leaves the image as it was.** -/
theorem Since.aborted_eq (hi : i.Sound) (hu : Since i v h u) : u.aborted = i := by
  refine Image.ext_find? hu.priorVersion hu.priorCatalog hu.sorted_aborted hi.sorted fun name => ?_
  have hrel := hu.find?_aborted (fun _ => Bond.exact_lawful _ _ _) name
  generalize u.aborted.find? name = now, i.find? name = before at hrel ⊢
  cases hrel with
  | none => rfl
  | some h => exact congrArg some h

/-- An upgrade that is kept leaves a sound image. -/
theorem Since.finished_sound (hu : Since i v h u) : u.finished.Sound := by
  refine ⟨hu.sorted.mapValues _, fun {name c} hc => ?_⟩
  rw [find?_finished] at hc
  obtain ⟨d, hd, rfl⟩ := Option.map_eq_some_iff.1 hc
  have := hu.fate name
  rw [hd] at this
  exact this.settled_commit

/-- What the journals tell is told by the containers that tell of changes. -/
theorem Since.mem_journaled (hu : Since i v h u) {changes : Changes} : changes ∈ u.image.journaled ↔
    ∃ c, u.image.find? changes.name = some c ∧ c.changes? = some changes ∧ changes.isEmpty = false := by
  simp only [Image.journaled, List.mem_filter, List.mem_filterMap, hu.sorted.mem_values, Bool.not_eq_true']
  constructor
  · rintro ⟨⟨c, ⟨name, -, hc⟩, hch⟩, he⟩
    have := hu.fate name
    rw [show u.image.find? name = some c from hc] at this
    obtain ⟨-, -, -, rfl, -⟩ := this.of_changes? hch
    exact ⟨c, hc, hch, he⟩
  · rintro ⟨c, hc, hch, he⟩
    exact ⟨⟨c, ⟨changes.name, trivial, hc⟩, hch⟩, he⟩

/-- **The entries of a change set are exact.** A container that is changed was there before, was never missing, and is
neither dropped nor created; the keys are those that were touched. -/
theorem Since.mem_updated (hu : Since i v h u) {changes : Changes} (hc : changes ∈ u.changeSet.updated) :
    (i.find? changes.name).isSome ∧ (u.image.find? changes.name).isSome ∧ ¬h.missing changes.name ∧
      changes.name ∉ u.changeSet.dropped ∧ changes.name ∉ u.created.keys ∧
      changes.Exact (h.touched changes.name) := by
  obtain ⟨c, hc, hch, -⟩ := hu.mem_journaled.1 hc
  have hf := hu.fate changes.name
  rw [hc] at hf
  obtain ⟨hcr, hdr, hm, -, hex, b, hb, -⟩ := hf.of_changes? hch
  refine ⟨by simp [hb], by simp [hc], hm, ?_, ?_, hex⟩
  · intro h'
    obtain ⟨d, hd⟩ := (hu.dropped_sorted.mem_keys trivial).1 h'
    rw [hdr] at hd
    cases hd
  · intro h'
    rw [hu.created_sorted.mem_keys_iff_contains trivial, hcr] at h'
    cases h'

/-- No container is changed twice. -/
theorem Since.nodup_updated (hu : Since i v h u) : (u.changeSet.updated.map Changes.name).Nodup := by
  have hname : ∀ e ∈ u.image.containers.entries, ∀ changes, e.2.changes? = some changes → changes.name = e.1 := by
    intro e he changes hch
    have hf := hu.fate e.1
    rw [show u.image.find? e.1 = some e.2 from (hu.sorted.find?_eq_some trivial).2 he] at hf
    obtain ⟨-, -, -, hn, -⟩ := hf.of_changes? hch
    exact hn
  refine List.pairwise_map.2 (List.Pairwise.filter _ (List.pairwise_filterMap.2 (List.pairwise_map.2 ?_)))
  refine hu.sorted.1.imp_of_mem fun {e f} he hf hlt changes hc changes' hc' => ?_
  rw [hname e he changes hc, hname f hf changes' hc']
  exact OrderedMap.ne_of_lt (P := fun _ => True) trivial hlt

/-- The containers that were created are there. -/
theorem Since.find?_of_created (hu : Since i v h u) {name : String} (hc : u.created.contains name) :
    ∃ c, u.image.find? name = some c ∧ c.name = name := by
  have hf := hu.fate name
  rw [hc] at hf
  obtain ⟨c, hnow⟩ := hf.exists_of_created
  rw [hnow] at hf
  exact ⟨c, hnow, hf.name_eq⟩

theorem Since.names_created (hu : Since i v h u) : u.changeSet.created.map Container.name = u.created.keys := by
  have hks : ∀ ks : List String, (∀ k ∈ ks, u.created.contains k) →
      (ks.filterMap u.image.find?).map Container.name = ks := by
    intro ks
    induction ks with
    | nil => exact fun _ => rfl
    | cons k ks ih =>
      intro hk
      obtain ⟨hk, hks⟩ := List.forall_mem_cons.1 hk
      obtain ⟨c, hc, hn⟩ := hu.find?_of_created hk
      rw [List.filterMap_cons, hc, List.map_cons, ih hks, hn]
  exact hks _ fun k hk => (hu.created_sorted.mem_keys_iff_contains trivial).1 hk

theorem Since.ordered_created (hu : Since i v h u) {c : Container} (hc : c ∈ u.changeSet.created) : c.Ordered := by
  obtain ⟨name, hname, hnow⟩ := List.mem_filterMap.1 hc
  have hf := hu.fate name
  rw [hnow] at hf
  exact hf.settled_commit.ordered

/-- The image with what was dropped taken out and what was created put in. -/
theorem Since.find?_renewed (hi : i.Sound) (hu : Since i v h u) (name : String) :
    (i.renewed u.changeSet).find? name =
      Fate.redone (i.find? name) (u.created.contains name) (u.dropped.find? name) (u.image.find? name) := by
  have herased : (u.changeSet.dropped.foldl OrderedMap.erase i.containers).Sorted fun _ => True :=
    hi.sorted.foldl_erase fun _ _ => trivial
  have hnames : (u.changeSet.created.map fun c => (c.name, c)).map Prod.fst = u.created.keys := by
    rw [List.map_map, ← hu.names_created]
    rfl
  have hkeys := hu.created_sorted.mem_keys_iff_contains (k := name) trivial
  rw [Image.renewed, Image.foldl_set, Fate.redone]
  cases hcr : u.created.contains name with
  | true =>
    obtain ⟨c, hc, hn⟩ := hu.find?_of_created hcr
    have hmem : (name, c) ∈ u.changeSet.created.map fun c => (c.name, c) :=
      List.mem_map.2 ⟨c, List.mem_filterMap.2 ⟨name, hkeys.2 hcr, hc⟩, by rw [hn]⟩
    rw [if_pos rfl, hc]
    refine herased.find?_foldl_insert_of_mem (fun _ _ => trivial) ?_ hmem
    rw [hnames]
    exact hu.created_sorted.nodup_keys
  | false =>
    have hnot : name ∉ (u.changeSet.created.map fun c => (c.name, c)).map Prod.fst := by
      rw [hnames, hkeys, hcr]
      simp
    refine (herased.find?_foldl_insert_of_notMem (fun _ _ => trivial) trivial hnot).trans ?_
    rw [show u.changeSet.dropped = u.dropped.keys from rfl,
      hi.sorted.find?_foldl_erase_keys hu.dropped_sorted trivial, OrderedMap.contains_eq_isSome]
    rfl

/-- A container with changed records is there before the changes are made. -/
theorem Since.isSome_find?_renewed (hi : i.Sound) (hu : Since i v h u) {changes : Changes}
    (hc : changes ∈ u.changeSet.updated) : ((i.renewed u.changeSet).find? changes.name).isSome := by
  obtain ⟨hb, hn, -, hd, hcr, -⟩ := hu.mem_updated hc
  have hcr' : u.created.contains changes.name = false := by
    rw [hu.created_sorted.mem_keys_iff_contains trivial] at hcr
    exact Bool.eq_false_iff.2 hcr
  have hd' : u.dropped.find? changes.name = none := by
    refine Option.eq_none_iff_forall_ne_some.2 fun c hc' => hd ?_
    exact (hu.dropped_sorted.mem_keys trivial).2 ⟨c, hc'⟩
  rw [hu.find?_renewed hi, hcr', hd']
  exact hb

/-- **The change set made to the image from before gives the image that is kept.** -/
theorem Since.apply_changeSet (hi : i.Sound) (hu : Since i v h u) : i.apply u.changeSet = .ok u.finished := by
  have hsorted := Image.sorted_renewed hi.sorted u.changeSet
  have hmissing : i.missing? u.changeSet.updated = none :=
    Image.missing?_eq_none fun changes hc => (hu.mem_updated hc).1
  rw [Image.apply, hmissing]
  refine congrArg Except.ok (Image.ext_find? ?_ ?_ (Image.sorted_foldl_update hsorted _) (hu.sorted.mapValues _)
    fun name => ?_)
  · rw [Image.version_applied]
    rfl
  · rw [Image.catalog_applied]
    rfl
  · rw [Image.applied, find?_finished]
    by_cases hname : name ∈ u.changeSet.updated.map Changes.name
    · obtain ⟨changes, hc, rfl⟩ := List.mem_map.1 hname
      obtain ⟨c, hnow, hch, -⟩ := hu.mem_journaled.1 hc
      have hf := hu.fate changes.name
      rw [hnow] at hf
      rw [Image.find?_foldl_update_of_mem hsorted hu.nodup_updated hc, hu.find?_renewed hi, hnow]
      exact hf.redo_changes hch
    · rw [Image.find?_foldl_update_of_notMem hsorted hname, hu.find?_renewed hi]
      refine (hu.fate name).redo_nothing fun c changes hnow hch => ?_
      have hf := hu.fate name
      rw [hnow] at hf
      obtain ⟨-, -, -, rfl, -⟩ := hf.of_changes? hch
      by_contra he
      exact hname (List.mem_map_of_mem (hu.mem_journaled.2 ⟨c, hnow, hch, by simpa using he⟩))

end Upgrade

end TableStore
