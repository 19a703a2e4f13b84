import TableStore.Proofs.Steady
import TableStore.Proofs.Synchrony

/-!
# Change sets and stores in memory

- changed records with different keys of values are in the container after they were applied, and no other record is
  touched (`Container.shows_apply`, `Container.find?_apply_of_notMem`);
- a change set deletes containers, creates others and then changes records, but whether every container is there is
  asked of the image before it. So the changed records of a container that is deleted and not created again are lost
  without a word (`ChangeSet.Loses`), those of all other containers are seen (`Image.shows_applied_iff`), and what is
  not named stays (`ChangeSet.Made`, `Image.apply_settles`);
- a commit to memory makes its change set or fails as a whole, but a first commit that fails leaves an empty image
  behind (`Medium.memory_commit_settles`).
-/

namespace TableStore

/-! ## Changed records -/

/-- The changed keys. -/
def Changes.keys (u : Changes) : List Key := u.put.map Prod.fst ++ u.deleted

/-- The changed keys are different keys of values. -/
structure Changes.Distinct (u : Changes) : Prop where
  proper : ∀ k ∈ u.keys, k.Proper
  nodup : u.keys.Nodup

/-- A container with the next key and the records that some changes bring, and without those that they delete. -/
structure Container.Shows (c : Container) (u : Changes) : Prop where
  nextKey_eq : c.nextKey = u.nextKey
  put : ∀ e ∈ u.put, c.find? e.1 = some e.2
  deleted : ∀ k ∈ u.deleted, c.find? k = none

namespace Changes.Distinct

variable {u : Changes}

theorem proper_put (hu : u.Distinct) : ∀ e ∈ u.put, e.1.Proper := fun e he =>
  hu.proper e.1 (List.mem_append_left _ (List.mem_map_of_mem he))

theorem proper_deleted (hu : u.Distinct) : ∀ k ∈ u.deleted, k.Proper := fun k hk =>
  hu.proper k (List.mem_append_right _ hk)

end Changes.Distinct

namespace Container

variable {c : Container} {u : Changes}

theorem find?_apply (hc : c.Ordered) (hu : u.Distinct) {k : Key} (hk : k.Proper) : (c.apply u).find? k =
    if k ∈ u.deleted then none else (u.put.foldl (fun m e => m.insert e.1 e.2) c.records).find? k :=
  (OrderedMap.Sorted.foldl_insert hc hu.proper_put).find?_foldl_erase hu.proper_deleted hk

/-- **Changed records are seen in the container.** -/
theorem shows_apply (hc : c.Ordered) (hu : u.Distinct) : (c.apply u).Shows u := by
  obtain ⟨hnd, -, hdisjoint⟩ := List.nodup_append.1 hu.nodup
  refine ⟨rfl, fun e he => ?_, fun k hk => ?_⟩
  · have hmem : e.1 ∈ u.put.map Prod.fst := List.mem_map_of_mem he
    rw [find?_apply hc hu (hu.proper_put e he), if_neg fun h => hdisjoint e.1 hmem e.1 h rfl]
    exact OrderedMap.Sorted.find?_foldl_insert_of_mem hc hu.proper_put hnd he
  · rw [find?_apply hc hu (hu.proper_deleted k hk), if_pos hk]

/-- Other records stay as they are. -/
theorem find?_apply_of_notMem (hc : c.Ordered) (hu : u.Distinct) {k : Key} (hk : k.Proper) (hnot : k ∉ u.keys) :
    (c.apply u).find? k = c.find? k := by
  obtain ⟨hput, hdeleted⟩ := not_or.1 fun h => hnot (List.mem_append.2 h)
  rw [find?_apply hc hu hk, if_neg hdeleted]
  exact OrderedMap.Sorted.find?_foldl_insert_of_notMem hc hu.proper_put hk hput

end Container

/-! ## Change sets -/

/-- Changed records of different containers, with different keys of values in each of them. -/
structure ChangeSet.Distinct (changes : ChangeSet) : Prop where
  names : (changes.updated.map Changes.name).Nodup
  updates : ∀ u ∈ changes.updated, u.Distinct

/-- The container of some changed records is deleted and not created again. -/
def ChangeSet.Loses (changes : ChangeSet) (u : Changes) : Prop :=
  u.name ∈ changes.dropped ∧ u.name ∉ changes.created.map Container.name

instance (changes : ChangeSet) (u : Changes) : Decidable (changes.Loses u) := inferInstanceAs (Decidable (_ ∧ _))

/-- The container of some changed records is there and shows them. -/
def Image.Shows (i : Image) (u : Changes) : Prop := ∃ c, i.find? u.name = some c ∧ c.Shows u

/-- Containers in the order of their names, with records in order under keys of values. -/
structure Image.Ordered (i : Image) : Prop where
  sorted : i.containers.Sorted fun _ => True
  each : i.Each Container.Ordered

/-- What a change set makes of an image. -/
structure ChangeSet.Made (changes : ChangeSet) (i j : Image) : Prop where
  version_eq : j.version = changes.version
  catalog_eq : j.catalog = changes.catalog.getD i.catalog
  /-- Changed records are seen if their container was not deleted, or was created again. -/
  shown : ∀ u ∈ changes.updated, j.Shows u ↔ ¬changes.Loses u
  /-- Other records of their containers are those from before, or those of the new container. -/
  others : ∀ u ∈ changes.updated, ∀ c, (i.renewed changes).find? u.name = some c →
    ∃ d, j.find? u.name = some d ∧ d.name = c.name ∧ d.keyPath = c.keyPath ∧ d.autoIncrement = c.autoIncrement ∧
      ∀ k : Key, k.Proper → k ∉ u.keys → d.find? k = c.find? k
  /-- New containers are there, the last one of each name. -/
  fresh : ∀ c ∈ changes.created, c.name ∉ changes.updated.map Changes.name →
    ∃ d ∈ changes.created, d.name = c.name ∧ j.find? c.name = some d
  /-- Deleted containers are not. -/
  gone : ∀ name ∈ changes.dropped, name ∉ changes.created.map Container.name → j.find? name = none
  /-- All others stay as they are. -/
  kept : ∀ name, name ∉ changes.dropped → name ∉ changes.created.map Container.name →
    name ∉ changes.updated.map Changes.name → j.find? name = i.find? name

/-- Of the entries with a key one is found. -/
theorem OrderedMap.Sorted.exists_find?_foldl_insert {α : Type} {m : OrderedMap String α} (hm : m.Sorted fun _ => True)
    {es : List (String × α)} {k : String} (hk : k ∈ es.map Prod.fst) :
    ∃ a, (k, a) ∈ es ∧ (es.foldl (fun m e => m.insert e.1 e.2) m).find? k = some a := by
  induction es generalizing m with
  | nil => simp at hk
  | cons e es ih =>
    have hinsert := hm.insert (k := e.1) trivial e.2
    by_cases hrest : k ∈ es.map Prod.fst
    · obtain ⟨a, ha, hfind⟩ := ih hinsert hrest
      exact ⟨a, List.mem_cons_of_mem _ ha, hfind⟩
    · have hke : k = e.1 := by simpa [hrest] using hk
      refine ⟨e.2, by simp [hke], ?_⟩
      rw [List.foldl_cons, hinsert.find?_foldl_insert_of_notMem (fun _ _ => trivial) trivial hrest,
        hm.find?_insert trivial e.2 trivial, if_pos hke]

namespace Image

variable {i : Image} {changes : ChangeSet} {u : Changes} {name : String}

theorem sorted_foldl_erase (hi : i.containers.Sorted fun _ => True) (names : List String) :
    (names.foldl .erase i.containers).Sorted fun _ => True := hi.foldl_erase fun _ _ => trivial

/-- Containers that are created are put in after others were deleted. -/
theorem find?_renewed (i : Image) (changes : ChangeSet) (name : String) : (i.renewed changes).find? name =
    ((changes.created.map fun c => (c.name, c)).foldl (fun m e => m.insert e.1 e.2)
      (changes.dropped.foldl .erase i.containers)).find? name := by
  rw [renewed, foldl_set]
  rfl

/-- A name that is not created is deleted or keeps its container. -/
theorem find?_renewed_of_notMem (hi : i.containers.Sorted fun _ => True)
    (hnot : name ∉ changes.created.map Container.name) :
    (i.renewed changes).find? name = if name ∈ changes.dropped then none else i.find? name := by
  have hnames : name ∉ (changes.created.map fun c => (c.name, c)).map Prod.fst := by simpa using hnot
  rw [find?_renewed, (sorted_foldl_erase hi changes.dropped).find?_foldl_insert_of_notMem (fun _ _ => trivial) trivial
    hnames]
  exact hi.find?_foldl_erase (fun _ _ => trivial) trivial

/-- A name that is created has the last container of that name. -/
theorem exists_find?_renewed (hi : i.containers.Sorted fun _ => True)
    (hmem : name ∈ changes.created.map Container.name) :
    ∃ c ∈ changes.created, c.name = name ∧ (i.renewed changes).find? name = some c := by
  have hnames : name ∈ (changes.created.map fun c => (c.name, c)).map Prod.fst := by simpa using hmem
  obtain ⟨c, hc, hfind⟩ := (sorted_foldl_erase hi changes.dropped).exists_find?_foldl_insert hnames
  obtain ⟨d, hd, heq⟩ := List.mem_map.1 hc
  obtain ⟨rfl, rfl⟩ := Prod.mk.inj heq
  exact ⟨d, hd, rfl, (find?_renewed i changes d.name).trans hfind⟩

theorem ordered_renewed (hi : i.Ordered) (hcreated : ∀ c ∈ changes.created, c.Ordered) {c : Container}
    (hc : (i.renewed changes).find? name = some c) : c.Ordered := by
  by_cases hmem : name ∈ changes.created.map Container.name
  · obtain ⟨d, hd, -, hfind⟩ := exists_find?_renewed hi.sorted hmem
    rw [hfind] at hc
    cases hc
    exact hcreated _ hd
  · rw [find?_renewed_of_notMem hi.sorted hmem] at hc
    split at hc
    · cases hc
    · exact hi.each.of_find? hc

/-- Changed records whose container is there before have one to be written to, if they are not lost. -/
theorem isSome_find?_renewed_iff (hi : i.containers.Sorted fun _ => True) (hu : (i.find? u.name).isSome) :
    ((i.renewed changes).find? u.name).isSome ↔ ¬changes.Loses u := by
  rw [ChangeSet.Loses]
  by_cases hmem : u.name ∈ changes.created.map Container.name
  · obtain ⟨c, -, -, hfind⟩ := exists_find?_renewed hi hmem
    simp [hfind, hmem]
  · rw [find?_renewed_of_notMem hi hmem]
    by_cases hdropped : u.name ∈ changes.dropped
    · simp [hmem, hdropped]
    · simp [hmem, hdropped, hu]

theorem find?_applied_of_mem (hi : i.containers.Sorted fun _ => True)
    (hnames : (changes.updated.map Changes.name).Nodup) (hu : u ∈ changes.updated) :
    (i.applied changes).find? u.name = ((i.renewed changes).find? u.name).map (·.apply u) :=
  find?_foldl_update_of_mem (sorted_renewed hi changes) hnames hu

theorem find?_applied_of_notMem (hi : i.containers.Sorted fun _ => True)
    (hnot : name ∉ changes.updated.map Changes.name) :
    (i.applied changes).find? name = (i.renewed changes).find? name :=
  find?_foldl_update_of_notMem (sorted_renewed hi changes) hnot

/-- **Changed records are seen exactly if they are not lost.** -/
theorem shows_applied_iff (hi : i.Ordered) (hcreated : ∀ c ∈ changes.created, c.Ordered) (hd : changes.Distinct)
    (hu : u ∈ changes.updated) (hthere : (i.find? u.name).isSome) :
    (i.applied changes).Shows u ↔ ¬changes.Loses u := by
  rw [← isSome_find?_renewed_iff hi.sorted hthere, Shows, find?_applied_of_mem hi.sorted hd.names hu]
  cases hc : (i.renewed changes).find? u.name with
  | none => simp
  | some c =>
    have hshows := Container.shows_apply (ordered_renewed hi hcreated hc) (hd.updates u hu)
    simpa using hshows

/-- A change set that names no missing container is made. -/
theorem made_applied (hi : i.Ordered) (hcreated : ∀ c ∈ changes.created, c.Ordered) (hd : changes.Distinct)
    (hthere : ∀ u ∈ changes.updated, (i.find? u.name).isSome) : changes.Made i (i.applied changes) where
  version_eq := version_applied i changes
  catalog_eq := catalog_applied i changes
  shown u hu := shows_applied_iff hi hcreated hd hu (hthere u hu)
  others u hu c hc := by
    rw [find?_applied_of_mem hi.sorted hd.names hu, hc]
    refine ⟨c.apply u, rfl, rfl, rfl, rfl, fun k hk hnot => ?_⟩
    exact Container.find?_apply_of_notMem (ordered_renewed hi hcreated hc) (hd.updates u hu) hk hnot
  fresh c hc hnot := by
    have hmem : c.name ∈ changes.created.map Container.name := List.mem_map_of_mem hc
    obtain ⟨d, hd, hname, hfind⟩ := exists_find?_renewed hi.sorted hmem
    exact ⟨d, hd, hname, (find?_applied_of_notMem hi.sorted hnot).trans hfind⟩
  gone name hdropped hnot := by
    have hnone : (i.renewed changes).find? name = none := by
      rw [find?_renewed_of_notMem hi.sorted hnot, if_pos hdropped]
    by_cases hmem : name ∈ changes.updated.map Changes.name
    · obtain ⟨u, hu, rfl⟩ := List.mem_map.1 hmem
      rw [find?_applied_of_mem hi.sorted hd.names hu, hnone, Option.map_none]
    · rw [find?_applied_of_notMem hi.sorted hmem, hnone]
  kept name hdropped hnot hmem := by
    rw [find?_applied_of_notMem hi.sorted hmem, find?_renewed_of_notMem hi.sorted hnot, if_neg hdropped]

theorem apply_of_missing? (h : i.missing? changes.updated = some name) :
    i.apply changes = .error (.containerNotFound name) := by
  rw [apply, h]

theorem exists_of_missing? (h : i.missing? changes.updated = some name) :
    ∃ u ∈ changes.updated, u.name = name ∧ i.find? u.name = none := by
  obtain ⟨u, hu, rfl⟩ := Option.map_eq_some_iff.1 h
  refine ⟨u, List.mem_of_find?_eq_some hu, rfl, ?_⟩
  simpa [contains_eq_isSome] using List.find?_some hu

theorem isSome_of_missing? (h : i.missing? changes.updated = none) :
    ∀ u ∈ changes.updated, (i.find? u.name).isSome := by
  rw [missing?, Option.map_eq_none_iff, List.find?_eq_none] at h
  intro u hu
  simpa [contains_eq_isSome, Option.isSome_iff_ne_none] using h u hu

/-- **A change set is refused as a whole, or made but for what it loses.** An image with records in order under keys of
values is asked for the container of each changed record. If one is missing, this is the error and the image stays as it
is. Otherwise the change set is made: changed records are seen in the image exactly if their container is not among
those that the change set deletes and does not create again, and nothing that it does not name is touched. -/
theorem apply_settles (hi : i.Ordered) (hcreated : ∀ c ∈ changes.created, c.Ordered) (hd : changes.Distinct) :
    (∃ u ∈ changes.updated, i.find? u.name = none ∧ i.apply changes = .error (.containerNotFound u.name) ∧
        (Medium.memory (some i)).commit changes = (.error (.containerNotFound u.name), .memory (some i))) ∨
      (∀ u ∈ changes.updated, (i.find? u.name).isSome) ∧ ∃ j, i.apply changes = .ok j ∧
        (Medium.memory (some i)).commit changes = (.ok (), .memory (some j)) ∧ changes.Made i j := by
  cases hm : i.missing? changes.updated with
  | some name =>
    obtain ⟨u, hu, rfl, hnone⟩ := exists_of_missing? hm
    refine .inl ⟨u, hu, hnone, apply_of_missing? hm, ?_⟩
    simp only [Medium.commit, Option.getD_some, apply_of_missing? hm]
  | none =>
    have hthere := isSome_of_missing? hm
    have happly : i.apply changes = .ok (i.applied changes) := by rw [apply, hm]
    refine .inr ⟨hthere, i.applied changes, happly, ?_, made_applied hi hcreated hd hthere⟩
    simp only [Medium.commit, Option.getD_some, happly]

/-- An image with three containers. -/
def shelves : Image :=
  let record (n : Int64) : Record := .ofList [("id", .integer n)]
  let holding (name : String) (n : Int64) : Container :=
    { name, keyPath := "id", autoIncrement := true, nextKey := n + 1, records := ⟨[(.integer n, record n)]⟩ }
  { version := 3, containers := ⟨[("a", holding "a" 1), ("b", holding "b" 2), ("c", holding "c" 3)]⟩ }

/-- A change set that changes records of a container that it deletes, of one that it deletes and creates again, and of
one that it keeps. -/
def clearance : ChangeSet :=
  let record (n : Int64) : Record := .ofList [("id", .integer n)]
  let change (name : String) : Changes :=
    { name, nextKey := 9, put := [(.integer 5, record 5)], deleted := [.integer 1] }
  { version := 4, dropped := ["a", "b"], created := [{ name := "b", keyPath := "id", autoIncrement := false }]
    updated := [change "a", change "b", change "c"] }

theorem shelves_ordered : shelves.Ordered where
  sorted := by
    rw [OrderedMap.Sorted, OrderedMap.SortedIn]
    decide +kernel
  each := by
    simp only [Image.Each, Container.Ordered, OrderedMap.Sorted, OrderedMap.SortedIn]
    decide +kernel

theorem clearance_ordered : ∀ c ∈ clearance.created, c.Ordered := by
  simp only [Container.Ordered, OrderedMap.Sorted, OrderedMap.SortedIn]
  decide +kernel

theorem clearance_distinct : clearance.Distinct where
  names := by decide +kernel
  updates u hu := ⟨by revert u; decide +kernel, by revert u; decide +kernel⟩

/-- The changed records of the deleted container are lost, and the change set succeeds. -/
theorem changes_of_deleted_container_are_lost : ∃ j, shelves.apply clearance = .ok j ∧
    (∀ u ∈ clearance.updated, j.Shows u ↔ u.name ≠ "a") ∧ j.find? "a" = none := by
  have hloses : ∀ u ∈ clearance.updated, clearance.Loses u ↔ u.name = "a" := by decide +kernel
  rcases apply_settles shelves_ordered clearance_ordered clearance_distinct with
    ⟨u, hu, hnone, -⟩ | ⟨-, j, happly, -, hmade⟩
  · exact absurd hnone (by revert u; decide +kernel)
  · refine ⟨j, happly, fun u hu => ?_, hmade.gone "a" (by decide +kernel) (by decide +kernel)⟩
    rw [hmade.shown u hu, hloses u hu]

end Image

/-! ## Stores in memory -/

namespace Medium

variable {changes : ChangeSet}

/-- **A commit to memory is made or refused as a whole**, but it is refused after the store was created. The store has
the image from before or, if it was never written, the empty one. If the image has no container for some changed
records, this is the error and the store keeps the image, so that it loads what it loaded before exactly if it was
written before. Otherwise the commit succeeds, and the store loads the image with the change set made. -/
theorem memory_commit_settles (image : Option Image) (changes : ChangeSet) :
    (∃ u ∈ changes.updated, (image.getD {}).find? u.name = none ∧ ∃ after : Medium,
        (Medium.memory image).commit changes = (.error (.containerNotFound u.name), after) ∧
        after.load = .ok (some (image.getD {})) ∧ (after.load = (Medium.memory image).load ↔ image ≠ none)) ∨
      (∀ u ∈ changes.updated, ((image.getD {}).find? u.name).isSome) ∧ ∃ (after : Medium) (j : Image),
        (Medium.memory image).commit changes = (.ok (), after) ∧ after.load = .ok (some j) ∧
        (image.getD {}).apply changes = .ok j ∧
        ((image.getD {}).Ordered → (∀ c ∈ changes.created, c.Ordered) → changes.Distinct →
          changes.Made (image.getD {}) j) := by
  cases hm : (image.getD {}).missing? changes.updated with
  | some name =>
    obtain ⟨u, hu, rfl, hnone⟩ := Image.exists_of_missing? hm
    refine .inl ⟨u, hu, hnone, .memory (some (image.getD {})), ?_, rfl, ?_⟩
    · simp only [commit, Image.apply_of_missing? hm]
    · cases image <;> simp [load]
  | none =>
    have hthere := Image.isSome_of_missing? hm
    have happly : (image.getD {}).apply changes = .ok ((image.getD {}).applied changes) := by rw [Image.apply, hm]
    refine .inr ⟨hthere, .memory (some ((image.getD {}).applied changes)), _, ?_, rfl, happly, fun hi hc hd =>
      Image.made_applied hi hc hd hthere⟩
    simp only [commit, happly]

/-- A first commit that is refused leaves the empty image in a store that had none. Once the store is written, a commit
loses the changed records of a container that it deletes. -/
theorem refused_first_commit_leaves_image :
    (∃ e after, (Medium.memory none).commit Image.clearance = (.error e, after) ∧
        (Medium.memory none).load = .ok none ∧ after.load = .ok (some {})) ∧
      ∃ after j, (Medium.memory (some Image.shelves)).commit Image.clearance = (.ok (), after) ∧
        after.load = .ok (some j) ∧ j.find? "a" = none := by
  constructor
  · rcases memory_commit_settles none Image.clearance with ⟨u, -, -, after, hcommit, hload, -⟩ | ⟨hthere, -⟩
    · exact ⟨_, after, hcommit, rfl, hload⟩
    · exact absurd hthere (by decide +kernel)
  · rcases memory_commit_settles (some Image.shelves) Image.clearance with
      ⟨u, hu, hnone, -⟩ | ⟨-, after, j, hcommit, hload, -, hmade⟩
    · exact absurd hnone (by revert u; decide +kernel)
    · have hgone := (hmade Image.shelves_ordered Image.clearance_ordered Image.clearance_distinct).gone
      exact ⟨after, j, hcommit, hload, hgone "a" (by decide +kernel) (by decide +kernel)⟩

end Medium

end TableStore
