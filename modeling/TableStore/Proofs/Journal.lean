import TableStore.Container
import TableStore.Proofs.KeyOrder

/-!
# Journals

- `Edited c ks d`: the container `d` comes from `c` by storing and deleting records, and `ks` are the keys of these
  changes, the newest first;
- whatever the changes are, undoing the journal gives what it gave before them (`Edited.rollback_eq`), so a container
  whose journal was opened comes back as it was (`Edited.rollback_begin`);
- what a journal tells of the changes is exact: its keys are the changed keys, each once and in order
  (`Edited.exact`), and the changes made to another copy give the changed container (`Edited.apply_changes`).
-/

namespace TableStore

/-! ## Keys in order -/

/-- Keys in strictly increasing order. -/
def Key.Ascending (ks : List Key) : Prop := ks.Pairwise fun a b => compare a b = .lt

theorem Key.Ascending.nodup {ks : List Key} (h : Key.Ascending ks) (hp : ∀ k ∈ ks, k.Proper) : ks.Nodup :=
  h.imp_of_mem fun ha _ hlt => OrderedMap.ne_of_lt (hp _ ha) hlt

namespace Journal

/-- The keys of a list, each once, as a map. -/
def gather (keys : List (Key × Option Record)) : OrderedMap Key Unit :=
  keys.foldr (fun change keys => if keys.contains change.1 then keys else keys.insert change.1 ()) .empty

theorem gather_sorted : ∀ {prior : List (Key × Option Record)}, (∀ e ∈ prior, e.1.Proper) →
    (gather prior).Sorted Key.Proper
  | [], _ => OrderedMap.sorted_empty
  | e :: prior, h => by
    obtain ⟨he, hp⟩ := List.forall_mem_cons.1 h
    rw [gather, List.foldr_cons]
    split
    · exact gather_sorted hp
    · exact (gather_sorted hp).insert he ()

theorem isSome_find?_gather {k : Key} (hk : k.Proper) : ∀ {prior : List (Key × Option Record)},
    (∀ e ∈ prior, e.1.Proper) → (((gather prior).find? k).isSome ↔ k ∈ prior.map Prod.fst)
  | [], _ => by simp [gather]
  | e :: prior, h => by
    obtain ⟨he, hp⟩ := List.forall_mem_cons.1 h
    have ih := isSome_find?_gather hk hp
    rw [gather, List.foldr_cons, List.map_cons, List.mem_cons]
    change ((if (gather prior).contains e.1 then gather prior else (gather prior).insert e.1 ()).find? k).isSome ↔ _
    split
    · rename_i hc
      rw [OrderedMap.contains_eq_isSome] at hc
      rw [ih]
      refine ⟨.inr, ?_⟩
      rintro (rfl | h)
      · exact ih.1 hc
      · exact h
    · rw [(gather_sorted hp).find?_insert he () hk]
      split
      · rename_i heq
        simp [heq]
      · rename_i hne
        simp [ih, hne]

/-- The keys in a journal are in order. -/
theorem touched_ascending {j : Journal} (h : ∀ e ∈ j.prior, e.1.Proper) : Key.Ascending j.touched :=
  (gather_sorted h).ascending

/-- The keys in a journal are those of the changes. -/
theorem mem_touched {j : Journal} (h : ∀ e ∈ j.prior, e.1.Proper) {k : Key} :
    k ∈ j.touched ↔ k ∈ j.prior.map Prod.fst := by
  have hs := gather_sorted h
  constructor
  · intro hk
    have hp := hs.of_mem_keys hk
    exact (isSome_find?_gather hp h).1 (Option.isSome_iff_exists.2 ((hs.mem_keys hp).1 hk))
  · intro hk
    obtain ⟨e, he, rfl⟩ := List.mem_map.1 hk
    exact (hs.mem_keys (h e he)).2 (Option.isSome_iff_exists.1 ((isSome_find?_gather (h e he) h).2 hk))

end Journal

namespace Container

/-! ## Changes one after another -/

/-- The records are in order, under proper keys. -/
def Ordered (c : Container) : Prop := c.records.Sorted Key.Proper

/-- One container comes from another by changes of the records under some keys, the newest first. -/
inductive Edited (c : Container) : List Key → Container → Prop
  | refl : Edited c [] c
  | store {ks : List Key} {d : Container} (h : Edited c ks d) {k : Key} (hk : k.Proper) (r : Record) :
      Edited c (k :: ks) (d.store k r)
  | erase {ks : List Key} {d : Container} (h : Edited c ks d) {k : Key} (hk : k.Proper) {r : Record}
      (hr : d.records.find? k = some r) : Edited c (k :: ks) (d.delete k).2

/-- Deletion of a record that is there. -/
theorem delete_of_find? {c : Container} {k : Key} {r : Record} (h : c.records.find? k = some r) :
    c.delete k = (true, { c.note k (some r) with records := c.records.erase k }) := by
  simp [delete, h]

theorem delete_of_none {c : Container} {k : Key} (h : c.records.find? k = none) : c.delete k = (false, c) := by
  simp [delete, h]

/-- The key of a record is a proper one. -/
theorem keyed_proper {c : Container} {r : Record} {k : Key} {r' : Record} (h : c.keyed r = .ok (k, r')) :
    k.Proper := by
  unfold keyed at h
  split at h
  · split at h
    · cases h
      exact Key.proper_integer _
    · cases h
  · split at h
    · rename_i hk
      cases h
      exact Key.proper_of_ofValue? hk
    · cases h

/-- Undoing a change gives the records back. -/
theorem undo_store {m : OrderedMap Key Record} (hm : m.Sorted Key.Proper) {k : Key} (hk : k.Proper) (r : Record) :
    undo (m.insert k r) (k, m.find? k) = m := by
  have hi := hm.insert hk r
  unfold undo
  split
  · rename_i r' h
    change m.find? k = some r' at h
    refine (hi.insert hk r').ext hm fun k' hk' => ?_
    rw [hi.find?_insert hk r' hk', hm.find?_insert hk r hk']
    split
    · rename_i he
      rw [he, h]
    · rfl
  · rename_i h
    change m.find? k = none at h
    refine (hi.erase hk).ext hm fun k' hk' => ?_
    rw [hi.find?_erase hk hk', hm.find?_insert hk r hk']
    split
    · rename_i he
      rw [he, h]
    · rfl

theorem undo_erase {m : OrderedMap Key Record} (hm : m.Sorted Key.Proper) {k : Key} (hk : k.Proper) {r : Record}
    (hr : m.find? k = some r) : undo (m.erase k) (k, some r) = m := by
  have he := hm.erase hk
  refine (he.insert hk r).ext hm fun k' hk' => ?_
  rw [he.find?_insert hk r hk', hm.find?_erase hk hk']
  split
  · rename_i h
    rw [h, hr]
  · rfl

theorem rollback_store {c : Container} (hc : c.Ordered) (hj : c.journal ≠ none) {k : Key} (hk : k.Proper)
    (r : Record) : (c.store k r).rollback = c.rollback := by
  obtain ⟨j, hj⟩ := Option.ne_none_iff_exists'.1 hj
  simp only [rollback, store, note, hj, Option.map_some, List.foldl_cons, undo_store hc hk]

theorem rollback_delete {c : Container} (hc : c.Ordered) (hj : c.journal ≠ none) {k : Key} (hk : k.Proper)
    {r : Record} (hr : c.records.find? k = some r) : (c.delete k).2.rollback = c.rollback := by
  obtain ⟨j, hj⟩ := Option.ne_none_iff_exists'.1 hj
  simp only [delete_of_find? hr, rollback, note, hj, Option.map_some, List.foldl_cons, undo_erase hc hk hr]

namespace Edited

variable {c d : Container} {ks : List Key}

/-- Changes after changes. -/
theorem trans {ls : List Key} {e : Container} (h : Edited c ks d) (h' : Edited d ls e) : Edited c (ls ++ ks) e := by
  induction h' with
  | refl => exact h
  | store _ hk r ih => exact ih.store hk r
  | erase _ hk hr ih => exact ih.erase hk hr

theorem proper (h : Edited c ks d) : ∀ k ∈ ks, k.Proper := by
  induction h with
  | refl => exact fun k hk => by cases hk
  | store _ hk _ ih => exact List.forall_mem_cons.2 ⟨hk, ih⟩
  | erase _ hk _ ih => exact List.forall_mem_cons.2 ⟨hk, ih⟩

theorem ordered (hc : c.Ordered) (h : Edited c ks d) : d.Ordered := by
  induction h with
  | refl => exact hc
  | store _ hk r ih => exact OrderedMap.Sorted.insert ih hk r
  | erase _ hk hr ih =>
    rw [delete_of_find? hr]
    exact OrderedMap.Sorted.erase ih hk

/-- What a container is apart from its records stays. -/
theorem shape_eq (h : Edited c ks d) :
    d.name = c.name ∧ d.keyPath = c.keyPath ∧ d.autoIncrement = c.autoIncrement := by
  induction h with
  | refl => exact ⟨rfl, rfl, rfl⟩
  | store _ _ _ ih => exact ih
  | erase _ _ hr ih =>
    rw [delete_of_find? hr]
    exact ih

/-- A closed journal stays closed. -/
theorem journal_none (h : Edited c ks d) (hc : c.journal = none) : d.journal = none := by
  induction h with
  | refl => exact hc
  | store _ _ _ ih => simp [Container.store, note, ih]
  | erase _ _ hr ih => simp [delete_of_find? hr, note, ih]

/-- An open journal notes the keys of all changes. -/
theorem journal_some (h : Edited c ks d) {j : Journal} (hc : c.journal = some j) :
    ∃ p, d.journal = some { j with prior := p ++ j.prior } ∧ p.map Prod.fst = ks := by
  induction h with
  | refl => exact ⟨[], hc, rfl⟩
  | store _ hk r ih =>
    obtain ⟨p, hp, rfl⟩ := ih
    exact ⟨_ :: p, by simp only [Container.store, note, hp]; rfl, rfl⟩
  | erase _ hk hr ih =>
    obtain ⟨p, hp, rfl⟩ := ih
    exact ⟨_ :: p, by simp only [delete_of_find? hr, note, hp]; rfl, rfl⟩

theorem journal_ne_none (h : Edited c ks d) (hc : c.journal ≠ none) : d.journal ≠ none := by
  obtain ⟨j, hj⟩ := Option.ne_none_iff_exists'.1 hc
  obtain ⟨p, hp, -⟩ := h.journal_some hj
  simp [hp]

/-- A key that was not changed holds what it held. -/
theorem find?_eq (hc : c.Ordered) (h : Edited c ks d) {k : Key} (hk : k.Proper) (hks : k ∉ ks) :
    d.records.find? k = c.records.find? k := by
  induction h with
  | refl => rfl
  | store h hk' r ih =>
    rw [List.mem_cons, not_or] at hks
    rw [← ih hks.2]
    exact ((h.ordered hc).find?_insert hk' r hk).trans (if_neg hks.1)
  | erase h hk' hr ih =>
    rw [List.mem_cons, not_or] at hks
    rw [← ih hks.2, delete_of_find? hr]
    exact ((h.ordered hc).find?_erase hk' hk).trans (if_neg hks.1)

/-! ## Rollback -/

/-- **Undoing the journal undoes every change that it noted.** -/
theorem rollback_eq (hc : c.Ordered) (h : Edited c ks d) (hj : c.journal ≠ none) : d.rollback = c.rollback := by
  induction h with
  | refl => rfl
  | store h hk r ih => rw [rollback_store (h.ordered hc) (h.journal_ne_none hj) hk, ih]
  | erase h hk hr ih => rw [rollback_delete (h.ordered hc) (h.journal_ne_none hj) hk hr, ih]

end Edited

theorem begin_of_none {c : Container} (hc : c.journal = none) :
    c.begin = { c with journal := some { nextKey := c.nextKey } } := by
  simp [begin, hc]

theorem rollback_of_none {c : Container} (hc : c.journal = none) : c.rollback = c := by
  simp [rollback, hc]

theorem commit_of_none {c : Container} (hc : c.journal = none) : c.commit = c := by
  obtain ⟨_, _, _, _, _, _⟩ := c
  cases hc
  rfl

theorem rollback_begin {c : Container} (hc : c.journal = none) : c.begin.rollback = c := by
  obtain ⟨_, _, _, _, _, _⟩ := c
  cases hc
  rfl

@[simp] theorem begin_name (c : Container) : c.begin.name = c.name := by
  unfold begin
  split <;> rfl

@[simp] theorem begin_keyPath (c : Container) : c.begin.keyPath = c.keyPath := by
  unfold begin
  split <;> rfl

@[simp] theorem begin_autoIncrement (c : Container) : c.begin.autoIncrement = c.autoIncrement := by
  unfold begin
  split <;> rfl

@[simp] theorem begin_records (c : Container) : c.begin.records = c.records := by
  unfold begin
  split <;> rfl

theorem ordered_begin {c : Container} : c.begin.Ordered ↔ c.Ordered := by
  rw [Ordered, begin_records, Ordered]

namespace Edited

variable {c d : Container} {ks : List Key}

/-- A container comes back as it was when its journal was opened. -/
theorem rollback_begin (hc : c.Ordered) (hj : c.journal = none) (h : Edited c.begin ks d) : d.rollback = c := by
  rw [h.rollback_eq (ordered_begin.2 hc) (by simp [begin_of_none hj]), Container.rollback_begin hj]

end Edited

end Container

/-! ## What a journal tells -/

/-- The changes are those of some proper keys: each once and in order, and no others. -/
structure Changes.Exact (changes : Changes) (ks : List Key) : Prop where
  proper : ∀ k ∈ ks, k.Proper
  put_ascending : Key.Ascending (changes.put.map Prod.fst)
  deleted_ascending : Key.Ascending changes.deleted
  disjoint : ∀ k ∈ changes.deleted, k ∉ changes.put.map Prod.fst
  mem_iff : ∀ k, k ∈ changes.put.map Prod.fst ∨ k ∈ changes.deleted ↔ k ∈ ks

theorem Changes.Exact.proper_put {changes : Changes} {ks : List Key} (h : changes.Exact ks) :
    ∀ e ∈ changes.put, e.1.Proper := fun e he =>
  h.proper e.1 ((h.mem_iff e.1).1 (.inl (List.mem_map_of_mem he)))

theorem Changes.Exact.proper_deleted {changes : Changes} {ks : List Key} (h : changes.Exact ks) :
    ∀ l ∈ changes.deleted, l.Proper := fun l hl => h.proper l ((h.mem_iff l).1 (.inr hl))

theorem Changes.Exact.isEmpty_iff {changes : Changes} {ks : List Key} (h : changes.Exact ks) :
    changes.isEmpty ↔ ks = [] := by
  simp only [isEmpty, Bool.and_eq_true, List.isEmpty_iff]
  constructor
  · rintro ⟨hp, hd⟩
    refine List.eq_nil_iff_forall_not_mem.2 fun k hk => ?_
    rcases (h.mem_iff k).2 hk with h' | h'
    · simp [hp] at h'
    · simp [hd] at h'
  · rintro rfl
    constructor
    · refine List.eq_nil_iff_forall_not_mem.2 fun e he => ?_
      exact absurd ((h.mem_iff e.1).1 (.inl (List.mem_map_of_mem he))) List.not_mem_nil
    · exact List.eq_nil_iff_forall_not_mem.2 fun k hk => absurd ((h.mem_iff k).1 (.inr hk)) List.not_mem_nil

namespace Container

/-- The keys of the entries that a map has for some keys. -/
theorem map_fst_entriesOf {m : OrderedMap Key Record} (hm : m.Sorted Key.Proper) :
    ∀ {ks : List Key}, (∀ k ∈ ks, k.Proper) → (ks.filterMap m.findEntry?).map Prod.fst = ks.filter m.contains
  | [], _ => rfl
  | k :: ks, h => by
    obtain ⟨hk, hks⟩ := List.forall_mem_cons.1 h
    have ih := map_fst_entriesOf hm hks
    rw [List.filterMap_cons, List.filter_cons, OrderedMap.contains_eq_isSome, hm.findEntry?_eq hk]
    cases m.find? k with
    | none => simpa using ih
    | some r => simpa using ih

theorem mem_entriesOf {m : OrderedMap Key Record} (hm : m.Sorted Key.Proper) {ks : List Key}
    (hks : ∀ k ∈ ks, k.Proper) {k : Key} {r : Record} :
    (k, r) ∈ ks.filterMap m.findEntry? ↔ k ∈ ks ∧ m.find? k = some r := by
  rw [List.mem_filterMap]
  constructor
  · rintro ⟨k', hk', h⟩
    rw [hm.findEntry?_eq (hks k' hk')] at h
    obtain ⟨r', hr', heq⟩ := Option.map_eq_some_iff.1 h
    cases heq
    exact ⟨hk', hr'⟩
  · rintro ⟨hk, h⟩
    exact ⟨k, hk, by rw [hm.findEntry?_eq (hks k hk), h, Option.map_some]⟩

/-- What an open journal tells of the keys in it. -/
theorem changes?_of_journal {c : Container} {j : Journal} (hj : c.journal = some j) :
    c.changes? = some
      { name := c.name
        nextKey := c.nextKey
        put := j.touched.filterMap c.records.findEntry?
        deleted := j.touched.filter fun k => !c.records.contains k } := by
  simp [changes?, hj]

theorem changes?_of_none {c : Container} (hc : c.journal = none) : c.changes? = none := by
  simp [changes?, hc]

/-- The changes are exact when the journal has the keys. -/
theorem exact_changes {c : Container} (hc : c.Ordered) {j : Journal} (hj : c.journal = some j)
    (hp : ∀ e ∈ j.prior, e.1.Proper) {changes : Changes} (h : c.changes? = some changes) :
    changes.Exact (j.prior.map Prod.fst) := by
  rw [changes?_of_journal hj] at h
  cases h
  have hks : ∀ k ∈ j.touched, k.Proper := fun k hk => by
    obtain ⟨e, he, rfl⟩ := List.mem_map.1 ((Journal.mem_touched hp).1 hk)
    exact hp e he
  have hasc := Journal.touched_ascending hp
  refine ⟨fun k hk => ?_, ?_, hasc.filter _, ?_, fun k => ?_⟩
  · obtain ⟨e, he, rfl⟩ := List.mem_map.1 hk
    exact hp e he
  · rw [map_fst_entriesOf hc hks]
    exact hasc.filter _
  · intro k hk hk'
    rw [map_fst_entriesOf hc hks] at hk'
    have h1 := (List.mem_filter.1 hk).2
    rw [(List.mem_filter.1 hk').2] at h1
    cases h1
  · rw [map_fst_entriesOf hc hks, List.mem_filter, List.mem_filter, ← Journal.mem_touched hp]
    cases c.records.contains k <;> simp

/-- The entries of some keys put into another map, and the others of these keys taken out of it. -/
theorem foldl_changes {m n : OrderedMap Key Record} (hm : m.Sorted Key.Proper) (hn : n.Sorted Key.Proper)
    {ks : List Key} (hks : ∀ k ∈ ks, k.Proper) (hasc : Key.Ascending ks)
    (h : ∀ k, k.Proper → k ∉ ks → n.find? k = m.find? k) :
    (ks.filter fun k => !n.contains k).foldl .erase
      ((ks.filterMap n.findEntry?).foldl (fun m e => m.insert e.1 e.2) m) = n := by
  have hfst := map_fst_entriesOf hn hks
  have hput : ∀ e ∈ ks.filterMap n.findEntry?, e.1.Proper := fun e he =>
    hks e.1 ((mem_entriesOf hn hks).1 he).1
  have hdel : ∀ k ∈ ks.filter fun k => !n.contains k, k.Proper := fun k hk => hks k (List.mem_filter.1 hk).1
  have hins := OrderedMap.Sorted.foldl_insert hm hput
  refine (hins.foldl_erase hdel).ext hn fun k hk => ?_
  rw [hins.find?_foldl_erase hdel hk]
  have hnot : k ∉ ks → k ∉ (ks.filterMap n.findEntry?).map Prod.fst := fun hk' h' =>
    hk' (List.mem_filter.1 (hfst ▸ h')).1
  cases hr : n.find? k with
  | none =>
    split
    · rfl
    · rename_i hd
      have hk' : k ∉ ks := fun hk' => hd (List.mem_filter.2 ⟨hk', by simp [OrderedMap.contains_eq_isSome, hr]⟩)
      rw [hm.find?_foldl_insert_of_notMem hput hk (hnot hk'), ← h k hk hk', hr]
  | some r =>
    rw [if_neg fun hd => by simpa [OrderedMap.contains_eq_isSome, hr] using (List.mem_filter.1 hd).2]
    by_cases hk' : k ∈ ks
    · exact hm.find?_foldl_insert_of_mem hput (hfst ▸ (hasc.nodup hks).filter _)
        ((mem_entriesOf hn hks).2 ⟨hk', hr⟩)
    · rw [hm.find?_foldl_insert_of_notMem hput hk (hnot hk'), ← h k hk hk', hr]

namespace Edited

variable {c d : Container} {ks : List Key}

/-- A container that was changed with its journal open tells exactly the changed keys. -/
theorem exact (hc : c.Ordered) (hj : c.journal = none) (h : Edited c.begin ks d) :
    ∃ changes, d.changes? = some changes ∧ changes.name = c.name ∧ changes.Exact ks := by
  obtain ⟨p, hp, rfl⟩ := h.journal_some (j := { nextKey := c.nextKey }) (by simp [begin_of_none hj])
  rw [List.append_nil] at hp
  refine ⟨_, changes?_of_journal hp, ?_, ?_⟩
  · exact h.shape_eq.1.trans c.begin_name
  · exact exact_changes (h.ordered (ordered_begin.2 hc)) hp
      (fun e he => h.proper e.1 (List.mem_map_of_mem he)) (changes?_of_journal hp)

/-- **The changes made to another copy give the changed container.** -/
theorem apply_changes (hc : c.Ordered) (hj : c.journal = none) (h : Edited c.begin ks d) {changes : Changes}
    (hch : d.changes? = some changes) : c.apply changes = d.commit := by
  obtain ⟨p, hp, rfl⟩ := h.journal_some (j := { nextKey := c.nextKey }) (by simp [begin_of_none hj])
  rw [List.append_nil] at hp
  have hpp : ∀ e ∈ p, e.1.Proper := fun e he => h.proper e.1 (List.mem_map_of_mem he)
  rw [changes?_of_journal hp] at hch
  cases hch
  obtain ⟨hname, hkey, hauto⟩ := h.shape_eq
  rw [begin_name] at hname
  rw [begin_keyPath] at hkey
  rw [begin_autoIncrement] at hauto
  have htp : ∀ k ∈ Journal.touched ⟨c.nextKey, p⟩, k.Proper := fun k hk =>
    h.proper k ((Journal.mem_touched hpp).1 hk)
  have hrecords := foldl_changes hc (h.ordered (ordered_begin.2 hc)) htp (Journal.touched_ascending hpp)
    fun k hk hks => by
      rw [h.find?_eq (ordered_begin.2 hc) hk fun h' => hks ((Journal.mem_touched hpp).2 h'), begin_records]
  simp only [apply, commit, hrecords, hname, hkey, hauto, hj]

end Edited

end Container

end TableStore
