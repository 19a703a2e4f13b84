import TableStore.Proofs.ChangeSets
import TableStore.Proofs.RecordColumns
import TableStore.Proofs.SettledRecords

/-!
# The columns of what is held

- a record that is read back has the columns that it had, so what a keyspace gives is within the columns of what it
  holds (`Record.names_reread`, `Keyspace.Holds.within_of_load`);
- a keyspace holds records that need not be those of the live image, since the text of a real may be read as another
  one. So a commit is followed in both: what changes make of a key that they name does not depend on the container, and
  any other record of the outcome was there before (`Container.find?_apply_congr`, `Image.Drawn`);
- an image with the frame of the live one stays within the same columns through the same changes
  (`Image.Within.applied`).
-/

namespace TableStore

/-! ## Records that are read back -/

/-- A record that is read back has the columns that it had. -/
theorem Record.names_reread {r s : Record} (h : r.reread? = some s) : s.names = r.names := by
  have hnames : ∀ {cs ds : List (String × Value)},
      List.Forall₂ (fun c d => d.1 = c.1 ∧ c.2.reread? = some d.2) cs ds → ds.map Prod.fst = cs.map Prod.fst := by
    intro cs ds hcells
    induction hcells with
    | nil => rfl
    | cons hc _ ih => rw [List.map_cons, List.map_cons, hc.1, ih]
  exact hnames (cells_reread h)

namespace Container.Confined

variable {X : Set String} {c d : Container} {r : Record}

theorem restore (hc : c.Confined X) (hr : ∀ x ∈ r.names, x ∈ X ∨ x = c.keyPath) (h : c.restore r = .ok d) :
    d.Confined X ∧ d.keyPath = c.keyPath := by
  unfold Container.restore at h
  split at h
  · cases h
  · rename_i hk
    cases h
    refine ⟨fun s hs x hx => ?_, rfl⟩
    rcases OrderedMap.of_mem_values_insert hs with rfl | hs
    · rcases (mem_names_of_keyed hk).1 hx with hx | rfl
      · exact hr x hx
      · exact .inr rfl
    · exact hc s hs x hx

theorem readRecords : ∀ {rs : List Record} {c : Container}, c.Confined X →
    (∀ r ∈ rs, ∀ x ∈ r.names, x ∈ X ∨ x = c.keyPath) →
    Keyspace.readRecords c (rs.map Keyspace.writeRecord) = .ok d → d.Confined X
  | [], c, hc, _, h => by
    cases h
    exact hc
  | r :: rs, c, hc, hrs, h => by
    obtain ⟨hr, hrs⟩ := List.forall_mem_cons.1 hrs
    have hread : Json.readRecord? (Keyspace.writeRecord r).toList = r.reread? := by
      rw [Keyspace.writeRecord, String.toList_ofList, Json.readRecord?_writeRecord]
    rw [List.map_cons, Keyspace.readRecords, hread] at h
    cases hs : r.reread? with
    | none =>
      rw [hs] at h
      cases h
    | some s =>
      rw [hs] at h
      dsimp only at h
      cases hc' : c.restore s with
      | error e =>
        rw [hc'] at h
        cases h
      | ok c' =>
        rw [hc'] at h
        rw [← Record.names_reread hs] at hr
        obtain ⟨hconfined, hpath⟩ := hc.restore hr hc'
        exact hconfined.readRecords (fun r hr x hx => by rw [hpath]; exact hrs r hr x hx) h

end Container.Confined

namespace Image

variable {S S' : String → Set String} {i j : Image}

theorem SameFrame.columnsOf_eq (h : i.SameFrame j) (table : String) :
    Query.columnsOf i table = Query.columnsOf j table := by
  have hcolumns : ∀ i : Image, Query.columnsOf i table = ((i.catalog.find? table).map Table.columnNames).getD [] :=
    fun i => by
      rw [Query.columnsOf]
      cases i.catalog.find? table <;> rfl
  rw [hcolumns, hcolumns, h.columns]

theorem SameFrame.bound_eq (h : i.SameFrame j) (table : String) : i.bound S table = j.bound S table := by
  rw [bound, bound, h.columnsOf_eq]

theorem SameFrame.keyPath_eq (h : i.SameFrame j) {name : String} {c d : Container} (hc : i.find? name = some c)
    (hd : j.find? name = some d) : c.keyPath = d.keyPath := by
  have hframe := h.frames name
  rw [hc, hd] at hframe
  exact congrArg Prod.fst (Option.some.inj hframe)

end Image

namespace Keyspace

open OrderedMap

variable {S : String → Set String} {k : Keyspace} {i j : Image}

/-- **What is loaded stays within the columns that the records had.** -/
theorem Holds.within_of_load (h : k.Holds i) (hi : i.catalog.Filed) (hw : i.Within S)
    (hl : k.load = .ok (some j)) : j.Within S := by
  obtain ⟨hframe, -, -⟩ := h.load_sound hi hl
  obtain ⟨v, hv⟩ : ∃ v, k.version = some v := by
    refine Option.ne_none_iff_exists'.1 fun hn => ?_
    rw [load, hn] at hl
    cases hl
  obtain ⟨catalog, containers, -, hcs, rfl⟩ := (load_eq_some_iff hv).1 hl
  intro name d hd
  obtain ⟨c, hc⟩ : ∃ c, i.find? name = some c := by
    refine Option.isSome_iff_exists.1 ((hframe.isSome_find? name).trans ?_)
    rw [hd]
    rfl
  rw [← hframe.bound_eq]
  rcases find?_readShelves sorted_empty h.files.shelves_sorted.nodup_keys hcs name with
    ⟨-, hf⟩ | ⟨shelf, d', hmem, hread, hf⟩
  · cases (hf.symm.trans hd : none = some d)
  · obtain rfl : d' = d := Option.some.inj (hf.symm.trans hd)
    have hkeeps := h.files.keeps ((h.files.shelves_sorted.find?_eq_some trivial).2 hmem) hc
    obtain ⟨es, hes, hsub⟩ := hkeeps.kept.exists_entries
    have hvalues : (k.texts shelf.partition).values = (es.map Prod.snd).map writeRecord := by
      rw [OrderedMap.values, hes, List.map_map, List.map_map]
      rfl
    rw [readShelf, hvalues] at hread
    refine Container.Confined.readRecords (fun _ h => absurd h List.not_mem_nil) (fun r hr x hx => ?_) hread
    have hpath : shelf.keyPath = c.keyPath := by rw [hkeeps.shelf_eq]
    rw [hpath]
    exact hw name c hc r (List.map_subset Prod.snd hsub.subset hr) x hx

end Keyspace

/-! ## Changes of what is held -/

/-- What was put in last for a key does not depend on what was there. -/
theorem OrderedMap.Sorted.find?_foldl_insert_congr {κ α : Type} [Ord κ] [DecidableEq κ] {P : κ → Prop} [LawfulOn P]
    {m n : OrderedMap κ α} (hm : m.Sorted P) (hn : n.Sorted P) {es : List (κ × α)} (hes : ∀ e ∈ es, P e.1) {k : κ}
    (hk : k ∈ es.map Prod.fst) :
    (es.foldl (fun m e => m.insert e.1 e.2) m).find? k = (es.foldl (fun m e => m.insert e.1 e.2) n).find? k := by
  induction es generalizing m n with
  | nil => simp at hk
  | cons e es ih =>
    obtain ⟨he, hes⟩ := List.forall_mem_cons.1 hes
    have hm' := hm.insert he e.2
    have hn' := hn.insert he e.2
    by_cases hrest : k ∈ es.map Prod.fst
    · exact ih hm' hn' hes hrest
    · have hke : k = e.1 := by simpa [hrest] using hk
      subst hke
      rw [List.foldl_cons, List.foldl_cons, hm'.find?_foldl_insert_of_notMem hes he hrest,
        hn'.find?_foldl_insert_of_notMem hes he hrest, hm.find?_insert he e.2 he, hn.find?_insert he e.2 he,
        if_pos rfl, if_pos rfl]

theorem Changes.Exact.distinct {u : Changes} {ks : List Key} (h : u.Exact ks) : u.Distinct where
  proper k hk := h.proper k ((h.mem_iff k).1 (List.mem_append.1 hk))
  nodup := by
    refine List.nodup_append.2 ⟨?_, ?_, fun k hk l hl hkl => h.disjoint l hl (hkl ▸ hk)⟩
    · exact h.put_ascending.nodup fun k hk => h.proper k ((h.mem_iff k).1 (.inl hk))
    · exact h.deleted_ascending.nodup h.proper_deleted

namespace Container

variable {c d : Container} {u : Changes} {k : Key}

theorem Ordered.apply (hc : c.Ordered) (hu : u.Distinct) : (c.apply u).Ordered :=
  (OrderedMap.Sorted.foldl_insert hc hu.proper_put).foldl_erase hu.proper_deleted

/-- What changes make of a key that they name does not depend on the container. -/
theorem find?_apply_congr (hc : c.Ordered) (hd : d.Ordered) (hu : u.Distinct) (hk : k ∈ u.keys) :
    (c.apply u).find? k = (d.apply u).find? k := by
  rw [find?_apply hc hu (hu.proper k hk), find?_apply hd hu (hu.proper k hk)]
  split
  · rfl
  · rename_i hdeleted
    have hput : k ∈ u.put.map Prod.fst := (List.mem_append.1 hk).resolve_right hdeleted
    exact hc.find?_foldl_insert_congr hd hu.proper_put hput

end Container

namespace Image

variable {S S' : String → Set String} {i j l : Image} {u : Changes} {changes : ChangeSet}

theorem Ordered.of_find? (hi : i.containers.Sorted fun _ => True) (h : ∀ name c, i.find? name = some c → c.Ordered) :
    i.Ordered where
  sorted := hi
  each c hc := by
    obtain ⟨name, -, hname⟩ := hi.mem_values.1 hc
    exact h name c hname

theorem Ordered.update (hi : i.Ordered) (hu : u.Distinct) : (i.update u).Ordered where
  sorted := sorted_update hi.sorted u
  each := by
    rw [Image.update]
    cases hc : i.find? u.name with
    | none => exact hi.each
    | some c => exact hi.each.set ((hi.each.of_find? hc).apply hu)

theorem Ordered.foldl_update (hi : i.Ordered) {updated : List Changes} (hu : ∀ u ∈ updated, u.Distinct) :
    (updated.foldl Image.update i).Ordered := by
  induction updated generalizing i with
  | nil => exact hi
  | cons u updated ih =>
    obtain ⟨hu, hrest⟩ := List.forall_mem_cons.1 hu
    exact ih (hi.update hu) hrest

theorem Ordered.renewed (hi : i.Ordered) (hcreated : ∀ c ∈ changes.created, c.Ordered) :
    (i.renewed changes).Ordered :=
  .of_find? (sorted_renewed hi.sorted changes) fun _ _ hc => ordered_renewed hi hcreated hc

theorem Sound.image_ordered (hi : i.Sound) : i.Ordered :=
  .of_find? hi.sorted fun _ _ hc => (hi.settled hc).ordered

/-- The records of an image are those of a second one in the same places, or come from the table of a third one. -/
def Drawn (j i l : Image) : Prop := ∀ name d, l.find? name = some d → ∀ k : Key, k.Proper → ∀ r, d.find? k = some r →
  (∃ c, j.find? name = some c ∧ c.find? k = some r) ∨
    ∃ c, i.find? name = some c ∧ d.keyPath = c.keyPath ∧ r ∈ c.scan

theorem Drawn.update (h : Drawn j i l) (hj : j.Ordered) (hl : l.Ordered) (hu : u.Distinct)
    (hsame : ∀ name, (l.find? name).isSome → (j.find? name).isSome) : Drawn (j.update u) i (l.update u) := by
  intro name d hd k hk r hr
  rw [find?_update hl.sorted] at hd
  rw [find?_update hj.sorted]
  split at hd
  · rename_i hname
    obtain ⟨c, hc, rfl⟩ := Option.map_eq_some_iff.1 hd
    obtain ⟨b, hb⟩ := Option.isSome_iff_exists.1 (hsame name (by rw [hc]; rfl))
    have hc' := hl.each.of_find? hc
    have hb' := hj.each.of_find? hb
    rw [if_pos hname, hb]
    by_cases hkeys : k ∈ u.keys
    · rw [Container.find?_apply_congr hc' hb' hu hkeys] at hr
      exact .inl ⟨_, rfl, hr⟩
    · rw [Container.find?_apply_of_notMem hc' hu hk hkeys] at hr
      refine (h name c hc k hk r hr).imp_left fun ⟨a, ha, har⟩ => ⟨_, rfl, ?_⟩
      obtain rfl := Option.some.inj (ha.symm.trans hb)
      rwa [Container.find?_apply_of_notMem hb' hu hk hkeys]
  · rename_i hname
    rw [if_neg hname]
    exact h name d hd k hk r hr

theorem Drawn.foldl_update (updated : List Changes) (hu : ∀ u ∈ updated, u.Distinct) (h : Drawn j i l) (hj : j.Ordered)
    (hl : l.Ordered) (hsame : l.SameFrame j) :
    Drawn (updated.foldl Image.update j) i (updated.foldl Image.update l) := by
  induction updated generalizing j l with
  | nil => exact h
  | cons u updated ih =>
    obtain ⟨hu, hrest⟩ := List.forall_mem_cons.1 hu
    refine ih hrest (h.update hj hl hu fun name hn => ?_) (hj.update hu) (hl.update hu)
      (hsame.foldl_update hl.sorted hj.sorted [u])
    rwa [← hsame.isSome_find?]

/-- Containers that are created are the same in both, and the others are what they were. -/
theorem drawn_renewed (hj : j.containers.Sorted fun _ => True) (hl : l.containers.Sorted fun _ => True) :
    Drawn (j.renewed changes) l (l.renewed changes) := by
  intro name d hd k hk r hr
  by_cases hmem : name ∈ changes.created.map Container.name
  · have hcongr : (l.renewed changes).find? name = (j.renewed changes).find? name := by
      have hnames : name ∈ (changes.created.map fun c => (c.name, c)).map Prod.fst := by simpa using hmem
      rw [find?_renewed, find?_renewed]
      exact (sorted_foldl_erase hl _).find?_foldl_insert_congr (sorted_foldl_erase hj _) (fun _ _ => trivial) hnames
    rw [hcongr] at hd
    exact .inl ⟨d, hd, hr⟩
  · rw [find?_renewed_of_notMem hl hmem] at hd
    split at hd
    · cases hd
    · exact .inr ⟨d, hd, rfl, OrderedMap.mem_values_of_find? hr⟩

/-- **An image with the same frame stays within the same columns through the same changes.** -/
theorem Within.applied (hw : l.Within S) (hl : l.Ordered) (hi : i.Ordered) (hframe : l.SameFrame i)
    (hf : changes.Fits i j) (hj : j.Within S')
    (hgrows : ∀ name c d, i.find? name = some c → j.find? name = some d → i.bound S name ⊆ j.bound S' name) :
    (l.applied changes).Within S' := by
  have hdistinct : ∀ u ∈ changes.updated, u.Distinct := fun u hu => by
    obtain ⟨ks, hks⟩ := hf.exact u hu
    exact hks.distinct
  have hdrawn : Drawn j l (l.applied changes) := by
    rw [← hf.applied_eq]
    exact (drawn_renewed hi.sorted hl.sorted).foldl_update changes.updated hdistinct (hi.renewed hf.ordered)
      (hl.renewed hf.ordered) (hframe.renewed hl.sorted hi.sorted changes)
  have hframe' := hframe.applied hl.sorted hi.sorted changes
  rw [hf.applied_eq] at hframe'
  intro name d hd r hr x hx
  rw [hframe'.bound_eq]
  have hordered := (hl.renewed hf.ordered).foldl_update hdistinct
  obtain ⟨k, hk, hfind⟩ := (hordered.each.of_find? hd).mem_values.1 hr
  rcases hdrawn name d hd k hk r hfind with ⟨c, hc, hcr⟩ | ⟨c, hc, hpath, hcr⟩
  · rw [hframe'.keyPath_eq hd hc]
    exact hj name c hc r (OrderedMap.mem_values_of_find? hcr) x hx
  · obtain ⟨b, hb⟩ := Option.isSome_iff_exists.1 ((hframe.isSome_find? name).symm.trans (by rw [hc]; rfl))
    obtain ⟨e, he⟩ := Option.isSome_iff_exists.1 ((hframe'.isSome_find? name).symm.trans (by rw [hd]; rfl))
    rw [hpath]
    refine (hw name c hc r hcr x hx).imp_left fun hx => hgrows name b e hb he ?_
    rwa [← hframe.bound_eq]

end Image

end TableStore
