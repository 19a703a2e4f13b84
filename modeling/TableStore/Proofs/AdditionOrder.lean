import TableStore.Proofs.Replay
import TableStore.Proofs.TakenKeys

/-!
# Records added in any order

- the key of a value is ordered with every key that is no NaN (`Key.compare_eq_gt_of_lt`), so entries with two such keys
  are set in either order (`OrderedMap.insertIn_comm`), and setting one does not change what is found for the other
  (`OrderedMap.findIn_insertIn_of_ne`);
- the rule by which an integer moves the generator and the rule for a real both take a maximum that does not depend on
  where the generator stands, so two keys move it to the same place in either order (`Container.nextKeyAfter_comm`);
- records with different keys that are free are all added (`Container.addEach_eq`), and a permutation of them leads to
  the same records and the same next key (`Container.addition_order_is_free`).
-/

namespace TableStore

/-! ## Keys of values among other keys -/

namespace Key

/-- What is not above a key is below every greater one. -/
theorem compare_eq_gt_of_lt {a b e : Key} (ha : a.Proper) (hb : b.Proper) (he : e.Comparable) (hab : compare a b = .lt)
    (hae : compare a e ≠ .lt) : compare b e = .gt := by
  rw [compare_of_proper ha hb.comparable] at hab
  rw [compare_of_proper ha he] at hae
  rw [compare_of_proper hb he]
  have hea : (compareParts e a).isLE := Ordering.isLE_iff_ne_gt.2 fun h => hae (Std.OrientedCmp.lt_of_gt h)
  exact Std.OrientedCmp.gt_of_lt (Std.TransCmp.lt_of_isLE_of_lt hea hab)

end Key

/-! ## Entries set in either order -/

namespace OrderedMap

open Key

variable {α : Type} {k l : Key} {m : List (Key × α)}

theorem insertIn_comm_of_lt (hk : k.Proper) (hl : l.Proper) (hkl : compare k l = .lt) (a b : α) :
    ∀ {m : List (Key × α)}, AllComparable m → insertIn k a (insertIn l b m) = insertIn l b (insertIn k a m) := by
  have hlk : compare l k = .gt := LawfulOn.gt_of_lt hk hl hkl
  intro m hm
  induction m with
  | nil => simp [insertIn, hkl, hlk]
  | cons e rest ih =>
    obtain ⟨he, hrest⟩ := List.forall_mem_cons.1 hm
    cases hke : compare k e.1 with
    | lt => cases hle : compare l e.1 <;> simp [insertIn, hke, hle, hkl, hlk]
    | eq =>
      have hle : compare l e.1 = .gt := compare_eq_gt_of_lt hk hl he hkl (by simp [hke])
      simp [insertIn, hke, hle]
    | gt =>
      have hle : compare l e.1 = .gt := compare_eq_gt_of_lt hk hl he hkl (by simp [hke])
      simp [insertIn, hke, hle, ih hrest]

/-- **Different keys of values are set in either order.** -/
theorem insertIn_comm (hk : k.Proper) (hl : l.Proper) (hne : k ≠ l) (a b : α) (hm : AllComparable m) :
    insertIn k a (insertIn l b m) = insertIn l b (insertIn k a m) := by
  cases hkl : compare k l with
  | lt => exact insertIn_comm_of_lt hk hl hkl a b hm
  | eq => exact absurd (LawfulOn.eq_of_compare hk hl hkl) hne
  | gt => exact (insertIn_comm_of_lt hl hk (LawfulOn.lt_of_gt hk hl hkl) b a hm).symm

/-- Setting a key does not change what is found for another. -/
theorem findIn_insertIn_of_ne (hk : k.Proper) (hl : l.Proper) (hne : k ≠ l) (b : α) (hm : AllComparable m) :
    findIn k (insertIn l b m) = findIn k m := by
  have hkl : compare k l ≠ .eq := fun h => hne (LawfulOn.eq_of_compare hk hl h)
  induction m with
  | nil => cases h : compare k l <;> simp_all [insertIn, findIn]
  | cons e rest ih =>
    obtain ⟨he, hrest⟩ := List.forall_mem_cons.1 hm
    have hrest' := ih hrest
    cases hle : compare l e.1 with
    | lt =>
      cases h : compare k l with
      | eq => exact absurd h hkl
      | gt => simp [insertIn, findIn, hle, h]
      | lt =>
        -- the key is below the one that is set, and so below the entry behind it
        have hke : compare k e.1 = .lt := by
          by_contra hke
          have := compare_eq_gt_of_lt hk hl he h hke
          simp [hle] at this
        simp [insertIn, findIn, hle, h, hke]
    | eq =>
      cases hke : compare k e.1 with
      | eq =>
        rw [compare_of_proper hl he] at hle
        rw [compare_of_proper hk he] at hke
        refine absurd ?_ hkl
        rw [compare_of_proper hk hl.comparable, Std.TransCmp.congr_left hke]
        exact Std.OrientedCmp.eq_symm hle
      | lt => simp [insertIn, findIn, hle, hke]
      | gt => simp [insertIn, findIn, hle, hke]
    | gt => cases hke : compare k e.1 <;> simp [insertIn, findIn, hle, hke, hrest']

theorem find?_insert_of_ne {m : OrderedMap Key α} (hk : k.Proper) (hl : l.Proper) (hne : k ≠ l) (b : α)
    (hm : AllComparable m.entries) : (m.insert l b).find? k = m.find? k :=
  congrArg (Option.map Prod.snd) (findIn_insertIn_of_ne hk hl hne b hm)

/-- **Entries with different keys are set in any order.** -/
theorem foldl_insert_perm {es es' : List (Key × α)} (h : es.Perm es') :
    ∀ {m : OrderedMap Key α}, AllComparable m.entries → (∀ e ∈ es, e.1.Proper) → (es.map Prod.fst).Nodup →
      es.foldl (fun m e => m.insert e.1 e.2) m = es'.foldl (fun m e => m.insert e.1 e.2) m := by
  induction h with
  | nil => intros; rfl
  | cons e _ ih =>
    intro m hm hes hnd
    obtain ⟨he, hes⟩ := List.forall_mem_cons.1 hes
    exact ih (hm.insertIn he.comparable e.2) hes (List.nodup_cons.1 hnd).2
  | swap e f es =>
    intro m hm hes hnd
    have hne : e.1 ≠ f.1 := fun h => by simp [h] at hnd
    have hcomm : (m.insert f.1 f.2).insert e.1 e.2 = (m.insert e.1 e.2).insert f.1 f.2 :=
      congrArg OrderedMap.mk (insertIn_comm (hes e (by simp)) (hes f (by simp)) hne e.2 f.2 hm)
    simp only [List.foldl_cons, hcomm]
  | trans hes₁ _ ih₁ ih₂ =>
    intro m hm hes hnd
    rw [ih₁ hm hes hnd]
    exact ih₂ hm (fun e he => hes e (hes₁.mem_iff.2 he)) ((hes₁.map Prod.fst).nodup_iff.1 hnd)

end OrderedMap

/-! ## The generator -/

namespace Container

open OrderedMap

theorem passed_comm (next : Int) (k l : Key) : passed (passed next k) l = passed (passed next l) k := by
  cases k <;> cases l <;> simp only [passed] <;> (try split) <;> (try split) <;> omega

/-- **Two keys move the generator to the same place in either order.** -/
theorem nextKeyAfter_comm (next : Int64) {k l : Key} (hk : k.Proper) (hl : l.Proper) :
    nextKeyAfter (nextKeyAfter next k) l = nextKeyAfter (nextKeyAfter next l) k := by
  apply Int64.toInt_inj.1
  calc (nextKeyAfter (nextKeyAfter next k) l).toInt
      = passed (passed next.toInt k) l := by rw [toInt_nextKeyAfter _ hl, toInt_nextKeyAfter _ hk]
    _ = passed (passed next.toInt l) k := passed_comm next.toInt k l
    _ = (nextKeyAfter (nextKeyAfter next l) k).toInt := by rw [toInt_nextKeyAfter _ hk, toInt_nextKeyAfter _ hl]

/-! ## Bulk loads -/

/-- The container with some records added one after another. -/
def addEach : List Record → Container → Except Error Container
  | [], c => .ok c
  | r :: rs, c =>
    match c.add r with
    | .error e => .error e
    | .ok (_, d) => addEach rs d

/-- The key that the key column of a record holds. -/
def keyOf? (c : Container) (r : Record) : Option Key := Key.ofValue? (r.valueOf c.keyPath)

/-- The container with some records under some keys, stored one after another. -/
def storeEach (es : List (Key × Record)) (c : Container) : Container := es.foldl (fun c e => c.store e.1 e.2) c

/-- Records with the keys that they hold. -/
def filed (c : Container) (rs : List Record) : List (Key × Record) :=
  rs.filterMap fun r => (c.keyOf? r).map (·, r)

variable {c : Container} {es es' : List (Key × Record)} {rs rs' : List Record}

/-- Stores touch the records, the next key and the journal. -/
theorem storeEach_eq (es : List (Key × Record)) (c : Container) : ∃ journal, storeEach es c =
    { c with
      nextKey := if c.autoIncrement then (es.map Prod.fst).foldl nextKeyAfter c.nextKey else c.nextKey
      records := es.foldl (fun m e => m.insert e.1 e.2) c.records
      journal := journal } ∧ (c.journal = none → journal = none) := by
  induction es generalizing c with
  | nil => exact ⟨c.journal, by simp [storeEach], id⟩
  | cons e es ih =>
    obtain ⟨journal, heq, hnone⟩ := ih (c.store e.1 e.2)
    refine ⟨journal, ?_, fun h => hnone ?_⟩
    · rw [storeEach, List.foldl_cons, ← storeEach, heq]
      cases hauto : c.autoIncrement <;> simp [store, note, hauto]
    · simp [store, note, h]

theorem mem_filed {e : Key × Record} : e ∈ c.filed rs ↔ e.2 ∈ rs ∧ c.keyOf? e.2 = some e.1 := by
  obtain ⟨k, r⟩ := e
  simp only [filed, List.mem_filterMap, Option.map_eq_some_iff, Prod.mk.injEq]
  constructor
  · rintro ⟨r', hr', k', hk', rfl, rfl⟩
    exact ⟨hr', hk'⟩
  · rintro ⟨hr, hk⟩
    exact ⟨r, hr, k, hk, rfl, rfl⟩

/-- Records whose keys differ have entries with different keys. -/
theorem nodup_filed (hdiff : rs.Pairwise fun r s => c.keyOf? r ≠ c.keyOf? s) :
    ((c.filed rs).map Prod.fst).Nodup := by
  refine List.pairwise_map.2 (List.Pairwise.filterMap _ (fun r s hne => ?_) hdiff)
  intro e he f hf hef
  simp only [Option.map_eq_some_iff] at he hf
  obtain ⟨k, hk, rfl⟩ := he
  obtain ⟨l, hl, rfl⟩ := hf
  exact hne (by rw [hk, hl, show k = l from hef])

/-- **Records with different keys that are free are all added.** -/
theorem addEach_eq (hc : AllComparable c.records.entries)
    (hfree : ∀ r ∈ rs, ∃ k, c.keyOf? r = some k ∧ c.records.contains k = false)
    (hdiff : rs.Pairwise fun r s => c.keyOf? r ≠ c.keyOf? s) :
    addEach rs c = .ok (storeEach (c.filed rs) c) := by
  induction rs generalizing c with
  | nil => rfl
  | cons r rs ih =>
    obtain ⟨⟨k, hk, hkfree⟩, hfree⟩ := List.forall_mem_cons.1 hfree
    obtain ⟨hr, hdiff⟩ := List.pairwise_cons.1 hdiff
    have hproper : k.Proper := Key.proper_of_ofValue? hk
    have hadd : c.add r = .ok (k, c.store k r) := by
      refine add_of_ofValue? hk ?_
      simpa [contains_eq_isSome] using hkfree
    have hcomparable : AllComparable (c.store k r).records.entries := hc.insertIn hproper.comparable r
    have hstill : ∀ s ∈ rs, ∃ l, (c.store k r).keyOf? s = some l ∧ (c.store k r).records.contains l = false := by
      intro s hs
      obtain ⟨l, hl, hlfree⟩ := hfree s hs
      have hne : l ≠ k := fun h => hr s hs (by rw [hk, hl, h])
      refine ⟨l, hl, ?_⟩
      rw [contains_eq_isSome] at hlfree ⊢
      rw [← hlfree]
      exact congrArg Option.isSome (find?_insert_of_ne (Key.proper_of_ofValue? hl) hproper hne r hc)
    have hentries : c.filed (r :: rs) = (k, r) :: c.filed rs := by simp [filed, hk]
    rw [addEach, hadd, hentries]
    exact ih hcomparable hstill hdiff

/-- Stored records are found under their keys. -/
theorem find?_foldl_insert_of_mem {m : OrderedMap Key Record} (hm : AllComparable m.entries)
    (hes : ∀ e ∈ es, e.1.Proper) (hnd : (es.map Prod.fst).Nodup) {e : Key × Record} (he : e ∈ es) :
    (es.foldl (fun m e => m.insert e.1 e.2) m).find? e.1 = some e.2 := by
  -- the entry may as well be set last
  obtain ⟨before, after, rfl⟩ := List.append_of_mem he
  have hlast : (before ++ e :: after).Perm (before ++ after ++ [e]) := by
    rw [List.append_assoc]
    exact (List.perm_append_singleton e after).symm.append_left before
  rw [foldl_insert_perm hlast hm hes hnd, List.foldl_append]
  exact find?_insert_self _ e.1 e.2

/-- Stores leave alone what other keys hold. -/
theorem find?_foldl_insert_of_notMem (hes : ∀ e ∈ es, e.1.Proper) {k : Key} (hk : k.Proper)
    (hnot : ∀ e ∈ es, e.1 ≠ k) : ∀ {m : OrderedMap Key Record}, AllComparable m.entries →
    (es.foldl (fun m e => m.insert e.1 e.2) m).find? k = m.find? k := by
  induction es with
  | nil => intros; rfl
  | cons e es ih =>
    intro m hm
    obtain ⟨he, hes⟩ := List.forall_mem_cons.1 hes
    obtain ⟨hne, hnot⟩ := List.forall_mem_cons.1 hnot
    have hrest := ih hes hnot (m := m.insert e.1 e.2) (hm.insertIn he.comparable e.2)
    rw [List.foldl_cons, hrest]
    exact find?_insert_of_ne hk he hne.symm e.2 hm

/-- Stores in another order differ in the journal only. -/
theorem storeEach_perm (hc : AllComparable c.records.entries) (hes : ∀ e ∈ es, e.1.Proper)
    (hnd : (es.map Prod.fst).Nodup) (h : es.Perm es') :
    (storeEach es c).commit = (storeEach es' c).commit ∧ (c.journal = none → storeEach es c = storeEach es' c) := by
  obtain ⟨journal, heq, hnone⟩ := storeEach_eq es c
  obtain ⟨journal', heq', hnone'⟩ := storeEach_eq es' c
  have hrecords := foldl_insert_perm h hc hes hnd
  have hnext : (es.map Prod.fst).foldl nextKeyAfter c.nextKey = (es'.map Prod.fst).foldl nextKeyAfter c.nextKey := by
    refine (h.map Prod.fst).foldl_eq' (fun k hk l hl next => ?_) c.nextKey
    obtain ⟨e, he, rfl⟩ := List.mem_map.1 hk
    obtain ⟨f, hf, rfl⟩ := List.mem_map.1 hl
    exact nextKeyAfter_comm next (hes e he) (hes f hf)
  rw [heq, heq', hrecords, hnext]
  exact ⟨rfl, fun hj => by rw [hnone hj, hnone' hj]⟩

/-- **The order in which records are added is free.** Let no key of a container be a NaN, which no value is the key of,
and let some records hold different keys that the container does not have. Then all of them are added, and in any other
order too. Both ways lead to containers that hold the same records under the same keys and have the same next key; only
an open journal tells the order. The records are found under their keys, and other keys hold what they held. -/
theorem addition_order_is_free (hc : AllComparable c.records.entries)
    (hfree : ∀ r ∈ rs, ∃ k, c.keyOf? r = some k ∧ c.records.contains k = false)
    (hdiff : rs.Pairwise fun r s => c.keyOf? r ≠ c.keyOf? s) (hperm : rs.Perm rs') :
    ∃ d d', addEach rs c = .ok d ∧ addEach rs' c = .ok d' ∧
      (d.records = d'.records ∧ d.nextKey = d'.nextKey ∧ d.commit = d'.commit ∧ (c.journal = none → d = d')) ∧
      (∀ r ∈ rs, ∀ k, c.keyOf? r = some k → d.records.find? k = some r) ∧
      ∀ k : Key, k.Proper → (∀ r ∈ rs, c.keyOf? r ≠ some k) → d.records.find? k = c.records.find? k := by
  have hadd := addEach_eq hc hfree hdiff
  have hadd' := addEach_eq hc (fun r hr => hfree r (hperm.mem_iff.2 hr)) ((hperm.pairwise_iff fun h => h.symm).1 hdiff)
  have hes : ∀ e ∈ c.filed rs, e.1.Proper := fun e he => Key.proper_of_ofValue? (mem_filed.1 he).2
  have hnd := nodup_filed hdiff
  obtain ⟨hcommit, hclosed⟩ := storeEach_perm hc hes hnd (hperm.filterMap _)
  obtain ⟨journal, heq, -⟩ := storeEach_eq (c.filed rs) c
  have hrecords : (storeEach (c.filed rs) c).records = (c.filed rs).foldl (fun m e => m.insert e.1 e.2) c.records := by
    rw [heq]
  refine ⟨_, _, hadd, hadd', ⟨congrArg (·.records) hcommit, congrArg (·.nextKey) hcommit, hcommit, hclosed⟩, ?_, ?_⟩
  · intro r hr k hk
    rw [hrecords]
    exact find?_foldl_insert_of_mem hc hes hnd (mem_filed.2 ⟨hr, hk⟩ : (k, r) ∈ c.filed rs)
  · intro k hk hnot
    rw [hrecords]
    refine find?_foldl_insert_of_notMem hes hk (fun e he h => ?_) hc
    obtain ⟨hr, hkey⟩ := mem_filed.1 he
    exact hnot e.2 hr (h ▸ hkey)

/-- A container with a generator that has not come to 1, and with a journal. -/
def withDebt : Container :=
  ({ name := "t", keyPath := "id", autoIncrement := true, nextKey := Int64.minValue,
     records := .ofList [(.integer (-4), .ofList [("id", .integer (-4))])] } : Container).begin

/-- Records with integers up to the greatest one, fractions, infinities and a text in their key columns. -/
def mixedRecords : List Record :=
  [.ofList [("id", .integer Int64.maxValue)], .ofList [("id", .real ⟨0x432FFFFFFFFFFFFF⟩)],
    .ofList [("id", .real ⟨0x7FF0000000000000⟩)], .ofList [("id", .text "9"), ("a", .null)],
    .ofList [("id", .real ⟨0xFFF0000000000000⟩)], .ofList [("id", .real ⟨0xC004000000000000⟩)],
    .ofList [("id", .integer Int64.minValue)], .ofList [("id", .integer (Int64.maxValue - 1))],
    .ofList [("id", .real ⟨0x4004000000000000⟩)], .ofList [("a", .integer 3), ("id", .real ⟨0x4014000000000000⟩)]]

/-- Keys of all kinds are added in either direction. -/
theorem mixed_records_are_added_in_any_order : ∃ d d', addEach mixedRecords withDebt = .ok d ∧
    addEach mixedRecords.reverse withDebt = .ok d' ∧ d.commit = d'.commit ∧ d ≠ d' ∧
    d.nextKey = Int64.maxValue ∧ d.records.size = 11 ∧
    d.records.find? (.integer 5) = some (.ofList [("a", .integer 3), ("id", .real ⟨0x4014000000000000⟩)]) := by
  have hcomparable : AllComparable withDebt.records.entries := by
    have hentries : withDebt.records.entries.map Prod.fst = [.integer (-4)] := by decide +kernel
    intro e he
    have hkey := List.mem_map_of_mem (f := Prod.fst) he
    rw [hentries, List.mem_singleton] at hkey
    rw [hkey]
    trivial
  have hfree : ∀ r ∈ mixedRecords, (withDebt.keyOf? r).any (fun k => !withDebt.records.contains k) := by
    decide +kernel
  have hkeys : ∀ r ∈ mixedRecords, ∃ k, withDebt.keyOf? r = some k ∧ withDebt.records.contains k = false := by
    intro r hr
    obtain ⟨k, hk, hcontains⟩ := Option.any_eq_true _ _ |>.1 (hfree r hr)
    exact ⟨k, hk, by simpa using hcontains⟩
  obtain ⟨d, d', hd, hd', ⟨-, -, hcommit, -⟩, hfound, -⟩ := addition_order_is_free hcomparable hkeys
    (by decide +kernel) mixedRecords.reverse_perm.symm
  have hend : (addEach mixedRecords withDebt).toOption.map (fun d => (d.nextKey, d.records.size)) =
      some (Int64.maxValue, 11) := by decide +kernel
  have hjournals : (addEach mixedRecords withDebt).toOption ≠ (addEach mixedRecords.reverse withDebt).toOption := by
    decide +kernel
  rw [hd] at hend hjournals
  rw [hd'] at hjournals
  simp only [Except.toOption, Option.map_some, Option.some.injEq, Prod.mk.injEq, ne_eq] at hend hjournals
  exact ⟨d, d', hd, hd', hcommit, hjournals, hend.1, hend.2, hfound _ (by decide +kernel) _ (by decide +kernel)⟩

end Container

end TableStore
