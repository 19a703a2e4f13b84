import TableStore.Proofs.Generator

/-!
# Keys that are taken

- a container may be asked for any key, also for a real that is an integer: it stands for the same record, and an undone
  deletion puts the record back under it; only a NaN is never found (`Key.Comparable`);
- the entries of a container are `Parted` at every positive integer: first those below it, then at most one that is
  it, then those above it. So `insert` and `erase` with a key change whether an integer is `Taken` if it is the key,
  and leave it otherwise, whatever the key;
- hence what the journal undoes is known without the records (`takenBefore`), and the next key stays ahead of all
  integers that are taken (`Container.Guarded`), through every run of moves (`Move.guarded_after`);
- so the generator gives out keys that are free, up to the greatest integer
  (`Container.generated_key_is_free`).
-/

namespace TableStore

/-! ## The order of all keys -/

namespace Key

/-- Keys that are not both zeros are ordered by their parts. -/
theorem compare_of_amount {a b : Key} (ha : a.Comparable) (hb : b.Comparable)
    (h : a.kind = 0 → b.kind = 0 → a.amount ≠ 0 ∨ b.amount ≠ 0) : compare a b = compareParts a b := by
  have hunits : ∀ r : Binary64, r.signedUnits ≠ 0 → r.units ≠ 0 := fun r hr h0 => hr (by
    rw [Binary64.signedUnits, h0]
    split <;> rfl)
  refine compare_of_units ha hb fun r s hr hs => ?_
  subst hr hs
  exact (h rfl rfl).imp (hunits r) (hunits s)

/-! ## Where a key stands beside an integer -/

/-- The order of an integer and a key. -/
abbrev side (i : Int64) (k : Key) : Ordering := compare (integer i) k

variable {i : Int64} {a b : Key}

theorem side_eq_compareParts (hi : 1 ≤ i) (ha : a.Comparable) : side i a = compareParts (integer i) a := by
  refine compare_of_amount trivial ha fun _ _ => .inl ?_
  have hone := Binary64.one_pos
  have hi' : (1 : Int) ≤ i.toInt := Int64.le_iff_toInt_le.1 hi
  exact Int.mul_ne_zero (by omega) (by omega)

/-- What is not below a positive integer is no zero. -/
theorem amount_ne_zero_of_side (hi : 1 ≤ i) (ha : a.Comparable) (h : side i a ≠ .gt) (hk : a.kind = 0) :
    a.amount ≠ 0 := by
  intro h0
  rw [side_eq_compareParts hi ha, compareParts_numbers rfl hk, h0] at h
  refine h (Int.compare_eq_gt.2 ?_)
  have hi' : (1 : Int) ≤ i.toInt := Int64.le_iff_toInt_le.1 hi
  exact Int.mul_pos (by omega) (Int.natCast_pos.2 Binary64.one_pos)

/-- A key that is an integer compares as the integer does. -/
theorem compare_eq_side (hi : 1 ≤ i) (ha : a.Comparable) (hb : b.Comparable) (h : side i a = .eq) :
    compare a b = side i b := by
  have hparts : compareParts (integer i) a = .eq := side_eq_compareParts hi ha ▸ h
  rw [side_eq_compareParts hi hb, compare_of_amount ha hb fun hk _ =>
    .inl (amount_ne_zero_of_side hi ha (by rw [h]; decide) hk)]
  exact (Std.TransCmp.congr_left hparts).symm

/-- A key below an integer comes before those that are not. -/
theorem compare_eq_lt_of_side (hi : 1 ≤ i) (ha : a.Comparable) (hb : b.Comparable) (hai : side i a = .gt)
    (hbi : side i b ≠ .gt) : compare a b = .lt := by
  rw [compare_of_amount ha hb fun _ hk => .inr (amount_ne_zero_of_side hi hb hbi hk)]
  rw [side_eq_compareParts hi ha] at hai
  rw [side_eq_compareParts hi hb] at hbi
  exact Std.TransCmp.lt_of_lt_of_isLE (Std.OrientedCmp.lt_of_gt hai) (Ordering.isLE_iff_ne_gt.2 hbi)

/-- A key above an integer comes after those that are not. -/
theorem compare_eq_gt_of_side (hi : 1 ≤ i) (ha : a.Comparable) (hb : b.Comparable) (hai : side i a = .lt)
    (hbi : side i b ≠ .lt) : compare a b = .gt := by
  rw [compare_of_amount ha hb fun hk _ =>
    .inl (amount_ne_zero_of_side hi ha (by rw [hai]; decide) hk)]
  rw [side_eq_compareParts hi ha] at hai
  rw [side_eq_compareParts hi hb] at hbi
  refine Std.OrientedCmp.gt_of_lt (Std.TransCmp.lt_of_isLE_of_lt (Ordering.isLE_iff_ne_gt.2 fun h => hbi ?_) hai)
  exact Std.OrientedCmp.lt_of_gt h

end Key

/-! ## Entries beside an integer -/

namespace OrderedMap

open Key

variable {α : Type} {i : Int64} {k : Key} {a : α} {l : List (Key × α)}

/-- The entries below an integer, then at most one with it, then those above it. -/
def Parted (i : Int64) (l : List (Key × α)) : Prop := l.Pairwise fun e f => side i e.1 = .gt ∨ side i f.1 = .lt

/-- There is an entry with an integer. -/
def Taken (i : Int64) (l : List (Key × α)) : Prop := ∃ e ∈ l, side i e.1 = .eq

/-- All keys compare with each other. -/
def AllComparable (l : List (Key × α)) : Prop := ∀ e ∈ l, e.1.Comparable

theorem taken_cons {e : Key × α} : Taken i (e :: l) ↔ side i e.1 = .eq ∨ Taken i l := by
  simp [Taken]

theorem AllComparable.insertIn (hl : AllComparable l) (hk : k.Comparable) (a : α) :
    AllComparable (insertIn k a l) := fun e he => by
  rcases mem_insertIn he with h | ⟨b, hb⟩
  · exact h ▸ hk
  · exact hl (e.1, b) hb

/-- After an entry that is not below the integer there are only those above it. -/
theorem Parted.side_of_mem {e f : Key × α} (h : Parted i (e :: l)) (he : side i e.1 ≠ .gt) (hf : f ∈ l) :
    side i f.1 = .lt := ((List.pairwise_cons.1 h).1 f hf).resolve_left he

theorem Parted.not_taken {e : Key × α} (h : Parted i (e :: l)) (he : side i e.1 ≠ .gt) : ¬Taken i l := by
  rintro ⟨f, hf, hfi⟩
  rw [h.side_of_mem he hf] at hfi
  cases hfi

theorem Parted.insertIn (hi : 1 ≤ i) (hk : k.Comparable) (a : α) : ∀ {l : List (Key × α)}, AllComparable l →
    Parted i l → Parted i (insertIn k a l)
  | [], _, _ => List.pairwise_singleton _ _
  | (k', a') :: rest, hl, hp => by
    obtain ⟨hk', hrest⟩ := List.forall_mem_cons.1 hl
    rw [OrderedMap.insertIn]
    split
    · rename_i hlt
      refine List.pairwise_cons.2 ⟨fun f hf => ?_, hp⟩
      by_cases hki : side i k = .gt
      · exact .inl hki
      · -- the key is not below the integer, so the entry behind it is above
        have hk'i : side i k' = .lt := by
          by_contra hne
          rcases hside : side i k with _ | _ | _
          · rw [compare_eq_gt_of_side hi hk hk' hside hne] at hlt
            cases hlt
          · exact hne (compare_eq_side hi hk hk' hside ▸ hlt)
          · exact hki hside
        rcases List.mem_cons.1 hf with rfl | hf
        · exact .inr hk'i
        · exact .inr (hp.side_of_mem (by rw [hk'i]; decide) hf)
    · exact List.pairwise_cons.2 (List.pairwise_cons.1 hp)
    · rename_i hgt
      obtain ⟨hhead, htail⟩ := List.pairwise_cons.1 hp
      refine List.pairwise_cons.2 ⟨fun f hf => ?_, Parted.insertIn hi hk a hrest htail⟩
      by_cases hk'i : side i k' = .gt
      · exact .inl hk'i
      · rcases mem_insertIn hf with hfk | ⟨b, hb⟩
        · -- the key is behind an entry that is not below the integer, so it is above
          rw [hfk]
          rcases hside : side i k with _ | _ | _
          · exact .inr rfl
          · exact absurd (compare_eq_side hi hk hk' hside ▸ hgt) hk'i
          · rw [compare_eq_lt_of_side hi hk hk' hside hk'i] at hgt
            cases hgt
        · exact hhead (f.1, b) hb

/-- An inserted key takes the integer that it is, and no other. -/
theorem taken_insertIn (hi : 1 ≤ i) (hk : k.Comparable) (a : α) : ∀ {l : List (Key × α)}, AllComparable l →
    (Taken i (insertIn k a l) ↔ side i k = .eq ∨ Taken i l)
  | [], _ => taken_cons
  | (k', a') :: rest, hl => by
    obtain ⟨hk', hrest⟩ := List.forall_mem_cons.1 hl
    rw [OrderedMap.insertIn]
    split
    · exact taken_cons
    · rename_i heq
      rw [taken_cons, taken_cons]
      refine ⟨.inr, fun h => h.elim (fun hki => .inl ?_) id⟩
      exact compare_eq_side hi hk hk' hki ▸ heq
    · rw [taken_cons, taken_cons, taken_insertIn hi hk a hrest]
      exact or_left_comm

/-- An erased key frees the integer that it is, and no other. -/
theorem taken_eraseIn (hi : 1 ≤ i) (hk : k.Comparable) : ∀ {l : List (Key × α)}, AllComparable l → Parted i l →
    (Taken i (eraseIn k l) ↔ side i k ≠ .eq ∧ Taken i l)
  | [], _, _ => ⟨fun ⟨_, h, _⟩ => absurd h List.not_mem_nil, fun h => h.2⟩
  | (k', a') :: rest, hl, hp => by
    obtain ⟨hk', hrest⟩ := List.forall_mem_cons.1 hl
    rw [eraseIn]
    split
    · rename_i hlt
      refine ⟨fun h => ⟨fun hki => ?_, h⟩, fun h => h.2⟩
      have hk'i : side i k' = .lt := compare_eq_side hi hk hk' hki ▸ hlt
      rcases taken_cons.1 h with h | h
      · rw [hk'i] at h
        cases h
      · exact hp.not_taken (by rw [hk'i]; decide) h
    · rename_i heq
      rw [taken_cons]
      constructor
      · refine fun h => ⟨fun hki => ?_, .inr h⟩
        have hk'i : side i k' = .eq := compare_eq_side hi hk hk' hki ▸ heq
        exact hp.not_taken (by rw [hk'i]; decide) h
      · rintro ⟨hki, h | h⟩
        · rcases hside : side i k with _ | _ | _
          · rw [compare_eq_gt_of_side hi hk hk' hside (by rw [h]; decide)] at heq
            cases heq
          · exact absurd hside hki
          · rw [compare_eq_lt_of_side hi hk hk' hside (by rw [h]; decide)] at heq
            cases heq
        · exact h
    · rename_i hgt
      rw [taken_cons, taken_cons, taken_eraseIn hi hk hrest (List.pairwise_cons.1 hp).2]
      refine ⟨fun h => h.elim (fun h => ⟨fun hki => ?_, .inl h⟩) fun h => ⟨h.1, .inr h.2⟩, fun h => ?_⟩
      · rw [← compare_eq_side hi hk hk' hki, hgt] at h
        cases h
      · exact h.2.imp id fun h' => ⟨h.1, h'⟩

/-- A key that is an integer is found where the integer is taken. -/
theorem isSome_findIn (hi : 1 ≤ i) (hk : k.Comparable) (hki : side i k = .eq) : ∀ {l : List (Key × α)},
    AllComparable l → Parted i l → ((findIn k l).isSome ↔ Taken i l)
  | [], _, _ => by simp [findIn, Taken]
  | (k', a') :: rest, hl, hp => by
    obtain ⟨hk', hrest⟩ := List.forall_mem_cons.1 hl
    have hside : compare k k' = side i k' := compare_eq_side hi hk hk' hki
    rw [findIn, taken_cons]
    split
    · rename_i hlt
      rw [hside] at hlt
      have hnot := hp.not_taken (show side i k' ≠ .gt by rw [hlt]; decide)
      simp [hlt, hnot]
    · rename_i heq
      simp [← hside, heq]
    · rename_i hgt
      rw [isSome_findIn hi hk hki hrest (List.pairwise_cons.1 hp).2]
      simp [← hside, hgt]

/-- A NaN is never found. -/
theorem findIn_nan {r : Binary64} (hr : r.isNaN = true) : ∀ {l : List (Key × α)}, AllComparable l →
    findIn (real r) l = none
  | [], _ => rfl
  | (k', a') :: rest, hl => by
    obtain ⟨hk', hrest⟩ := List.forall_mem_cons.1 hl
    rw [findIn]
    split
    · rfl
    · rename_i heq
      exact absurd heq (compare_ne_eq_of_nan hr hk')
    · exact findIn_nan hr hrest

end OrderedMap

/-! ## Containers and their journals -/

namespace Container

open Key OrderedMap

variable {c : Container} {i n : Int64} {k : Key} {r : Record}

/-- The next key is past an integer; only the greatest integer may be the next key itself. -/
def Behind (i n : Int64) : Prop := i < n ∨ i = n ∧ i = Int64.maxValue

theorem Behind.trans {n' : Int64} (h : Behind i n) (hn : n ≤ n') : Behind i n' := by
  rcases h with h | ⟨rfl, hi⟩
  · exact .inl (Int64.lt_of_lt_of_le h hn)
  · exact .inr ⟨Int64.le_antisymm hn (hi ▸ Int64.le_maxValue n'), hi⟩

/-- An integer key is behind the next key after it. -/
theorem behind_nextKeyAfter (i next : Int64) : Behind i (nextKeyAfter next (.integer i)) := by
  by_cases hi : i = Int64.maxValue
  · refine .inr ⟨?_, hi⟩
    rw [nextKeyAfter, successor, if_pos hi]
    split
    · rfl
    · rename_i h
      exact absurd (hi ▸ Int64.le_maxValue next) h
  · exact .inl (lt_nextKeyAfter hi next)

/-- Whether an integer was taken before some changes, the newest first, given whether it is taken after them. -/
def takenBefore (i : Int64) (now : Prop) (prior : List (Key × Option Record)) : Prop :=
  prior.foldl (fun taken change => if side i change.1 = .eq then (change.2.isSome : Prop) else taken) now

theorem takenBefore_cons (i : Int64) (now : Prop) (change : Key × Option Record) (prior : List (Key × Option Record)) :
    takenBefore i now (change :: prior) =
      takenBefore i (if side i change.1 = .eq then (change.2.isSome : Prop) else now) prior := rfl

/-- A key without a NaN is undone as its side of the integer tells. -/
theorem taken_undo {m : OrderedMap Key Record} {change : Key × Option Record} (hi : 1 ≤ i)
    (hk : change.1.Comparable) (hm : AllComparable m.entries) (hp : Parted i m.entries) :
    Taken i (undo m change).entries =
      if side i change.1 = .eq then (change.2.isSome : Prop) else Taken i m.entries := by
  obtain ⟨k, prior⟩ := change
  apply propext
  cases prior with
  | some r =>
    refine (taken_insertIn hi hk r hm).trans ?_
    split <;> simp [*]
  | none =>
    refine (taken_eraseIn hi hk hm hp).trans ?_
    split <;> simp [*]

theorem comparable_undo {m : OrderedMap Key Record} {change : Key × Option Record} (hk : change.1.Comparable)
    (hm : AllComparable m.entries) : AllComparable (undo m change).entries := by
  obtain ⟨k, prior⟩ := change
  cases prior with
  | some r => exact hm.insertIn hk r
  | none => exact fun e he => hm e (of_mem_eraseIn he)

theorem parted_undo {m : OrderedMap Key Record} {change : Key × Option Record} (hi : 1 ≤ i)
    (hk : change.1.Comparable) (hm : AllComparable m.entries) (hp : Parted i m.entries) :
    Parted i (undo m change).entries := by
  obtain ⟨k, prior⟩ := change
  cases prior with
  | some r => exact hp.insertIn hi hk r hm
  | none => exact hp.sublist (sublist_eraseIn k m.entries)

/-- What undoing the journal leaves: the keys compare, and are parted at every positive integer; the integers that are
taken are known without the records. -/
theorem foldl_undo : ∀ {prior : List (Key × Option Record)} {m : OrderedMap Key Record}, AllComparable prior →
    AllComparable m.entries → (∀ i, 1 ≤ i → Parted i m.entries) →
    AllComparable (prior.foldl undo m).entries ∧ ∀ i, 1 ≤ i → Parted i (prior.foldl undo m).entries ∧
      Taken i (prior.foldl undo m).entries = takenBefore i (Taken i m.entries) prior
  | [], _, _, hm, hp => ⟨hm, fun i hi => ⟨hp i hi, rfl⟩⟩
  | change :: prior, m, hks, hm, hp => by
    obtain ⟨hk, hks⟩ := List.forall_mem_cons.1 hks
    obtain ⟨hc, h⟩ := foldl_undo hks (comparable_undo hk hm) fun i hi => parted_undo hi hk hm (hp i hi)
    refine ⟨hc, fun i hi => ⟨(h i hi).1, (h i hi).2.trans ?_⟩⟩
    rw [taken_undo hi hk hm (hp i hi), takenBefore_cons]

/-- The next key is ahead of the integers that are taken, and will be if the journal is undone. -/
structure Guarded (c : Container) : Prop where
  generates : c.autoIncrement = true
  positive : 1 ≤ c.nextKey
  comparable : AllComparable c.records.entries
  parted : ∀ i, 1 ≤ i → Parted i c.records.entries
  ahead : ∀ i, 1 ≤ i → Taken i c.records.entries → Behind i c.nextKey
  undone : ∀ j, c.journal = some j → 1 ≤ j.nextKey ∧ AllComparable j.prior ∧
    ∀ i, 1 ≤ i → takenBefore i (Taken i c.records.entries) j.prior → Behind i j.nextKey

namespace Guarded

theorem new (name keyPath : String) : Guarded { name, keyPath, autoIncrement := true } where
  generates := rfl
  positive := show (1 : Int64) ≤ 1 by decide
  comparable _ h := absurd h List.not_mem_nil
  parted _ _ := List.Pairwise.nil
  ahead _ _ := fun ⟨_, h, _⟩ => absurd h List.not_mem_nil
  undone _ h := by cases h

theorem begin (h : Guarded c) : Guarded c.begin := by
  unfold Container.begin
  split
  · exact h
  · refine { h with undone := fun j hj => ?_ }
    cases hj
    exact ⟨h.positive, fun _ he => absurd he List.not_mem_nil, h.ahead⟩

theorem commit (h : Guarded c) : Guarded c.commit := { h with undone := fun _ hj => by cases hj }

theorem rollback (h : Guarded c) : Guarded c.rollback := by
  unfold Container.rollback
  split
  · exact h
  · rename_i j hj
    obtain ⟨hpos, hks, hbehind⟩ := h.undone j hj
    obtain ⟨hc, hall⟩ := foldl_undo hks h.comparable h.parted
    exact ⟨h.generates, hpos, hc, fun i hi => (hall i hi).1, fun i hi ht => hbehind i hi ((hall i hi).2 ▸ ht),
      fun _ hj => by cases hj⟩

/-- A change under a key keeps what undoing the journal comes to, if it notes whether the key was there. -/
theorem undone_note (h : Guarded c) {records : OrderedMap Key Record} {prior : Option Record} (hk : k.Comparable)
    (htaken : ∀ i, 1 ≤ i →
      (if side i k = .eq then (prior.isSome : Prop) else Taken i records.entries) = Taken i c.records.entries) :
    ∀ j, (c.note k prior).journal = some j → 1 ≤ j.nextKey ∧ AllComparable j.prior ∧
      ∀ i, 1 ≤ i → takenBefore i (Taken i records.entries) j.prior → Behind i j.nextKey := by
  intro j hj
  obtain ⟨j', hj', rfl⟩ := Option.map_eq_some_iff.1 hj
  obtain ⟨hpos, hks, hbehind⟩ := h.undone j' hj'
  refine ⟨hpos, List.forall_mem_cons.2 ⟨hk, hks⟩, fun i hi ht => hbehind i hi ?_⟩
  rwa [takenBefore_cons, htaken i hi] at ht

theorem isSome_find?_eq (h : Guarded c) (hi : 1 ≤ i) (hk : k.Comparable) (hki : side i k = .eq) :
    (c.records.find? k).isSome = Taken i c.records.entries := by
  rw [OrderedMap.find?, Option.isSome_map]
  exact propext (isSome_findIn hi hk hki h.comparable (h.parted i hi))

theorem store (h : Guarded c) (hk : k.Proper) (r : Record) : Guarded (c.store k r) := by
  have hc := hk.comparable
  have hnext : (c.store k r).nextKey = nextKeyAfter c.nextKey k := if_pos h.generates
  have hle := le_nextKeyAfter c.nextKey hk
  have htaken : ∀ i, 1 ≤ i → (Taken i (c.store k r).records.entries ↔ side i k = .eq ∨ Taken i c.records.entries) :=
    fun i hi => taken_insertIn hi hc r h.comparable
  refine ⟨h.generates, ?_, h.comparable.insertIn hc r, fun i hi => (h.parted i hi).insertIn hi hc r h.comparable,
    fun i hi ht => ?_, h.undone_note hc fun i hi => ?_⟩
  · rw [hnext]
    exact Int64.le_trans h.positive hle
  · rw [hnext]
    rcases (htaken i hi).1 ht with hki | ht
    · obtain rfl : integer i = k := LawfulOn.eq_of_compare (proper_integer i) hk hki
      exact behind_nextKeyAfter i c.nextKey
    · exact (h.ahead i hi ht).trans hle
  · split
    · rename_i hki
      exact h.isSome_find?_eq hi hc hki
    · rename_i hki
      exact propext ((htaken i hi).trans (or_iff_right hki))

theorem delete (h : Guarded c) (k : Key) : Guarded (c.delete k).2 := by
  cases hf : c.records.find? k with
  | none =>
    rw [delete_of_none hf]
    exact h
  | some r =>
    have hc : k.Comparable := by
      cases k with
      | integer i => trivial
      | text s => trivial
      | real s =>
        -- a NaN would not have been found
        by_contra hnan
        rw [OrderedMap.find?, findEntry?, findIn_nan (by simpa [Comparable] using hnan) h.comparable] at hf
        cases hf
    have htaken : ∀ i, 1 ≤ i → (Taken i (c.delete k).2.records.entries ↔
        side i k ≠ .eq ∧ Taken i c.records.entries) := fun i hi => by
      rw [delete_of_find? hf]
      exact taken_eraseIn hi hc h.comparable (h.parted i hi)
    rw [delete_of_find? hf] at htaken ⊢
    have hsub := sublist_eraseIn k c.records.entries
    refine ⟨h.generates, h.positive, fun e he => h.comparable e (hsub.subset he),
      fun i hi => (h.parted i hi).sublist hsub, fun i hi ht => h.ahead i hi ((htaken i hi).1 ht).2,
      h.undone_note hc fun i hi => ?_⟩
    split
    · rename_i hki
      rw [← h.isSome_find?_eq hi hc hki, hf]
    · rename_i hki
      exact propext ((htaken i hi).trans (and_iff_right hki))

end Guarded

/-! ## Moves -/

/-- What can be done to a container: records are stored and deleted under any keys, and the journal is opened, closed or
undone. -/
inductive Move where
  | add (r : Record)
  | put (r : Record)
  | delete (k : Key)
  | begin
  | commit
  | rollback

namespace Move

/-- Makes a move, and gives the key under which a record was stored, if one was. -/
def run : Move → Attempt Container (Option Key)
  | .add r => .whole fun c => (c.add r).map fun kc => (some kc.1, kc.2)
  | .put r => .whole fun c => (c.put r).map fun kc => (some kc.1, kc.2)
  | .delete k => fun c => (.ok none, (c.delete k).2)
  | .begin => fun c => (.ok none, c.begin)
  | .commit => fun c => (.ok none, c.commit)
  | .rollback => fun c => (.ok none, c.rollback)

/-- The container after some moves, whether they succeed or not. -/
def after (ms : List Move) (c : Container) : Container := ms.foldl (fun c m => (m.run c).2) c

/-- The next key after a move, in integers without bounds: it passes the key that was stored, and an undone journal
brings back the one from before. -/
def nextKey (m : Move) (c : Container) : Int :=
  match m with
  | .rollback => ((c.journal.map Journal.nextKey).getD c.nextKey).toInt
  | m => match (m.run c).1 with
    | .ok (some k) => passed c.nextKey.toInt k
    | _ => c.nextKey.toInt

end Move

/-- A record that is added or put is stored under a proper key; otherwise nothing is changed. -/
theorem run_store_cases (f : Container → Except Error (Key × Container))
    (hf : ∀ {k d}, f c = .ok (k, d) → k.Proper ∧ ∃ r, d = c.store k r) :
    let x : Attempt Container (Option Key) := .whole fun c => (f c).map fun kc => (some kc.1, kc.2)
    (∃ e, x c = (.error e, c)) ∨ ∃ k r, k.Proper ∧ x c = (.ok (some k), c.store k r) := by
  simp only [Attempt.whole]
  cases h : f c with
  | error e => exact .inl ⟨e, rfl⟩
  | ok kd =>
    obtain ⟨hk, r, hr⟩ := hf h
    exact .inr ⟨kd.1, r, hk, by simp [Except.map, hr]⟩

theorem exists_store_of_put {d : Container} (h : c.put r = .ok (k, d)) : k.Proper ∧ ∃ r', d = c.store k r' := by
  rw [Container.put] at h
  cases hr : c.keyed r with
  | error e =>
    rw [hr] at h
    cases h
  | ok kr =>
    rw [hr] at h
    cases h
    exact ⟨keyed_proper hr, kr.2, rfl⟩

theorem exists_store_of_add {d : Container} (h : c.add r = .ok (k, d)) : k.Proper ∧ ∃ r', d = c.store k r' := by
  refine exists_store_of_put (r := r) ?_
  rw [Container.add] at h
  rw [Container.put]
  cases hr : c.keyed r with
  | error e =>
    rw [hr] at h
    cases h
  | ok kr =>
    rw [hr] at h
    dsimp only at h
    split at h
    · cases h
    · exact h

namespace Move

/-- What a move that may store a record comes to. -/
theorem stores_cases (c : Container) {m : Move} {r : Record} (hm : m = .add r ∨ m = .put r) :
    (∃ e, m.run c = (.error e, c)) ∨ ∃ k r', k.Proper ∧ m.run c = (.ok (some k), c.store k r') := by
  rcases hm with rfl | rfl
  · exact run_store_cases (fun c => c.add r) exists_store_of_add
  · exact run_store_cases (fun c => c.put r) exists_store_of_put

/-- **Every move keeps the next key ahead.** -/
theorem guarded_run (h : Guarded c) (m : Move) : Guarded (m.run c).2 := by
  have hstores : ∀ {r : Record}, m = .add r ∨ m = .put r → Guarded (m.run c).2 := fun hm => by
    rcases stores_cases c hm with ⟨e, he⟩ | ⟨k, r', hk, hr⟩
    · rwa [he]
    · rw [hr]
      exact h.store hk r'
  cases m with
  | add r => exact hstores (.inl rfl)
  | put r => exact hstores (.inr rfl)
  | delete k => exact h.delete k
  | begin => exact h.begin
  | commit => exact h.commit
  | rollback => exact h.rollback

theorem guarded_after (h : Guarded c) : ∀ ms : List Move, Guarded (after ms c) := by
  intro ms
  induction ms generalizing c with
  | nil => exact h
  | cons m ms ih => exact ih (guarded_run h m)

theorem nextKey_of_ne_rollback (c : Container) {m : Move} (hm : m ≠ .rollback) :
    m.nextKey c = match (m.run c).1 with
      | .ok (some k) => passed c.nextKey.toInt k
      | _ => c.nextKey.toInt := by
  cases m with
  | rollback => exact absurd rfl hm
  | _ => rfl

/-- **No move wraps the next key around**, and none but an undone journal takes it back. -/
theorem toInt_nextKey_run (h : Guarded c) (m : Move) : (m.run c).2.nextKey.toInt = m.nextKey c := by
  have hstores : ∀ {r : Record}, m = .add r ∨ m = .put r → (m.run c).2.nextKey.toInt = m.nextKey c := fun hm => by
    rw [nextKey_of_ne_rollback c (by rcases hm with rfl | rfl <;> exact Move.noConfusion)]
    rcases stores_cases c hm with ⟨e, he⟩ | ⟨k, r', hk, hr⟩
    · rw [he]
    · rw [hr]
      show (c.store k r').nextKey.toInt = passed c.nextKey.toInt k
      rw [← toInt_nextKeyAfter c.nextKey hk, show (c.store k r').nextKey = _ from if_pos h.generates]
  cases m with
  | add r => exact hstores (.inl rfl)
  | put r => exact hstores (.inr rfl)
  | delete k =>
    show (c.delete k).2.nextKey.toInt = c.nextKey.toInt
    cases hf : c.records.find? k with
    | none => rw [delete_of_none hf]
    | some r =>
      rw [delete_of_find? hf]
      rfl
  | begin => exact congrArg Int64.toInt (begin_nextKey c)
  | commit => rfl
  | rollback =>
    show c.rollback.nextKey.toInt = ((c.journal.map Journal.nextKey).getD c.nextKey).toInt
    rw [Container.rollback]
    cases c.journal <;> rfl

theorem nextKey_le_run (h : Guarded c) {m : Move} (hm : m ≠ .rollback) : c.nextKey ≤ (m.run c).2.nextKey := by
  rw [Int64.le_iff_toInt_le, toInt_nextKey_run h, nextKey_of_ne_rollback c hm]
  split
  · exact le_passed _ _
  · exact Int.le_refl _

end Move

/-- Where the next key is ahead, it is taken at the greatest integer only. -/
theorem Guarded.eq_maxValue_of_contains (h : Guarded c) (hk : c.records.contains (.integer c.nextKey)) :
    c.nextKey = Int64.maxValue := by
  have hself : side c.nextKey (integer c.nextKey) = .eq := LawfulOn.compare_self (proper_integer c.nextKey)
  rw [contains_eq_isSome, h.isSome_find?_eq h.positive (proper_integer _).comparable hself] at hk
  exact (h.ahead _ h.positive hk).elim (fun hlt => absurd hlt (Int64.lt_irrefl)) fun h => h.2

/-- **The generator never gives out a key that is taken, and never overflows.** After any moves on a new container that
generates keys, the next key is positive and past every integer key of a record, but that both may be the greatest
integer. A record without a key gets the next one, unless that is the greatest integer and taken: then it is refused and
nothing is changed. The next key is what it is in integers without bounds, and no move but an undone journal takes it
back. -/
theorem generated_key_is_free (name keyPath : String) (ms : List Move) (c : Container)
    (hc : c = Move.after ms { name, keyPath, autoIncrement := true }) :
    (1 ≤ c.nextKey ∧ ∀ k, .integer k ∈ c.records.keys → k < c.nextKey ∨ k = c.nextKey ∧ k = Int64.maxValue) ∧
      (∀ r, r.valueOf c.keyPath = .null →
        Move.run (.add r) c =
          if c.nextKey = Int64.maxValue ∧ c.records.contains (.integer Int64.maxValue) then
            (.error (.duplicateKey c.name (Key.integer Int64.maxValue).display), c)
          else
            (.ok (some (.integer c.nextKey)),
              c.store (.integer c.nextKey) (r.setFirst c.keyPath (.integer c.nextKey)))) ∧
      ∀ m : Move, (m.run c).2.nextKey.toInt = m.nextKey c ∧ (m ≠ .rollback → c.nextKey ≤ (m.run c).2.nextKey) := by
  have h : Guarded c := hc ▸ Move.guarded_after (.new name keyPath) ms
  refine ⟨⟨h.positive, fun k hk => ?_⟩, fun r hr => ?_, fun m => ⟨Move.toInt_nextKey_run h m, Move.nextKey_le_run h⟩⟩
  · by_cases hpos : 1 ≤ k
    · obtain ⟨e, he, hek⟩ := List.mem_map.1 hk
      exact h.ahead k hpos ⟨e, he, hek ▸ LawfulOn.compare_self (proper_integer k)⟩
    · exact .inl (Int64.lt_of_lt_of_le (Int64.not_le.1 hpos) h.positive)
  · have hkeyed : c.keyed r = .ok (.integer c.nextKey, r.setFirst c.keyPath (.integer c.nextKey)) := by
      rw [keyed, hr]
      exact if_pos h.generates
    rw [Move.run, Attempt.whole, Container.add, hkeyed]
    by_cases htaken : c.records.contains (.integer c.nextKey)
    · have hmax := h.eq_maxValue_of_contains htaken
      have hgreatest : c.records.contains (.integer Int64.maxValue) := hmax ▸ htaken
      rw [if_pos ⟨hmax, hgreatest⟩, hmax]
      simp only [hgreatest, if_true]
      rfl
    · have hnot : ¬(c.nextKey = Int64.maxValue ∧ c.records.contains (.integer Int64.maxValue) = true) := by
        rintro ⟨hmax, hgreatest⟩
        exact htaken (hmax ▸ hgreatest)
      rw [if_neg hnot]
      simp only [htaken]
      rfl

/-- A deletion by a real that is an integer is undone, and then a record is put under the greatest integer. -/
def movesToGreatest : List Move :=
  [.add .empty, .begin, .delete (.real (.ofInt 1)), .rollback,
    .put (.ofList [("id", .integer Int64.maxValue)])]

/-- The container after these moves. -/
def withGreatest : Container := Move.after movesToGreatest { name := "t", keyPath := "id", autoIncrement := true }

/-- The greatest integer is given out to no other record. -/
theorem greatest_key_is_not_given_twice :
    withGreatest.records.keys = [.real (.ofInt 1), .integer Int64.maxValue] ∧
      withGreatest.nextKey = Int64.maxValue ∧
      Move.run (.add .empty) withGreatest = (.error (.duplicateKey "t" "9223372036854775807"), withGreatest) := by
  have hkeys : withGreatest.records.keys = [.real (.ofInt 1), .integer Int64.maxValue] := by decide +kernel
  have hnext : withGreatest.nextKey = Int64.maxValue := by decide +kernel
  have hname : withGreatest.name = "t" := by decide +kernel
  have hdisplay : (Key.integer Int64.maxValue).display = "9223372036854775807" := by decide +kernel
  have hadd := (generated_key_is_free "t" "id" movesToGreatest withGreatest rfl).2.1 .empty (by decide +kernel)
  rw [if_pos ⟨hnext, by decide +kernel⟩, hname, hdisplay] at hadd
  exact ⟨hkeys, hnext, hadd⟩

end Container

end TableStore
