import TableStore.Proofs.RecordKeys
import TableStore.Proofs.Rounding

/-!
# The key generator of a container

- storing a record under a key never takes the next key back (`Container.le_nextKeyAfter`): a real key that is no
  integer of 64 bits is below 2^53, where integers and reals compare without rounding, or outside of these integers
  (`Binary64.floor_of_proper`);
- so edits of a container never take it back (`Container.Edited.nextKey_le`), and it stays positive
  (`Container.steady_positive`);
- `Query.generated` are the keys that the generator gives to the rows of an insertion: they start from the next key,
  increase, are those of records afterwards, and the next key is beyond them when the insertion has succeeded.
-/

namespace TableStore

/-! ## Whole parts of reals -/

namespace Binary64

/-- Reals from 2^53 on are integers. -/
theorem one_dvd_units {r : Binary64} (h : Nat.pow 2 53 * one ≤ r.units) : one ∣ r.units := by
  obtain ⟨n, hone, -⟩ := exists_one_eq
  have hpos := one_pos
  rw [units] at h ⊢
  have hfraction : r.rank % fractions < fractions := Nat.mod_lt _ (by decide)
  have hfractions : fractions + fractions = Nat.pow 2 53 := by decide
  split at h
  · have hle : Nat.pow 2 53 * 1 ≤ Nat.pow 2 53 * one := Nat.mul_le_mul_left _ hpos
    omega
  · rename_i he
    rw [if_neg he]
    have hlt : one < Nat.pow 2 (r.rank / fractions - 1) := by
      by_contra hle
      have hle' := Nat.mul_le_mul_left (fractions + r.rank % fractions) (Nat.le_of_not_lt hle)
      have hlt' : (fractions + r.rank % fractions) * one < Nat.pow 2 53 * one :=
        Nat.mul_lt_mul_of_pos_right (by omega) hpos
      omega
    rw [hone] at hlt ⊢
    exact Nat.dvd_mul_left_of_dvd (Nat.pow_dvd_pow 2 (Nat.le_of_lt ((Nat.pow_lt_pow_iff_right (by decide)).1 hlt))) _

/-- The real nearest to an integer has its sign. -/
theorem signedUnits_ofInt (n : Int) :
    (ofInt n).signedUnits = if n < 0 then -((ofInt n).units : Int) else (ofInt n).units := by
  rw [signedUnits, ofInt, ofRatio, negative_ofRank _ (rankOfRatio_lt_signBit n.natAbs 1)]
  simp only [decide_eq_true_eq]

/-- The whole part of a real that is no integer of 64 bits is below 2^53, or outside of these integers. -/
theorem floor_of_proper {r : Binary64} (hr : (Key.real r).Proper) :
    (-Nat.pow 2 53 ≤ r.floor ∧ r.floor < Nat.pow 2 53) ∨ r.floor < Int64.minValue.toInt ∨
      Int64.maxValue.toInt < r.floor := by
  obtain ⟨hn, hi⟩ := Key.proper_real.1 hr
  have hone : (0 : Int) < one := Int.natCast_pos.2 one_pos
  rcases Nat.lt_or_ge r.units (Nat.pow 2 53 * one) with hlt | hge
  · obtain ⟨hfloor, hnext⟩ := floor_mul_le r
    have hlt' : (r.units : Int) < Nat.pow 2 53 * one := by exact_mod_cast hlt
    have hsigned : -(r.units : Int) ≤ r.signedUnits ∧ r.signedUnits ≤ r.units := by
      rw [signedUnits]
      split <;> omega
    refine .inl ⟨?_, ?_⟩
    · by_contra hneg
      have hmul := Int.mul_le_mul_of_nonneg_right (show r.floor + 1 ≤ -Nat.pow 2 53 by omega) (Int.le_of_lt hone)
      rw [Int.neg_mul] at hmul
      omega
    · by_contra hneg
      have hmul := Int.mul_le_mul_of_nonneg_right (Int.not_lt.1 hneg) (Int.le_of_lt hone)
      omega
  · -- from 2^53 on the real is an integer, so it is none of 64 bits
    refine .inr ?_
    have hdvd : (one : Int) ∣ r.signedUnits := by
      have hunits : (one : Int) ∣ r.units := Int.natCast_dvd_natCast.2 (one_dvd_units hge)
      rw [signedUnits]
      split
      · exact Int.dvd_neg.2 hunits
      · exact hunits
    by_contra hin
    have hint : int64? r.floor = some (Int64.ofInt r.floor) := if_pos ⟨by omega, by omega⟩
    rw [toInt64?, hn, Int.emod_eq_zero_of_dvd hdvd] at hi
    simp [hint] at hi

/-- **A real that is a key and an integer compare with their whole parts**, also where the integer is rounded. -/
theorem signedUnits_ofInt_le_iff (i : Int64) {r : Binary64} (hr : (Key.real r).Proper)
    (hf : r.floor ≤ Int64.maxValue.toInt) : (ofInt i.toInt).signedUnits ≤ r.floor * one ↔ i.toInt ≤ r.floor := by
  have hone : (0 : Int) < one := Int.natCast_pos.2 one_pos
  have hmin : Int64.minValue.toInt = -Nat.pow 2 63 := by decide
  have hile := Int64.minValue_le_toInt i
  have higt := Int64.toInt_le i
  have hmax : Int64.maxValue.toInt < Nat.pow 2 63 := by decide
  rw [signedUnits_ofInt]
  rcases floor_of_proper hr with ⟨hlow, hhigh⟩ | hbelow | habove
  · rcases Nat.lt_or_ge i.toInt.natAbs (Nat.pow 2 53) with hsmall | hbig
    · have hunits : ((ofInt i.toInt).units : Int) = i.toInt.natAbs * one := by
        rw [ofInt, units_ofRatio hsmall, Int.natCast_mul]
      have hexact : (if i.toInt < 0 then -((ofInt i.toInt).units : Int) else (ofInt i.toInt).units) =
          i.toInt * one := by
        rw [hunits]
        split
        · rw [← Int.neg_mul]
          congr 1
          omega
        · congr 1
          omega
      rw [hexact]
      exact Int.mul_le_mul_right hone
    · -- the integer is not rounded below 2^53, where the whole part is
      have hunits : (Nat.pow 2 53 : Int) * one ≤ (ofInt i.toInt).units := by
        exact_mod_cast le_units_ofRatio hbig _
      have hlow' := Int.mul_le_mul_of_nonneg_right hlow (Int.le_of_lt hone)
      have hhigh' := Int.mul_lt_mul_of_pos_right hhigh hone
      rw [Int.neg_mul] at hlow'
      split <;> constructor <;> intro h <;> omega
  · have hunits : ((ofInt i.toInt).units : Int) ≤ Nat.pow 2 63 * one := by
      exact_mod_cast units_ofRatio_le (by omega) _
    have hbelow' := Int.mul_lt_mul_of_pos_right hbelow hone
    rw [hmin, Int.neg_mul] at hbelow'
    split <;> constructor <;> intro h <;> omega
  · omega
end Binary64

namespace Container

open Binary64

/-! ## The next key -/

theorem toInt_successor {i : Int64} (h : i ≠ Int64.maxValue) : (successor i).toInt = i.toInt + 1 := by
  have hmax : i.toInt ≠ Int64.maxValue.toInt := fun he => h (Int64.toInt_inj.1 he)
  have hle := Int64.toInt_le i
  have hmin := Int64.minValue_le_toInt i
  have h1 : Int64.minValue.toInt = -9223372036854775808 := by decide
  have h2 : Int64.maxValue.toInt = 9223372036854775807 := by decide
  have h3 : (1 : Int64).toInt = 1 := by decide
  rw [successor, if_neg h, Int64.toInt_add, h3]
  exact Int.bmod_eq_of_le (by omega) (by omega)

theorem lt_successor {i : Int64} (h : i ≠ Int64.maxValue) : i < successor i := by
  rw [Int64.lt_iff_toInt_lt, toInt_successor h]
  omega

theorem le_successor (i : Int64) : i ≤ successor i := by
  by_cases h : i = Int64.maxValue
  · rw [successor, if_pos h]
    exact Int64.le_refl i
  · exact Int64.le_of_lt (lt_successor h)

/-- An integer key is behind the next key after it. -/
theorem lt_nextKeyAfter {i : Int64} (h : i ≠ Int64.maxValue) (next : Int64) : i < nextKeyAfter next (.integer i) := by
  rw [nextKeyAfter]
  split
  · exact lt_successor h
  · rename_i hle
    exact Int64.lt_of_lt_of_le (lt_successor h) (Int64.le_of_lt (Int64.not_le.1 hle))

/-- The next key after a key was stored, in integers without bounds: one after the key, or after its whole part, if that
is further on; only an integer key is held back by the greatest integer. -/
def passed (next : Int) : Key → Int
  | .integer i => max next (min (i.toInt + 1) Int64.maxValue.toInt)
  | .real r => if r.floor < Int64.maxValue.toInt then max next (r.floor + 1) else next
  | .text _ => next

theorem le_passed (next : Int) (k : Key) : next ≤ passed next k := by
  cases k with
  | integer i => exact Int.le_max_left _ _
  | text s => exact Int.le_refl _
  | real r =>
    rw [passed]
    split
    · exact Int.le_max_left _ _
    · exact Int.le_refl _

theorem toInt_successor_eq_min (i : Int64) : (successor i).toInt = min (i.toInt + 1) Int64.maxValue.toInt := by
  by_cases h : i = Int64.maxValue
  · rw [successor, if_pos h, h]
    omega
  · have hmax : i.toInt ≠ Int64.maxValue.toInt := fun he => h (Int64.toInt_inj.1 he)
    have hle := Int64.toInt_le i
    rw [toInt_successor h]
    omega

/-- **The generator computes the next key without wrapping around and without rounding.** -/
theorem toInt_nextKeyAfter (next : Int64) {k : Key} (hk : k.Proper) :
    (nextKeyAfter next k).toInt = passed next.toInt k := by
  cases k with
  | text s => rfl
  | integer i =>
    rw [nextKeyAfter, passed, ← toInt_successor_eq_min]
    split
    · rename_i hle
      rw [Int64.le_iff_toInt_le] at hle
      omega
    · rename_i hle
      rw [Int64.le_iff_toInt_le] at hle
      omega
  | real r =>
    have hmax : Int64.maxValue.toInt = 9223372036854775807 := by decide
    have hpow : ((Nat.pow 2 53 : Nat) : Int) = 9007199254740992 := by decide
    have hmin : Int64.minValue.toInt = -9223372036854775808 := by decide
    have hle := Int64.minValue_le_toInt next
    rw [nextKeyAfter, passed, (Key.proper_real.1 hk).1]
    simp only [Bool.not_false, Bool.true_and, Bool.and_eq_true, decide_eq_true_eq]
    by_cases hf : r.floor ≤ Int64.maxValue.toInt
    · have hiff := signedUnits_ofInt_le_iff next hk hf
      have hfloor := floor_of_proper hk
      rw [if_pos (show r.floor < Int64.maxValue.toInt by omega)]
      by_cases hn : next.toInt ≤ r.floor
      · rw [if_pos ⟨hiff.2 hn, hf⟩, Int64.toInt_ofInt_of_le (by omega) (by omega)]
        omega
      · rw [if_neg fun h => hn (hiff.1 h.1)]
        omega
    · rw [if_neg fun h => hf h.2, if_neg (by omega)]

/-- **Storing a key never takes the next key back.** -/
theorem le_nextKeyAfter (next : Int64) {k : Key} (hk : k.Proper) : next ≤ nextKeyAfter next k := by
  rw [Int64.le_iff_toInt_le, toInt_nextKeyAfter next hk]
  exact le_passed next.toInt k

/-- The integer key that was given out is behind the next key after it, up to the greatest one. -/
theorem nextKeyAfter_self (next : Int64) : nextKeyAfter next (.integer next) = successor next := by
  rw [nextKeyAfter, if_pos (le_successor next)]

variable {c d : Container} {ks : List Key} {r : Record} {k : Key}

@[simp] theorem begin_nextKey (c : Container) : c.begin.nextKey = c.nextKey := by
  unfold begin
  split <;> rfl

theorem nextKey_le_store (hk : k.Proper) (r : Record) : c.nextKey ≤ (c.store k r).nextKey := by
  show c.nextKey ≤ if c.autoIncrement then nextKeyAfter c.nextKey k else c.nextKey
  split
  · exact le_nextKeyAfter c.nextKey hk
  · exact Int64.le_refl _

/-- **Edits never take the next key back.** -/
theorem Edited.nextKey_le (h : c.Edited ks d) : c.nextKey ≤ d.nextKey := by
  induction h with
  | refl => exact Int64.le_refl _
  | store _ hk r ih => exact Int64.le_trans ih (nextKey_le_store hk r)
  | erase _ _ hr ih =>
    rw [delete_of_find? hr]
    exact ih

theorem Since.nextKey_le (h : c.Since ks d) : c.nextKey ≤ d.nextKey := by
  rcases h with ⟨rfl, -⟩ | h
  · exact Int64.le_refl _
  · have hle := h.nextKey_le
    rwa [begin_nextKey] at hle

/-- The next key is positive from the start. -/
theorem steady_positive : Steady fun c => 1 ≤ c.nextKey where
  new _ _ _ := show (1 : Int64) ≤ 1 by decide
  begin {c} hc := by rwa [begin_nextKey]
  commit hc := hc
  delete {c k} hc hk := Int64.le_trans hc (Edited.delete c hk).nextKey_le
  admits _ := ⟨fun hc h => Int64.le_trans hc (Edited.add h).nextKey_le,
    fun hc h => Int64.le_trans hc (Edited.put h).nextKey_le⟩

/-! ## Keys that are given out -/

/-- A record that is added is there, and so are those that were. -/
theorem contains_of_add (hc : c.Ordered) (h : c.add r = .ok (k, d)) {l : Key} (hl : l.Proper)
    (hthere : l = k ∨ c.records.contains l) : d.records.contains l := by
  rw [Container.add] at h
  cases hr : c.keyed r with
  | error e =>
    rw [hr] at h
    cases h
  | ok kr =>
    rw [hr] at h
    dsimp only at h
    split at h <;> cases h
    have hk := keyed_proper hr
    show (c.records.insert kr.1 kr.2).contains l = true
    rw [OrderedMap.contains_eq_isSome, hc.find?_insert hk kr.2 hl]
    split
    · rfl
    · rename_i hne
      rw [OrderedMap.contains_eq_isSome] at hthere
      exact hthere.resolve_left hne

/-- Whether a record gets its key from the generator. -/
def generates (c : Container) (r : Record) : Bool := c.autoIncrement && (r.valueOf c.keyPath).isNull

/-- A record without a key gets the next one, and the generator moves on. -/
theorem nextKey_of_generates (hg : c.generates r) (h : c.add r = .ok (k, d)) :
    k = .integer c.nextKey ∧ d.nextKey = successor c.nextKey := by
  simp only [generates, Bool.and_eq_true] at hg
  obtain ⟨hauto, hnull⟩ := hg
  have hvalue : r.valueOf c.keyPath = .null := by
    cases hv : r.valueOf c.keyPath with
    | null => rfl
    | _ =>
      rw [hv] at hnull
      cases hnull
  have hkeyed : c.keyed r = .ok (.integer c.nextKey, r.setFirst c.keyPath (.integer c.nextKey)) := by
    rw [keyed, hvalue]
    exact if_pos hauto
  rw [Container.add, hkeyed] at h
  dsimp only at h
  split at h
  · cases h
  · cases h
    refine ⟨rfl, ?_⟩
    show (if c.autoIncrement then nextKeyAfter c.nextKey (.integer c.nextKey) else c.nextKey) = _
    rw [if_pos hauto, nextKeyAfter_self]

end Container

namespace Query

open Container

/-- The keys that the generator gives to rows that are added one after another. -/
def generated (columns : List String) : List (List Value) → Container → List Int64
  | [], _ => []
  | row :: rows, c =>
    match c.add (.ofList (columns.zip row)) with
    | .ok (_, d) =>
      (if c.generates (.ofList (columns.zip row)) then [c.nextKey] else []) ++ generated columns rows d
    | .error _ => []

variable {columns : List String}

/-- Keys are given out from the next one on. -/
theorem nextKey_le_generated : ∀ {rows : List (List Value)} {c : Container},
    ∀ k ∈ generated columns rows c, c.nextKey ≤ k
  | [], _ => fun _ hk => absurd hk List.not_mem_nil
  | row :: rows, c => by
    intro k hk
    rw [generated] at hk
    split at hk
    · rename_i d had
      have hle := (Edited.add had).nextKey_le
      rcases List.mem_append.1 hk with hk | hk
      · split at hk
        · rw [List.mem_singleton.1 hk]
          exact Int64.le_refl _
        · exact absurd hk List.not_mem_nil
      · exact Int64.le_trans hle (nextKey_le_generated k hk)
    · exact absurd hk List.not_mem_nil

/-- **The keys of one insertion are strictly increasing**, until the greatest integer is given out. -/
theorem generated_increasing : ∀ {rows : List (List Value)} {c : Container},
    (generated columns rows c).Pairwise fun k l => k < l ∨ k = Int64.maxValue
  | [], _ => List.Pairwise.nil
  | row :: rows, c => by
    rw [generated]
    split
    · rename_i d had
      have ih : (generated columns rows d).Pairwise fun k l => k < l ∨ k = Int64.maxValue := generated_increasing
      split
      · rename_i hg
        refine List.pairwise_cons.2 ⟨fun l hl => ?_, ih⟩
        by_cases hmax : c.nextKey = Int64.maxValue
        · exact .inr hmax
        · have hle := nextKey_le_generated l hl
          rw [(nextKey_of_generates hg had).2] at hle
          exact .inl (Int64.lt_of_lt_of_le (lt_successor hmax) hle)
      · exact ih
    · exact List.Pairwise.nil

theorem add_of_addRow {row : List Value} {c d : Container} (h : addRow columns row c = (.ok (), d)) :
    ∃ k, c.add (.ofList (columns.zip row)) = .ok (k, d) := by
  rw [addRow] at h
  split at h
  · rw [Attempt.whole] at h
    cases had : c.add (.ofList (columns.zip row)) with
    | error e =>
      rw [had] at h
      cases h
    | ok ke =>
      rw [had] at h
      cases h
      exact ⟨ke.1, rfl⟩
  · cases h

/-- The first of some rows is added, and then the others. -/
theorem addRows_cons {row : List Value} {rows : List (List Value)} {c d : Container}
    (h : addRows columns (row :: rows) c = (.ok (), d)) :
    ∃ k e, c.add (.ofList (columns.zip row)) = .ok (k, e) ∧ addRows columns rows e = (.ok (), d) := by
  rw [addRows, Attempt.forEach, Attempt.bind_apply] at h
  cases hr : addRow columns row c with
  | mk outcome e =>
    rw [hr] at h
    cases outcome with
    | error _ => cases h
    | ok _ =>
      obtain ⟨k, had⟩ := add_of_addRow hr
      exact ⟨k, e, had, h⟩

/-- All of them are behind the next key after the insertion. -/
theorem generated_lt_nextKey : ∀ {rows : List (List Value)} {c d : Container},
    addRows columns rows c = (.ok (), d) → ∀ k ∈ generated columns rows c, k < d.nextKey ∨ k = Int64.maxValue
  | [], _, _, _ => fun _ hk => absurd hk List.not_mem_nil
  | row :: rows, c, d, h => by
    intro k hk
    obtain ⟨key, e, had, hrest⟩ := addRows_cons h
    rw [generated, had] at hk
    rcases List.mem_append.1 hk with hk | hk
    · split at hk
      · rename_i hg
        obtain rfl := List.mem_singleton.1 hk
        obtain ⟨ks, hedited⟩ := (edits_addRows columns rows).edited e
        rw [hrest] at hedited
        have hle := hedited.nextKey_le
        rw [(nextKey_of_generates hg had).2] at hle
        by_cases hmax : c.nextKey = Int64.maxValue
        · exact .inr hmax
        · exact .inl (Int64.lt_of_lt_of_le (lt_successor hmax) hle)
      · exact absurd hk List.not_mem_nil
    · exact generated_lt_nextKey hrest k hk

/-- Records that are there stay when rows are added. -/
theorem keeps_contains_addRows (columns : List String) (rows : List (List Value)) {k : Key} (hk : k.Proper) :
    Attempt.Keeps (fun c : Container => c.Ordered ∧ c.records.contains k) (addRows columns rows) := by
  refine Attempt.Keeps.forEach (fun row => ?_) rows
  rw [addRow]
  split
  · exact Container.keeps_whole_map (fun _ => ()) fun hc had =>
      ⟨(Edited.add had).ordered hc.1, contains_of_add hc.1 had hk (.inr hc.2)⟩
  · exact Attempt.Keeps.fail _

/-- The keys that are given out are those of records afterwards. -/
theorem contains_of_mem_generated : ∀ {rows : List (List Value)} {c d : Container}, c.Ordered →
    addRows columns rows c = (.ok (), d) → ∀ k ∈ generated columns rows c, d.records.contains (.integer k)
  | [], _, _, _, _ => fun _ hk => absurd hk List.not_mem_nil
  | row :: rows, c, d, hc, h => by
    intro k hk
    obtain ⟨key, e, had, hrest⟩ := addRows_cons h
    have he := (Edited.add had).ordered hc
    rw [generated, had] at hk
    rcases List.mem_append.1 hk with hk | hk
    · split at hk
      · rename_i hg
        obtain rfl := List.mem_singleton.1 hk
        have hproper := Key.proper_integer c.nextKey
        have hkey := (nextKey_of_generates hg had).1
        have hthere := contains_of_add hc had hproper (.inl hkey.symm)
        have hkept := keeps_contains_addRows columns rows hproper e ⟨he, hthere⟩
        rw [hrest] at hkept
        exact hkept.2
      · exact absurd hk List.not_mem_nil
    · exact contains_of_mem_generated he hrest k hk

/-- Only a generator gives out keys. -/
theorem autoIncrement_of_mem_generated : ∀ {rows : List (List Value)} {c : Container} {k : Int64},
    k ∈ generated columns rows c → c.autoIncrement = true
  | [], _, _, hk => absurd hk List.not_mem_nil
  | row :: rows, c, k, hk => by
    rw [generated] at hk
    split at hk
    · rename_i key d had
      rcases List.mem_append.1 hk with hk | hk
      · split at hk
        · rename_i hg
          rw [generates, Bool.and_eq_true] at hg
          exact hg.1
        · exact absurd hk List.not_mem_nil
      · rw [← (Edited.add had).shape_eq.2.2]
        exact autoIncrement_of_mem_generated hk
    · exact absurd hk List.not_mem_nil

end Query

end TableStore
