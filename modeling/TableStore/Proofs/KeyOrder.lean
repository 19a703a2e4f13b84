import TableStore.Proofs.OrderedMap
import TableStore.Value.Key

/-!
# The order of keys

- a key is `Proper` when it is the key of its own value: a real that is an integer of 64 bits or a NaN is none
  (`proper_of_ofValue?`);
- the units of a real grow with its rank, so keys that are no NaN are ordered by the exact values of numbers, before
  the bytes of texts; only the zeros among the reals are told apart by their signs (`compare_of_units`);
- hence the order is linear on proper keys, and tells them apart.
-/

namespace TableStore

/-! ## Units and ranks -/

namespace Binary64

/-- The units of an exponent and a fraction. -/
def scaled (exponent fraction : Nat) : Nat :=
  if exponent = 0 then fraction else (fractions + fraction) * Nat.pow 2 (exponent - 1)

theorem scaled_lt_of_fraction {e f f' : Nat} (h : f < f') : scaled e f < scaled e f' := by
  simp only [scaled]
  split
  · exact h
  · exact Nat.mul_lt_mul_of_pos_right (by omega) (Nat.two_pow_pos _)

/-- A whole binade lies between two exponents. -/
theorem scaled_lt_of_exponent {e e' f f' : Nat} (hf : f < fractions) (h : e < e') : scaled e f < scaled e' f' := by
  have hle : fractions * Nat.pow 2 (e' - 1) ≤ scaled e' f' := by
    rw [scaled, if_neg (by omega)]
    exact Nat.mul_le_mul_right _ (Nat.le_add_right _ _)
  have hsucc : Nat.pow 2 (e - 1 + 1) = Nat.pow 2 (e - 1) * 2 := rfl
  refine Nat.lt_of_lt_of_le ?_ hle
  rw [scaled]
  split
  · exact Nat.lt_of_lt_of_le hf (Nat.le_mul_of_pos_right _ (Nat.two_pow_pos _))
  · rename_i he
    calc (fractions + f) * Nat.pow 2 (e - 1)
        < (2 * fractions) * Nat.pow 2 (e - 1) := Nat.mul_lt_mul_of_pos_right (by omega) (Nat.two_pow_pos _)
      _ = fractions * Nat.pow 2 (e - 1 + 1) := by rw [hsucc]; ac_rfl
      _ ≤ fractions * Nat.pow 2 (e' - 1) := Nat.mul_le_mul_left _ (Nat.pow_le_pow_right (by omega) (by omega))

/-- Greater ranks have more units. -/
theorem units_lt_units {r s : Binary64} (h : r.rank < s.rank) : r.units < s.units := by
  show scaled (r.rank / fractions) (r.rank % fractions) < scaled (s.rank / fractions) (s.rank % fractions)
  rcases Nat.lt_or_ge (r.rank / fractions) (s.rank / fractions) with he | he
  · exact scaled_lt_of_exponent (Nat.mod_lt _ (by decide)) he
  · have he' : r.rank / fractions = s.rank / fractions :=
      Nat.le_antisymm (Nat.div_le_div_right (Nat.le_of_lt h)) he
    rw [he']
    apply scaled_lt_of_fraction
    have hr := Nat.div_add_mod r.rank fractions
    have hs := Nat.div_add_mod s.rank fractions
    rw [he'] at hr
    omega

theorem units_lt_units_iff {r s : Binary64} : r.units < s.units ↔ r.rank < s.rank := by
  refine ⟨fun h => ?_, units_lt_units⟩
  rcases Nat.lt_trichotomy r.rank s.rank with hlt | heq | hgt
  · exact hlt
  · simp only [units, heq] at h
    omega
  · have := units_lt_units hgt
    omega

/-- A real is known by its sign and its rank. -/
theorem ext_of_rank {r s : Binary64} (hn : r.negative = s.negative) (hr : r.rank = s.rank) : r = s := by
  obtain ⟨b⟩ := r
  obtain ⟨c⟩ := s
  have hb := b.toNat_lt
  have hc := c.toNat_lt
  have hn' : signBit ≤ b.toNat ↔ signBit ≤ c.toNat := decide_eq_decide.1 hn
  simp only [rank, signBit] at hn' hr
  refine congrArg Binary64.mk (UInt64.toNat_inj.1 ?_)
  omega

/-- A real of a sign and some units. -/
theorem ext_of_signedUnits {r s : Binary64} (h0 : r.units ≠ 0) (h : r.signedUnits = s.signedUnits) : r = s := by
  have hu : r.units = s.units ∧ r.negative = s.negative := by
    cases hr : r.negative <;> cases hs : s.negative <;> simp [signedUnits, hr, hs] at h ⊢ <;> omega
  refine ext_of_rank hu.2 ?_
  have h1 := units_lt_units_iff (r := r) (s := s)
  have h2 := units_lt_units_iff (r := s) (s := r)
  omega

/-- Away from zero the order of all bit patterns is the order of the values. -/
theorem compareTotal_eq {r s : Binary64} (hs : s.units ≠ 0) :
    r.compareTotal s = compare r.signedUnits s.signedUnits := by
  have h1 := units_lt_units_iff (r := r) (s := s)
  have h2 := units_lt_units_iff (r := s) (s := r)
  have hlt : r.place < s.place ↔ r.signedUnits < s.signedUnits := by
    cases hrn : r.negative <;> cases hsn : s.negative <;> simp [place, signedUnits, hrn, hsn] <;> omega
  have hgt : s.place < r.place ↔ s.signedUnits < r.signedUnits := by
    cases hrn : r.negative <;> cases hsn : s.negative <;> simp [place, signedUnits, hrn, hsn] <;> omega
  rw [compareTotal]
  rcases Int.lt_trichotomy r.signedUnits s.signedUnits with h | h | h
  · rw [Int.compare_eq_lt.2 h, Int.compare_eq_lt.2 (hlt.2 h)]
  · rw [Int.compare_eq_eq.2 h, Int.compare_eq_eq.2 (by omega)]
  · rw [Int.compare_eq_gt.2 h, Int.compare_eq_gt.2 (hgt.2 h)]

/-- The order of all bit patterns seen from the other side. -/
theorem compareTotal_swap (r s : Binary64) : r.compareTotal s = (s.compareTotal r).swap := Std.OrientedOrd.eq_swap

theorem one_pos : 0 < one := by
  unfold one
  generalize 1074 = n
  exact Nat.two_pow_pos n

/-- The integer that a real is has the same value. -/
theorem toInt64?_eq_some {r : Binary64} (hr : r.isNaN = false) {i : Int64} :
    r.toInt64? = some i ↔ r.signedUnits = i.toInt * one := by
  have h0 : (one : Int) ≠ 0 := by have := one_pos; omega
  simp only [toInt64?, hr, Bool.not_false, Bool.true_and, beq_iff_eq, floor]
  constructor
  · intro h
    split at h
    · rename_i hm
      rw [toInt_of_int64? h, Int.ediv_mul_cancel (Int.dvd_of_emod_eq_zero hm)]
    · cases h
  · intro h
    rw [h, Int.mul_emod_left, if_pos rfl, Int.mul_ediv_cancel _ h0, int64?_toInt]

/-! ### Integers and reals -/

theorem limit_eq : limit = 0x8000000000000000 * (one : Int) := rfl

theorem lt_limit (i : Int64) : i.toInt * one < limit := by
  have hi : i.toInt < 0x8000000000000000 := Int64.toInt_lt i
  exact Int.mul_lt_mul_of_pos_right hi (Int.natCast_pos.2 one_pos)

theorem neg_limit_le (i : Int64) : -limit ≤ i.toInt * one := by
  have hi : -0x8000000000000000 ≤ i.toInt := Int64.le_toInt i
  rw [limit_eq, ← Int.neg_mul]
  exact Int.mul_le_mul_of_nonneg_right hi (Int.natCast_nonneg one)

/-- A real lies between its floor and the next integer. -/
theorem floor_mul_le (r : Binary64) : r.floor * one ≤ r.signedUnits ∧ r.signedUnits < (r.floor + 1) * one := by
  have hone : (0 : Int) < one := Int.natCast_pos.2 one_pos
  have hsplit := Int.mul_ediv_add_emod r.signedUnits one
  have hrest := Int.emod_nonneg r.signedUnits (Int.ne_of_gt hone)
  have hlt := Int.emod_lt_of_pos r.signedUnits hone
  rw [Int.mul_comm] at hsplit
  rw [Int.add_mul, Int.one_mul, floor]
  constructor <;> omega

/-- **An integer and a real compare by their exact values**, also where the real is beyond all integers and where the
floor decides. -/
theorem compareInt_eq {r : Binary64} (hr : r.isNaN = false) (i : Int64) :
    compareInt i r = some (compare (i.toInt * one) r.signedUnits) := by
  have hone : (0 : Int) < one := Int.natCast_pos.2 one_pos
  have hbelow := lt_limit i
  have habove := neg_limit_le i
  rw [compareInt, hr, if_neg Bool.false_ne_true]
  split
  · rw [Int.compare_eq_lt.2 (by omega)]
  split
  · rw [Int.compare_eq_gt.2 (by omega)]
  obtain ⟨hfloor, hnext⟩ := floor_mul_le r
  rcases Int.lt_trichotomy i.toInt r.floor with h | h | h
  · have hmul := Int.mul_lt_mul_of_pos_right h hone
    rw [Int.compare_eq_lt.2 h, Int.compare_eq_lt.2 (Int.lt_of_lt_of_le hmul hfloor)]
  · rw [Int.compare_eq_eq.2 h, h]
    change some (if r.floor * one < r.signedUnits then Ordering.lt else .eq) = _
    by_cases hleft : r.floor * one < r.signedUnits
    · rw [if_pos hleft, Int.compare_eq_lt.2 hleft]
    · rw [if_neg hleft, Int.compare_eq_eq.2 (Int.le_antisymm hfloor (Int.not_lt.1 hleft))]
  · have hmul := Int.mul_le_mul_of_nonneg_right (Int.add_one_le_of_lt h) (Int.le_of_lt hone)
    rw [Int.compare_eq_gt.2 h, Int.compare_eq_gt.2 (Int.lt_of_lt_of_le hnext hmul)]

end Binary64

/-! ## Proper keys -/

namespace Key

/-- The key is the key of its own value. -/
def Proper (k : Key) : Prop := ofValue? k.toValue = some k

instance (k : Key) : Decidable k.Proper := inferInstanceAs (Decidable (_ = _))

theorem proper_integer (i : Int64) : (integer i).Proper := rfl

theorem proper_text (s : String) : (text s).Proper := rfl

theorem proper_real {r : Binary64} : (real r).Proper ↔ r.isNaN = false ∧ r.toInt64? = none := by
  simp only [Proper, toValue, ofValue?]
  cases r.isNaN <;> cases r.toInt64? <;> simp

/-- Every key that a value has is proper. -/
theorem proper_of_ofValue? {v : Value} {k : Key} (h : ofValue? v = some k) : k.Proper := by
  cases v with
  | null => cases h
  | boolean b => cases h
  | integer i => cases h; exact proper_integer i
  | text s => cases h; exact proper_text s
  | real r =>
    simp only [ofValue?] at h
    split at h
    · cases h
    · rename_i hn
      split at h
      · cases h; exact proper_integer _
      · rename_i hi
        cases h
        exact proper_real.2 ⟨by simpa using hn, hi⟩

/-- A real that is a key has units: a zero is an integer. -/
theorem units_ne_zero {r : Binary64} (h : (real r).Proper) : r.units ≠ 0 := by
  obtain ⟨hn, hi⟩ := proper_real.1 h
  intro h0
  have hs : r.signedUnits = 0 := by
    rw [Binary64.signedUnits, h0]
    split <;> rfl
  have hz : r.toInt64? = some 0 := (Binary64.toInt64?_eq_some hn).2 (hs.trans (Int.zero_mul _).symm)
  rw [hi] at hz
  cases hz

/-- The key compares with all others: it is not a NaN. -/
def Comparable : Key → Prop
  | .real r => r.isNaN = false
  | _ => True

theorem Proper.comparable {k : Key} (hk : k.Proper) : k.Comparable := by
  cases k with
  | real r => exact (proper_real.1 hk).1
  | integer i => trivial
  | text s => trivial

/-! ## The order -/

/-- Numbers before texts. -/
def kind : Key → Nat
  | integer _ | real _ => 0
  | text _ => 1

/-- The exact value of a number, in units. -/
def amount : Key → Int
  | integer i => i.toInt * Binary64.one
  | real r => r.signedUnits
  | text _ => 0

/-- The bytes of a text. -/
def letters : Key → List UInt8
  | integer _ | real _ => []
  | text s => Text.bytes s

/-- The order by kind, exact value and bytes. -/
abbrev compareParts : Key → Key → Ordering :=
  compareLex (compareOn kind) (compareLex (compareOn amount) (compareOn letters))

theorem compare_mul_one (i j : Int) : compare (i * Binary64.one) (j * Binary64.one) = compare i j := by
  have h0 : (0 : Int) < Binary64.one := by have := Binary64.one_pos; omega
  rcases Int.lt_trichotomy i j with h | h | h
  · rw [Int.compare_eq_lt.2 h, Int.compare_eq_lt.2 (Int.mul_lt_mul_of_pos_right h h0)]
  · rw [h, Int.compare_eq_eq.2 rfl, Int.compare_eq_eq.2 rfl]
  · rw [Int.compare_eq_gt.2 h, Int.compare_eq_gt.2 (Int.mul_lt_mul_of_pos_right h h0)]

theorem letters_of_number {a : Key} (ha : a.kind = 0) : a.letters = [] := by
  cases a with
  | text s => cases ha
  | _ => rfl

theorem compareParts_numbers {a b : Key} (ha : a.kind = 0) (hb : b.kind = 0) :
    compareParts a b = compare a.amount b.amount := by
  rw [compareParts, compareLex, compareLex, compareOn, compareOn, compareOn, ha, hb, letters_of_number ha,
    letters_of_number hb]
  cases compare a.amount b.amount <;> rfl

/-- The order of keys seen from the other side; a NaN is after all integers. -/
instance : Std.OrientedOrd Key where
  eq_swap {a b} := by
    show Key.compare a b = (Key.compare b a).swap
    cases a with
    | integer i =>
      cases b with
      | integer j => exact Std.OrientedOrd.eq_swap (a := i.toInt) (b := j.toInt)
      | real s => cases h : Binary64.compareInt i s <;> simp [Key.compare, h]
      | text t => rfl
    | real r =>
      cases b with
      | integer j => cases h : Binary64.compareInt j r <;> simp [Key.compare, h]
      | real s => exact Binary64.compareTotal_swap r s
      | text t => rfl
    | text s =>
      cases b with
      | integer j => rfl
      | real r => rfl
      | text t => exact Std.OrientedOrd.eq_swap (a := Text.bytes s) (b := Text.bytes t)

/-- A NaN is equal to no other key. -/
theorem compare_ne_eq_of_nan {r : Binary64} (hr : r.isNaN = true) {k : Key} (hk : k.Comparable) :
    compare (real r) k ≠ .eq := by
  show Key.compare (real r) k ≠ .eq
  cases k with
  | integer i => simp [Key.compare, Binary64.compareInt, hr]
  | text s => simp [Key.compare]
  | real s =>
    intro h
    rw [Key.compare, Binary64.compareTotal, Int.compare_eq_eq, Binary64.place, Binary64.place] at h
    have hrank : r.rank = s.rank := by split at h <;> split at h <;> omega
    have hs : s.isNaN = false := hk
    rw [Binary64.isNaN, hrank] at hr
    rw [Binary64.isNaN, hr] at hs
    cases hs

/-- The order is that of the parts, unless both keys are real zeros: these are told apart by their signs. -/
theorem compare_of_units {a b : Key} (ha : a.Comparable) (hb : b.Comparable)
    (h : ∀ r s, a = real r → b = real s → r.units ≠ 0 ∨ s.units ≠ 0) : compare a b = compareParts a b := by
  show Key.compare a b = _
  cases a with
  | integer i =>
    cases b with
    | integer j =>
      rw [compareParts_numbers rfl rfl]
      exact (compare_mul_one i.toInt j.toInt).symm
    | real s =>
      have hs : s.isNaN = false := hb
      rw [compareParts_numbers rfl rfl, Key.compare, Binary64.compareInt_eq hs]
      rfl
    | text t => rfl
  | real r =>
    have hr : r.isNaN = false := ha
    cases b with
    | integer j =>
      rw [compareParts_numbers rfl rfl, Key.compare, Binary64.compareInt_eq hr]
      exact Std.OrientedCmp.eq_swap.symm
    | real s =>
      rw [compareParts_numbers rfl rfl]
      rcases h r s rfl rfl with h | h
      · rw [Key.compare, Binary64.compareTotal_swap, Binary64.compareTotal_eq h]
        exact Std.OrientedCmp.eq_swap.symm
      · exact Binary64.compareTotal_eq h
    | text t => rfl
  | text s =>
    cases b with
    | integer j => rfl
    | real r => rfl
    | text t => rfl

/-- A proper key is ordered by its parts with every key that is no NaN. -/
theorem compare_of_proper {a b : Key} (ha : a.Proper) (hb : b.Comparable) : compare a b = compareParts a b :=
  compare_of_units ha.comparable hb fun _ _ hr _ => .inl (units_ne_zero (hr ▸ ha))

/-- On proper keys the order is the order of the parts. -/
theorem compare_eq_compareParts {a b : Key} (ha : a.Proper) (hb : b.Proper) : compare a b = compareParts a b :=
  compare_of_proper ha hb.comparable

theorem text_bytes_inj {s t : String} (h : Text.bytes s = Text.bytes t) : s = t := by
  have h' : s.toUTF8.data = t.toUTF8.data := Array.toList_inj.1 h
  exact String.toByteArray_inj.1 (ByteArray.ext h')

/-- Proper keys with the same parts are the same. -/
theorem eq_of_parts {a b : Key} (ha : a.Proper) (hb : b.Proper) (hk : a.kind = b.kind) (hm : a.amount = b.amount)
    (hl : a.letters = b.letters) : a = b := by
  have h0 : (Binary64.one : Int) ≠ 0 := by have := Binary64.one_pos; omega
  cases a with
  | integer i =>
    cases b with
    | integer j => exact congrArg integer (Int64.toInt_inj.1 (Int.eq_of_mul_eq_mul_right h0 hm))
    | real s =>
      obtain ⟨hn, hi⟩ := proper_real.1 hb
      rw [(Binary64.toInt64?_eq_some hn).2 hm.symm] at hi
      cases hi
    | text t => cases hk
  | real r =>
    cases b with
    | integer j =>
      obtain ⟨hn, hi⟩ := proper_real.1 ha
      rw [(Binary64.toInt64?_eq_some hn).2 hm] at hi
      cases hi
    | real s => exact congrArg real (Binary64.ext_of_signedUnits (units_ne_zero ha) hm)
    | text t => cases hk
  | text s =>
    cases b with
    | integer j => cases hk
    | real r => cases hk
    | text t => exact congrArg text (text_bytes_inj hl)

/-- **The order of keys is linear on the proper ones.** -/
instance : LawfulOn Proper where
  compare_self _ := Std.ReflCmp.compare_self
  eq_of_compare ha hb h := by
    rw [compare_eq_compareParts ha hb, compareParts, compareLex, Ordering.then_eq_eq, compareLex,
      Ordering.then_eq_eq] at h
    exact eq_of_parts ha hb (Std.LawfulEqOrd.eq_of_compare h.1) (Std.LawfulEqOrd.eq_of_compare h.2.1)
      (Std.LawfulEqOrd.eq_of_compare h.2.2)
  lt_of_gt _ _ h := Std.OrientedCmp.lt_of_gt h
  gt_of_lt _ _ h := Std.OrientedCmp.gt_of_lt h
  lt_trans ha hb hc h h' := by
    rw [compare_eq_compareParts ha hb] at h
    rw [compare_eq_compareParts hb hc] at h'
    rw [compare_eq_compareParts ha hc]
    exact Std.TransCmp.lt_trans h h'

end Key

end TableStore
