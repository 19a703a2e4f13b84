import Mathlib.Data.EReal.Basic
import Mathlib.Data.Int.ConditionallyCompleteOrder
import TableStore.Proofs.KeyOrder

/-!
# Keys in the order of their exact values

- the bits of a real that is no NaN denote a dyadic rational or an infinity (`Binary64.value`), and more units are a
  greater number (`Binary64.value_eq`, `Binary64.ofUnits_strictMonoOn`);
- so the order of keys is the one of the exact values of numbers, before the bytes of texts (`Key.Exact`);
- the equality of conditions is another function, which draws the same line (`Key.sqlEq_iff_eq`);
- both together: `Key.order_is_exact_and_linear`.
-/

namespace TableStore

namespace Binary64

/-! ## What bits denote -/

/-- The absolute value that the bits of a finite real denote: with the exponent 0 the fraction on the scale of the
least exponent, and with any other one the fraction after a leading 1. -/
def magnitude (r : Binary64) : ℚ :=
  let exponent := r.rank / fractions
  let fraction : ℚ := (r.rank % fractions : ℕ) / (fractions : ℕ)
  if exponent = 0 then fraction * 2 ^ (-1022 : ℤ) else (1 + fraction) * 2 ^ ((exponent : ℤ) - 1023)

/-- The number that the bits of a real denote, if it is no NaN. -/
noncomputable def value (r : Binary64) : EReal :=
  if r.isFinite then (((if r.negative then -r.magnitude else r.magnitude : ℚ) : ℝ) : EReal)
  else if r.negative then ⊥ else ⊤

/-! ## Units -/

theorem one_eq : one = fractions * 2 ^ 1022 := by
  have hexponent : 1074 = 52 + 1022 := rfl
  rw [one, hexponent]
  generalize 1022 = n
  exact Nat.pow_add 2 52 n

/-- The units of a real are its absolute value on the scale of the least real. -/
theorem magnitude_eq (r : Binary64) : r.magnitude = (r.units : ℚ) / (one : ℕ) := by
  have hfractions : ((fractions : ℕ) : ℚ) ≠ 0 := by norm_num [fractions]
  have hscale : (2 : ℚ) ^ 1022 ≠ 0 := pow_ne_zero 1022 two_ne_zero
  have hone : ((one : ℕ) : ℚ) = (fractions : ℕ) * 2 ^ 1022 := by
    rw [one_eq, Nat.cast_mul, Nat.cast_pow, Nat.cast_ofNat]
  rw [magnitude, units, hone]
  generalize r.rank / fractions = exponent
  split
  · rw [zpow_neg, zpow_ofNat, div_mul_eq_div_div, div_eq_mul_inv (_ / _)]
  · have hexponent : (exponent : ℤ) - 1023 = (exponent - 1 : ℕ) - (1022 : ℕ) := by omega
    have hpow : ((Nat.pow 2 (exponent - 1) : ℕ) : ℚ) = 2 ^ (exponent - 1) := Nat.cast_pow 2 _
    rw [hexponent, zpow_sub₀ two_ne_zero, zpow_natCast, zpow_natCast, Nat.cast_mul, Nat.cast_add, hpow]
    generalize (2 : ℚ) ^ 1022 = scale at hscale
    field_simp

/-- The units of the infinities. -/
def infinityUnits : ℕ := scaled 2047 0

theorem units_lt_of_isFinite {r : Binary64} (h : r.isFinite) : r.units < infinityUnits := by
  have hrank : r.rank < 2047 * fractions := of_decide_eq_true h
  exact scaled_lt_of_exponent (Nat.mod_lt _ (by decide)) (Nat.div_lt_of_lt_mul (Nat.mul_comm .. ▸ hrank))

theorem units_eq_infinityUnits {r : Binary64} (hn : r.isNaN = false) (hf : r.isFinite = false) :
    r.units = infinityUnits := by
  have hrank : r.rank = infinityRank :=
    Nat.le_antisymm (Nat.not_lt.1 (of_decide_eq_false hn)) (Nat.not_lt.1 (of_decide_eq_false hf))
  have hparts : infinityRank / fractions = 2047 ∧ infinityRank % fractions = 0 := by decide
  rw [units, hrank, hparts.1, hparts.2]
  rfl

/-- The exponents of doubles go on beyond the integers of 64 bits. -/
theorem shifted_lt_shifted {m n : ℕ} (h : m + 11 < n) :
    0x8000000000000000 * Nat.pow 2 m < (fractions + 0) * Nat.pow 2 n := by
  have hsplit : Nat.pow 2 (m + 11) = Nat.pow 2 m * 2 ^ 11 := Nat.pow_add 2 m 11
  have hlt : Nat.pow 2 (m + 11) < Nat.pow 2 n := Nat.pow_lt_pow_right (by decide) h
  rw [hsplit] at hlt
  rw [fractions]
  omega

/-- No number of units that an integer of 64 bits has reaches an infinity. -/
theorem limit_lt_infinityUnits : limit < infinityUnits := by
  have hlt : 0x8000000000000000 * one < infinityUnits := by
    have hexponent : 1074 + 11 < 2047 - 1 := by decide
    rw [infinityUnits, scaled, if_neg (by decide), one]
    generalize 1074 = m at *
    generalize 2047 - 1 = n at *
    exact shifted_lt_shifted hexponent
  rw [limit_eq]
  exact_mod_cast hlt

/-- The number of so many units, from one infinity to the other. -/
noncomputable def ofUnits (u : ℤ) : EReal :=
  if u = -infinityUnits then ⊥ else if u = infinityUnits then ⊤ else ((u / (one : ℕ) : ℝ) : EReal)

theorem ofUnits_of_lt {u : ℤ} (h : -infinityUnits < u) (h' : u < infinityUnits) :
    ofUnits u = ((u / (one : ℕ) : ℝ) : EReal) := by
  rw [ofUnits, if_neg (ne_of_gt h), if_neg (ne_of_lt h')]

/-- More units are a greater number. -/
theorem ofUnits_strictMonoOn : StrictMonoOn ofUnits (Set.Icc (-infinityUnits) infinityUnits) := by
  intro u hu v hv huv
  have hone : (0 : ℝ) < (one : ℕ) := Nat.cast_pos.2 one_pos
  rcases eq_or_lt_of_le hu.1 with rfl | hu'
  · rw [ofUnits, if_pos rfl, ofUnits, if_neg (ne_of_gt huv)]
    split
    · exact bot_lt_top
    · exact EReal.bot_lt_coe _
  · rw [ofUnits_of_lt hu' (huv.trans_le hv.2), ofUnits, if_neg (ne_of_gt (hu'.trans huv))]
    split
    · exact EReal.coe_lt_top _
    · exact EReal.coe_lt_coe_iff.2 (div_lt_div_of_pos_right (Int.cast_lt.2 huv) hone)

theorem signedUnits_mem {r : Binary64} (hn : r.isNaN = false) :
    r.signedUnits ∈ Set.Icc (-(infinityUnits : ℤ)) infinityUnits := by
  have hle : r.units ≤ infinityUnits := by
    cases hf : r.isFinite with
    | true => exact (units_lt_of_isFinite hf).le
    | false => exact (units_eq_infinityUnits hn hf).le
  rw [signedUnits, Set.mem_Icc]
  split <;> omega

theorem toInt_mul_one_mem (i : Int64) : i.toInt * one ∈ Set.Icc (-(infinityUnits : ℤ)) infinityUnits := by
  have hlimit := limit_lt_infinityUnits
  have hbelow := lt_limit i
  have habove := neg_limit_le i
  constructor <;> omega

/-- **The bits of a real denote as much as it has units.** -/
theorem value_eq {r : Binary64} (hn : r.isNaN = false) : r.value = ofUnits r.signedUnits := by
  have hpos : 0 < infinityUnits := (Nat.zero_le _).trans_lt (units_lt_of_isFinite (r := zero) rfl)
  cases hf : r.isFinite with
  | true =>
    have hlt := units_lt_of_isFinite hf
    have hsigned : ((if r.negative then -r.magnitude else r.magnitude : ℚ) : ℝ) = r.signedUnits / (one : ℕ) := by
      rw [magnitude_eq, signedUnits]
      split <;> push_cast
      · rw [neg_div]
      · rfl
    rw [value, if_pos hf, hsigned, ofUnits_of_lt] <;> rw [signedUnits] <;> split <;> omega
  | false =>
    rw [value, if_neg (by simp [hf]), signedUnits, units_eq_infinityUnits hn hf, ofUnits]
    split
    · rw [if_pos rfl]
    · rw [if_neg (by omega), if_pos rfl]

theorem toInt_eq (i : Int64) : ((i.toInt : ℝ) : EReal) = ofUnits (i.toInt * one) := by
  have hone : ((one : ℕ) : ℝ) ≠ 0 := Nat.cast_ne_zero.2 (Nat.ne_of_gt one_pos)
  have hlimit := limit_lt_infinityUnits
  have hbelow := lt_limit i
  have habove := neg_limit_le i
  rw [ofUnits_of_lt (by omega) (by omega), Int.cast_mul, Int.cast_natCast, mul_div_cancel_right₀ _ hone]

end Binary64

namespace Key

/-! ## Exact order -/

/-- The number that a key is, if it is one. -/
noncomputable def number? : Key → Option EReal
  | integer i => some (i.toInt : ℝ)
  | real r => some r.value
  | text _ => none

/-- Two keys stand in the order of what they stand for. -/
structure Exact (a b : Key) : Prop where
  /-- Numbers are in the order of their exact values. -/
  numbers : ∀ x y, a.number? = some x → b.number? = some y → compare a b = cmp x y
  /-- Numbers come before texts. -/
  mixed : a.number?.isSome → b.number? = none → compare a b = .lt ∧ compare b a = .gt
  /-- Texts are in the order of their bytes. -/
  texts : ∀ s t, a = text s → b = text t → compare a b = compare (Text.bytes s) (Text.bytes t)

theorem amount_mem {k : Key} (h : k.Proper) :
    k.amount ∈ Set.Icc (-(Binary64.infinityUnits : ℤ)) Binary64.infinityUnits := by
  cases k with
  | integer i => exact Binary64.toInt_mul_one_mem i
  | real r => exact Binary64.signedUnits_mem (proper_real.1 h).1
  | text s => exact ⟨neg_nonpos.2 (Int.natCast_nonneg _), Int.natCast_nonneg _⟩

/-- The number that a key is has the amount of the key. -/
theorem number?_eq_some {k : Key} (h : k.Proper) {x : EReal} :
    k.number? = some x ↔ k.kind = 0 ∧ Binary64.ofUnits k.amount = x := by
  cases k with
  | integer i =>
    have hnumber : number? (integer i) = some (Binary64.ofUnits (integer i).amount) :=
      congrArg some (Binary64.toInt_eq i)
    rw [hnumber, Option.some_inj, kind, and_iff_right rfl]
  | real r =>
    have hnumber : number? (real r) = some (Binary64.ofUnits (real r).amount) :=
      congrArg some (Binary64.value_eq (proper_real.1 h).1)
    rw [hnumber, Option.some_inj, kind, and_iff_right rfl]
  | text s => exact ⟨(nomatch ·), fun he => nomatch he.1⟩

/-- **The order of keys is exact.** -/
theorem exact_of_proper {a b : Key} (ha : a.Proper) (hb : b.Proper) : Exact a b where
  numbers x y hx hy := by
    obtain ⟨hka, rfl⟩ := (number?_eq_some ha).1 hx
    obtain ⟨hkb, rfl⟩ := (number?_eq_some hb).1 hy
    rw [compare_eq_compareParts ha hb, compareParts_numbers hka hkb,
      Binary64.ofUnits_strictMonoOn.cmp_map_eq (amount_mem ha) (amount_mem hb), cmp_eq_compare]
  mixed hx hy := by
    cases b with
    | text t =>
      cases a with
      | text s => cases hx
      | integer i => exact ⟨rfl, rfl⟩
      | real r => exact ⟨rfl, rfl⟩
    | integer i => cases hy
    | real r => cases hy
  texts s t hs ht := by rw [hs, ht]; rfl

/-! ## The equality of conditions -/

theorem eq_iff_amount_eq {a b : Key} (ha : a.Proper) (hb : b.Proper) (hka : a.kind = 0) (hkb : b.kind = 0) :
    a = b ↔ a.amount = b.amount := by
  refine ⟨fun h => h ▸ rfl, fun h => ?_⟩
  exact eq_of_parts ha hb (hka.trans hkb.symm) h ((letters_of_number hka).trans (letters_of_number hkb).symm)

theorem ne_text_of_number {k : Key} (h : k.kind = 0) (s : String) : k ≠ text s := by
  rintro rfl
  cases h

theorem ofValue?_integer {i : Int64} {k : Key} (h : ofValue? (.integer i) = some k) :
    k.kind = 0 ∧ k.amount = i.toInt * Binary64.one := by
  cases h
  exact ⟨rfl, rfl⟩

/-- The key of a real has its exact value, whether it is an integer or a real. -/
theorem ofValue?_real {r : Binary64} {k : Key} (h : ofValue? (.real r) = some k) :
    r.isNaN = false ∧ k.kind = 0 ∧ k.amount = r.signedUnits := by
  simp only [ofValue?] at h
  split at h
  · cases h
  rename_i hn
  have hn : r.isNaN = false := by simpa using hn
  split at h <;> cases h
  · rename_i i hi
    exact ⟨hn, rfl, ((Binary64.toInt64?_eq_some hn).1 hi).symm⟩
  · exact ⟨hn, rfl, rfl⟩

theorem compareInt_eq_some_eq {r : Binary64} (hn : r.isNaN = false) (i : Int64) :
    (Binary64.compareInt i r == some .eq) = true ↔ i.toInt * Binary64.one = r.signedUnits := by
  rw [Binary64.compareInt_eq hn, beq_iff_eq, Option.some_inj, Int.compare_eq_eq]

/-- **The equality of conditions is the identity of keys.** -/
theorem sqlEq_iff_eq {v w : Value} {k l : Key} (hv : ofValue? v = some k) (hw : ofValue? w = some l) :
    v.sqlEq w = true ↔ k = l := by
  have hk := proper_of_ofValue? hv
  have hl := proper_of_ofValue? hw
  cases v with
  | null => cases hv
  | boolean b => cases hv
  | integer i =>
    obtain ⟨hki, hai⟩ := ofValue?_integer hv
    cases w with
    | null => cases hw
    | boolean b => cases hw
    | integer j =>
      cases hv
      cases hw
      simp [Value.sqlEq]
    | real s =>
      obtain ⟨hn, hks, has⟩ := ofValue?_real hw
      rw [eq_iff_amount_eq hk hl hki hks, hai, has]
      exact compareInt_eq_some_eq hn i
    | text t =>
      cases hw
      simp [Value.sqlEq, ne_text_of_number hki]
  | real r =>
    obtain ⟨hnr, hkr, har⟩ := ofValue?_real hv
    cases w with
    | null => cases hw
    | boolean b => cases hw
    | integer j =>
      obtain ⟨hkj, haj⟩ := ofValue?_integer hw
      rw [eq_iff_amount_eq hk hl hkr hkj, har, haj]
      exact (compareInt_eq_some_eq hnr j).trans eq_comm
    | real s =>
      obtain ⟨hns, hks, has⟩ := ofValue?_real hw
      rw [eq_iff_amount_eq hk hl hkr hks, har, has]
      simp [Value.sqlEq, Binary64.sameValue, hnr, hns]
    | text t =>
      cases hw
      simp [Value.sqlEq, ne_text_of_number hkr]
  | text s =>
    cases hv
    cases w with
    | null => cases hw
    | boolean b => cases hw
    | integer j => simp [Value.sqlEq, (ne_text_of_number (ofValue?_integer hw).1 s).symm]
    | real r => simp [Value.sqlEq, (ne_text_of_number (ofValue?_real hw).2.1 s).symm]
    | text t =>
      cases hw
      simp [Value.sqlEq]

/-! ## Linear and exact -/

/-- **Over the keys of values the order is linear and exact, and equality in a condition is the same key**, so that it
is symmetric and transitive where values are keys. -/
theorem order_is_exact_and_linear {u v w : Value} {a b c : Key} (ha : ofValue? u = some a) (hb : ofValue? v = some b)
    (hc : ofValue? w = some c) :
    (compare a a = .eq ∧ compare b a = (compare a b).swap ∧
      (compare a b = .lt → compare b c = .lt → compare a c = .lt) ∧
      (compare a b = .lt ∨ a = b ∨ compare b a = .lt) ∧ (compare a b = .eq ↔ a = b)) ∧
    Exact a b ∧
    (u.sqlEq v = true ↔ compare a b = .eq) ∧ u.sqlEq v = v.sqlEq u ∧
      (u.sqlEq v = true → v.sqlEq w = true → u.sqlEq w = true) := by
  have hpa := proper_of_ofValue? ha
  have hpb := proper_of_ofValue? hb
  have hpc := proper_of_ofValue? hc
  have heq : compare a b = .eq ↔ a = b :=
    ⟨LawfulOn.eq_of_compare hpa hpb, fun h => h ▸ LawfulOn.compare_self hpa⟩
  have hswap : compare b a = (compare a b).swap := by
    cases h : compare a b with
    | lt => exact LawfulOn.gt_of_lt hpa hpb h
    | eq => rw [heq.1 h]; exact LawfulOn.compare_self hpb
    | gt => exact LawfulOn.lt_of_gt hpa hpb h
  have htotal : compare a b = .lt ∨ a = b ∨ compare b a = .lt := by
    cases h : compare a b with
    | lt => exact .inl rfl
    | eq => exact .inr (.inl (heq.1 h))
    | gt => exact .inr (.inr (LawfulOn.lt_of_gt hpa hpb h))
  have hsymm : u.sqlEq v = v.sqlEq u := by
    rw [Bool.eq_iff_iff, sqlEq_iff_eq ha hb, sqlEq_iff_eq hb ha, eq_comm]
  refine ⟨⟨LawfulOn.compare_self hpa, hswap, LawfulOn.lt_trans hpa hpb hpc, htotal, heq⟩, exact_of_proper hpa hpb,
    (sqlEq_iff_eq ha hb).trans heq.symm, hsymm, fun hab hbc => ?_⟩
  rw [sqlEq_iff_eq ha hb] at hab
  rw [sqlEq_iff_eq hb hc] at hbc
  exact (sqlEq_iff_eq ha hc).2 (hab.trans hbc)

/-- The integer after 2^53, the real 2^53, which is another key, and a text. -/
theorem order_above_exact_integers :
    ofValue? (.real ⟨0x4340000000000000⟩) = some (integer 9007199254740992) ∧
    compare (integer 9007199254740992) (integer 9007199254740993) = .lt ∧
    (Value.real ⟨0x4340000000000000⟩).sqlEq (.integer 9007199254740993) = false := by
  have hreal : ofValue? (.real ⟨0x4340000000000000⟩) = some (integer 9007199254740992) := by decide +kernel
  have horder := order_is_exact_and_linear hreal (v := .integer 9007199254740993) rfl (w := .text "") rfl
  have hlt : compare (integer 9007199254740992) (integer 9007199254740993) = .lt := rfl
  refine ⟨hreal, hlt, ?_⟩
  have hne := mt horder.2.2.1.1 (by rw [hlt]; decide)
  exact Bool.not_eq_true _ ▸ hne

end Key

end TableStore
