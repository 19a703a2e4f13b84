import TableStore.Number.Shortest
import TableStore.Proofs.JsonNumber

/-!
# Ranks of ratios and decimals

- the rank of the real nearest to a ratio depends on the value of the ratio only (`rankOfRatio_congr`), and a number of
  units that is a real is met exactly (`rankOfRatio_units`);
- integers below 2^53 are reals (`units_ofRatio`), and greater ones are not rounded below 2^53 (`le_units_ofRatio`);
- the rank of a decimal is that of its ratio (`Decimal.rank_eq`), so zeros after its digits do not matter
  (`Decimal.rank_shift`), and the shortest decimal of a finite real is read as that real
  (`Decimal.toBinary64_shortest`).
-/

namespace TableStore

namespace Binary64

/-! ## Signs and ranks -/

theorem toNat_ofRank (negative : Bool) {n : Nat} (h : n < signBit) :
    (ofRank negative n).bits.toNat = if negative then signBit + n else n := by
  have hs : signBit = 9223372036854775808 := rfl
  simp only [ofRank, Nat.toUInt64, UInt64.toNat_ofNat']
  split <;> omega

theorem rank_ofRank (negative : Bool) {n : Nat} (h : n < signBit) : (ofRank negative n).rank = n := by
  rw [rank, toNat_ofRank negative h]
  split
  · rw [Nat.add_mod_left, Nat.mod_eq_of_lt h]
  · exact Nat.mod_eq_of_lt h

theorem negative_ofRank (negative : Bool) {n : Nat} (h : n < signBit) : (ofRank negative n).negative = negative := by
  rw [Binary64.negative, toNat_ofRank negative h]
  cases negative with
  | true => simp
  | false => simpa using h

/-- A real is the real of its sign and its rank. -/
theorem ofRank_rank (r : Binary64) : ofRank r.negative r.rank = r := by
  have h : r.rank < signBit := Nat.mod_lt _ (by decide)
  exact ext_of_rank (negative_ofRank _ h) (rank_ofRank _ h)

theorem infinityRank_lt_signBit : infinityRank < signBit := by decide

theorem rankOfRatio_lt_signBit (num den : Nat) : rankOfRatio num den < signBit :=
  Nat.lt_of_le_of_lt (Nat.min_le_right _ _) infinityRank_lt_signBit

/-! ## Quotients rounded to integers -/

theorem divideToEven_mul (num den : Nat) {k : Nat} (hk : 0 < k) :
    divideToEven (num * k) (den * k) = divideToEven num den := by
  have hcompare : compare (2 * (num % den * k)) (den * k) = compare (2 * (num % den)) den := by
    rw [← Nat.mul_assoc]
    rcases Nat.lt_trichotomy (2 * (num % den)) den with h | h | h
    · rw [Nat.compare_eq_lt.2 h, Nat.compare_eq_lt.2 (Nat.mul_lt_mul_of_pos_right h hk)]
    · rw [Nat.compare_eq_eq.2 h, Nat.compare_eq_eq.2 (by rw [h])]
    · rw [Nat.compare_eq_gt.2 h, Nat.compare_eq_gt.2 (Nat.mul_lt_mul_of_pos_right h hk)]
  simp only [divideToEven, Nat.mul_div_mul_right _ _ hk, Nat.mul_mod_mul_right, hcompare]

/-- A quotient without a rest is not rounded. -/
theorem divideToEven_mul_self (q : Nat) {den : Nat} (h : 0 < den) : divideToEven (q * den) den = q := by
  have hlt : compare 0 den = .lt := Nat.compare_eq_lt.2 h
  simp only [divideToEven, Nat.mul_mod_left, Nat.mul_zero, hlt, Nat.mul_div_cancel _ h]

theorem div_le_divideToEven (num den : Nat) : num / den ≤ divideToEven num den := by
  simp only [divideToEven]
  split <;> omega

theorem divideToEven_le (num den : Nat) : divideToEven num den ≤ num / den + 1 := by
  simp only [divideToEven]
  split
  · omega
  · omega
  · have := Nat.mod_lt (num / den) (show 0 < 2 by decide)
    omega

theorem divideToEven_of_lt {num den : Nat} (h : 2 * num < den) : divideToEven num den = 0 := by
  have hlt : num < den := by omega
  have hcompare : compare (2 * num) den = .lt := Nat.compare_eq_lt.2 h
  simp only [divideToEven, Nat.mod_eq_of_lt hlt, hcompare, Nat.div_eq_of_lt hlt]

/-! ## Ranks of ratios -/

theorem rankOfRatio_mul (num den : Nat) {k : Nat} (hk : 0 < k) :
    rankOfRatio (num * k) (den * k) = rankOfRatio num den := by
  unfold rankOfRatio
  generalize one = o
  have hnum : num * k * o = num * o * k := by ac_rfl
  have hden : ∀ p : Nat, den * k * p = den * p * k := fun p => by ac_rfl
  simp only [hnum, hden, Nat.mul_div_mul_right _ _ hk, divideToEven_mul _ _ hk]

/-- Ratios of the same value have the same rank. -/
theorem rankOfRatio_congr {a b c d : Nat} (hb : 0 < b) (hd : 0 < d) (h : a * d = c * b) :
    rankOfRatio a b = rankOfRatio c d := by
  rw [← rankOfRatio_mul a b hd, ← rankOfRatio_mul c d hb, h, Nat.mul_comm b d]

/-- A whole number of units whose last places are zeros. -/
theorem rankOfRatio_of_eq_mul {u q s : Nat} (hs : u.log2 - 52 = s) (hu : u = q * Nat.pow 2 s) :
    rankOfRatio u one = min (s * fractions + q) infinityRank := by
  have hone := one_pos
  have hpow : 0 < Nat.pow 2 s := Nat.two_pow_pos s
  rw [rankOfRatio]
  generalize one = o at hone ⊢
  rw [Nat.mul_div_cancel _ hone, hs, Nat.mul_comm o, divideToEven_mul _ _ hone]
  generalize Nat.pow 2 s = p at hu hpow
  rw [hu, divideToEven_mul_self _ hpow]

theorem log2_mul_two_pow {n : Nat} (h : n ≠ 0) (k : Nat) : (n * Nat.pow 2 k).log2 = n.log2 + k := by
  have hpos : 0 < Nat.pow 2 k := Nat.two_pow_pos k
  have hle : Nat.pow 2 n.log2 * Nat.pow 2 k ≤ n * Nat.pow 2 k := Nat.mul_le_mul_right _ (Nat.log2_self_le h)
  have hlt : n * Nat.pow 2 k < Nat.pow 2 (n.log2 + 1) * Nat.pow 2 k :=
    Nat.mul_lt_mul_of_pos_right Nat.lt_log2_self hpos
  refine (Nat.log2_eq_iff (Nat.mul_ne_zero h (Nat.ne_of_gt hpos))).2 ⟨?_, ?_⟩
  · rw [Nat.pow_add]
    exact hle
  · rw [Nat.add_right_comm, Nat.pow_add]
    exact hlt

/-- **The units of a finite real have its rank.** -/
theorem rankOfRatio_units {r : Binary64} (hr : r.isFinite) : rankOfRatio r.units one = r.rank := by
  have hlt : r.rank < infinityRank := of_decide_eq_true hr
  have hmin : min r.rank infinityRank = r.rank := Nat.min_eq_left (Nat.le_of_lt hlt)
  have hdiv := Nat.div_add_mod r.rank fractions
  have hmod : r.rank % fractions < fractions := Nat.mod_lt _ (by decide)
  have hf : fractions = 2 ^ 52 := rfl
  generalize hfr : r.rank % fractions = f at hdiv hmod
  by_cases he : r.rank / fractions = 0
  · -- a subnormal real is its fraction
    have hu : r.units = f := by simp [units, he, hfr]
    have hlog : f.log2 - 52 = 0 := by
      rcases Nat.eq_zero_or_pos f with rfl | h0
      · rfl
      · have := (Nat.log2_lt (Nat.ne_of_gt h0)).2 (hf ▸ hmod)
        omega
    rw [he, Nat.mul_zero, Nat.zero_add] at hdiv
    rw [hu, rankOfRatio_of_eq_mul hlog (q := f) (Nat.mul_one f).symm, Nat.zero_mul, Nat.zero_add, hdiv, hmin]
  · obtain ⟨e, he'⟩ : ∃ e, r.rank / fractions = e + 1 := ⟨_, (Nat.succ_pred_eq_of_ne_zero he).symm⟩
    have hu : r.units = (fractions + f) * Nat.pow 2 e := by simp [units, he', hfr]
    have hpos : fractions + f ≠ 0 := Nat.ne_of_gt (Nat.add_pos_left (by decide) f)
    have hlog : (fractions + f).log2 = 52 := by
      refine (Nat.log2_eq_iff hpos).2 ⟨?_, ?_⟩
      · rw [← hf]
        exact Nat.le_add_right _ _
      · rw [Nat.pow_succ, ← hf, Nat.mul_two]
        exact Nat.add_lt_add_left hmod _
    have hshift : r.units.log2 - 52 = e := by rw [hu, log2_mul_two_pow hpos, hlog, Nat.add_sub_cancel_left]
    have hsum : e * fractions + (fractions + f) = r.rank := by
      rw [← hdiv, he', Nat.mul_comm fractions, Nat.succ_mul, Nat.add_assoc]
    rw [rankOfRatio_of_eq_mul hshift hu, hsum, hmin]

/-! ## Bounds -/

/-- The units that make 1 are a power of two. -/
theorem exists_one_eq : ∃ n, one = Nat.pow 2 n ∧ n = 1074 := by
  unfold one
  generalize hn : (1074 : Nat) = n
  exact ⟨n, rfl, rfl⟩

/-- A ratio of at least so many units has at least the rank of so many units. -/
theorem le_rankOfRatio {num den s : Nat} (h : Nat.pow 2 (s + 52) ≤ num * one / den) :
    min ((s + 1) * fractions) infinityRank ≤ rankOfRatio num den := by
  rw [rankOfRatio]
  generalize one = o at h ⊢
  have hq : num * o / den ≠ 0 := Nat.ne_of_gt (Nat.lt_of_lt_of_le (Nat.two_pow_pos (s + 52)) h)
  have hlog : s + 52 ≤ (num * o / den).log2 := (Nat.le_log2 hq).2 h
  obtain ⟨t, ht⟩ : ∃ t, (num * o / den).log2 = t + 52 := ⟨_, (Nat.sub_add_cancel (by omega)).symm⟩
  have hfull : fractions ≤ divideToEven (num * o) (den * Nat.pow 2 t) := by
    refine Nat.le_trans ?_ (div_le_divideToEven _ _)
    rw [← Nat.div_div_eq_div_mul]
    refine (Nat.le_div_iff_mul_le (Nat.two_pow_pos t)).2 ?_
    have hself := Nat.log2_self_le hq
    rw [ht, Nat.pow_add, Nat.mul_comm] at hself
    exact hself
  rw [ht, Nat.add_sub_cancel]
  have hst : s * fractions ≤ t * fractions := Nat.mul_le_mul_right _ (by omega)
  rw [Nat.succ_mul]
  generalize s * fractions = a, t * fractions = b at hst ⊢
  generalize divideToEven _ _ = c at hfull ⊢
  generalize fractions = f, infinityRank = g at hfull ⊢
  omega

/-- A ratio of fewer units has at most the rank of so many units. -/
theorem rankOfRatio_le {num den s : Nat} (h : num * one / den < Nat.pow 2 (s + 53)) :
    rankOfRatio num den ≤ (s + 2) * fractions := by
  rw [rankOfRatio]
  generalize one = o at h ⊢
  obtain ⟨t, ht⟩ : ∃ t, t = (num * o / den).log2 - 52 := ⟨_, rfl⟩
  have hts : t ≤ s := by
    by_cases hq : num * o / den = 0
    · rw [hq, Nat.log2_zero] at ht
      omega
    · have hlog := (Nat.log2_lt hq).2 h
      omega
  -- without the places that are dropped the quotient is below 2^53
  have hquotient : num * o / (den * Nat.pow 2 t) < Nat.pow 2 53 := by
    rw [← Nat.div_div_eq_div_mul]
    refine Nat.div_lt_of_lt_mul ?_
    have hself : num * o / den < Nat.pow 2 ((num * o / den).log2 + 1) := Nat.lt_log2_self
    have hpow : Nat.pow 2 t * Nat.pow 2 53 = Nat.pow 2 (t + 53) := (Nat.pow_add 2 t 53).symm
    rw [hpow]
    exact Nat.lt_of_lt_of_le hself (Nat.pow_le_pow_right (by decide) (by omega))
  have hround := divideToEven_le (num * o) (den * Nat.pow 2 t)
  have hfractions : 2 * fractions = Nat.pow 2 53 := by decide
  have hle : divideToEven (num * o) (den * Nat.pow 2 t) ≤ 2 * fractions := by omega
  refine Nat.le_trans (Nat.min_le_left _ _) ?_
  rw [← ht, Nat.add_mul]
  exact Nat.add_le_add (Nat.mul_le_mul_right _ hts) hle

theorem rankOfRatio_eq_infinityRank {num den s : Nat} (hs : 2046 ≤ s) (h : Nat.pow 2 (s + 52) ≤ num * one / den) :
    rankOfRatio num den = infinityRank := by
  have hle := le_rankOfRatio h
  have hinf : infinityRank ≤ (s + 1) * fractions :=
    Nat.le_trans (by decide : infinityRank ≤ 2047 * fractions) (Nat.mul_le_mul_right _ (by omega))
  rw [Nat.min_eq_right hinf] at hle
  exact Nat.le_antisymm (Nat.min_le_right _ _) hle

/-- Less than half a unit is nothing. -/
theorem rankOfRatio_eq_zero {num den : Nat} (h : 2 * (num * one) < den) : rankOfRatio num den = 0 := by
  have hquotient : num * one / den = 0 := Nat.div_eq_of_lt (by omega)
  have hround : divideToEven (num * one) (den * Nat.pow 2 0) = 0 := by
    rw [show den * Nat.pow 2 0 = den from Nat.mul_one den]
    exact divideToEven_of_lt h
  rw [rankOfRatio, hquotient, Nat.log2_zero, Nat.zero_sub, hround, Nat.zero_mul, Nat.zero_add]
  exact Nat.zero_min _

/-! ## Integers -/

/-- The units of a rank that is not subnormal. -/
theorem units_ofRank (negative : Bool) {s q : Nat} (hle : fractions ≤ q) (hlt : q < 2 * fractions)
    (h : s * fractions + q < signBit) : (ofRank negative (s * fractions + q)).units = q * Nat.pow 2 s := by
  obtain ⟨f, rfl⟩ : ∃ f, q = fractions + f := ⟨_, (Nat.add_sub_cancel' hle).symm⟩
  have hf : f < fractions := by omega
  have hsum : s * fractions + (fractions + f) = fractions * (s + 1) + f := by
    rw [Nat.mul_comm fractions, Nat.succ_mul, Nat.add_assoc]
  have hexponent : (fractions * (s + 1) + f) / fractions = s + 1 := by
    rw [Nat.mul_add_div (by decide), Nat.div_eq_of_lt hf, Nat.add_zero]
  have hfraction : (fractions * (s + 1) + f) % fractions = f := by
    rw [Nat.mul_add_mod, Nat.mod_eq_of_lt hf]
  rw [units, rank_ofRank negative h, hsum, hexponent, hfraction, if_neg (Nat.succ_ne_zero s), Nat.add_sub_cancel]

/-- **Integers below 2^53 are reals.** -/
theorem units_ofRatio {n : Nat} (hn : n < Nat.pow 2 53) (negative : Bool) :
    (ofRatio negative n 1).units = n * one := by
  by_cases h0 : n = 0
  · have hzero : rankOfRatio 0 1 = 0 := rankOfRatio_eq_zero (by rw [Nat.zero_mul]; decide)
    have hlt : 0 < signBit := by decide
    rw [h0, Nat.zero_mul, ofRatio, hzero, units, rank_ofRank negative hlt]
    rfl
  · obtain ⟨m, hone, hm⟩ := exists_one_eq
    obtain ⟨l, hl⟩ : ∃ l, l + n.log2 = 52 := by
      have := (Nat.log2_lt h0).2 hn
      exact ⟨_, Nat.sub_add_cancel (by omega)⟩
    obtain ⟨s, hs⟩ : ∃ s, l + s = m := ⟨_, Nat.add_sub_cancel' (by omega)⟩
    -- with its leading digit in the place of 2^52 the number has zeros behind it
    have hsplit : Nat.pow 2 (l + s) = Nat.pow 2 l * Nat.pow 2 s := Nat.pow_add 2 l s
    have hu : n * one = n * Nat.pow 2 l * Nat.pow 2 s := by rw [hone, ← hs, hsplit, Nat.mul_assoc]
    have hlog : (n * one).log2 - 52 = s := by
      rw [hone, log2_mul_two_pow h0]
      omega
    have hlead : (n * Nat.pow 2 l).log2 = 52 := by
      rw [log2_mul_two_pow h0]
      omega
    have hne : n * Nat.pow 2 l ≠ 0 := Nat.mul_ne_zero h0 (Nat.ne_of_gt (Nat.two_pow_pos l))
    obtain ⟨hle, hlt⟩ : fractions ≤ n * Nat.pow 2 l ∧ n * Nat.pow 2 l < 2 * fractions :=
      (Nat.log2_eq_iff hne).1 hlead
    have hrank : rankOfRatio n 1 = rankOfRatio (n * one) one :=
      rankOfRatio_congr Nat.one_pos one_pos (Nat.mul_one _).symm
    have hbound : s * fractions + n * Nat.pow 2 l < infinityRank := by
      have hsf : s * fractions ≤ 1074 * fractions := Nat.mul_le_mul_right _ (by omega)
      have hinf : infinityRank = 2047 * fractions := by decide
      omega
    rw [ofRatio, hrank, rankOfRatio_of_eq_mul hlog hu, Nat.min_eq_left (Nat.le_of_lt hbound),
      units_ofRank negative hle hlt (Nat.lt_trans hbound infinityRank_lt_signBit), ← hu]

/-- Greater integers are not rounded below 2^53. -/
theorem le_units_ofRatio {n : Nat} (hn : Nat.pow 2 53 ≤ n) (negative : Bool) :
    Nat.pow 2 53 * one ≤ (ofRatio negative n 1).units := by
  obtain ⟨m, hone, hm⟩ := exists_one_eq
  have hpow : Nat.pow 2 53 * one = Nat.pow 2 (m + 1 + 52) := by
    rw [hone, Nat.mul_comm]
    exact (Nat.pow_add 2 m 53).symm
  have hle : Nat.pow 2 (m + 1 + 52) ≤ n * one / 1 := by
    rw [Nat.div_one, ← hpow]
    exact Nat.mul_le_mul_right _ hn
  have hinf : (m + 1 + 1) * fractions ≤ infinityRank :=
    Nat.le_trans (Nat.mul_le_mul_right _ (by omega)) (by decide : 1076 * fractions ≤ infinityRank)
  have hrank := le_rankOfRatio hle
  rw [Nat.min_eq_left hinf, Nat.succ_mul] at hrank
  have hlt : (m + 1) * fractions + fractions < signBit := by
    rw [← Nat.succ_mul]
    exact Nat.lt_of_le_of_lt hinf infinityRank_lt_signBit
  have hunits := units_ofRank negative (Nat.le_refl fractions) (by decide) hlt
  have hsame : fractions * Nat.pow 2 (m + 1) = Nat.pow 2 53 * one := by
    rw [hpow, Nat.mul_comm]
    exact (Nat.pow_add 2 (m + 1) 52).symm
  rw [← hsame, ← hunits]
  refine Nat.not_lt.1 fun h => ?_
  have := units_lt_units_iff.1 h
  rw [ofRatio, rank_ofRank negative (rankOfRatio_lt_signBit n 1), rank_ofRank negative hlt] at this
  exact absurd hrank (Nat.not_le.2 this)

/-- Integers of 64 bits are not rounded beyond 2^63. -/
theorem units_ofRatio_le {n : Nat} (hn : n ≤ Nat.pow 2 63) (negative : Bool) :
    (ofRatio negative n 1).units ≤ Nat.pow 2 63 * one := by
  rcases Nat.lt_or_eq_of_le hn with hlt | rfl
  · obtain ⟨m, hone, hm⟩ := exists_one_eq
    have hquotient : n * one / 1 < Nat.pow 2 (m + 10 + 53) := by
      have hpow : Nat.pow 2 (m + 10 + 53) = Nat.pow 2 m * Nat.pow 2 63 := Nat.pow_add 2 m 63
      rw [Nat.div_one, hpow, hone, Nat.mul_comm]
      exact Nat.mul_lt_mul_of_pos_left hlt (Nat.two_pow_pos m)
    have hrank := rankOfRatio_le hquotient
    have hbound : (m + 11) * fractions + fractions < signBit := by
      rw [← Nat.succ_mul]
      exact Nat.lt_of_le_of_lt (Nat.mul_le_mul_right _ (by omega))
        (by decide : 1086 * fractions < signBit)
    have hunits := units_ofRank negative (Nat.le_refl fractions) (by decide) hbound
    have hsame : fractions * Nat.pow 2 (m + 11) = Nat.pow 2 63 * one := by
      have hpow : Nat.pow 2 (52 + (m + 11)) = Nat.pow 2 52 * Nat.pow 2 (m + 11) := Nat.pow_add 2 52 (m + 11)
      have hpow' : Nat.pow 2 (63 + m) = Nat.pow 2 63 * Nat.pow 2 m := Nat.pow_add 2 63 m
      rw [hone, ← hpow', show 63 + m = 52 + (m + 11) by omega, hpow]
      rfl
    rw [← hsame, ← hunits]
    refine Nat.not_lt.1 fun h => ?_
    have hlt' := units_lt_units_iff.1 h
    rw [ofRatio, rank_ofRank negative (rankOfRatio_lt_signBit n 1), rank_ofRank negative hbound] at hlt'
    rw [← Nat.succ_mul] at hlt'
    exact absurd hrank (Nat.not_le.2 hlt')
  · refine Nat.le_of_eq ?_
    cases negative <;> decide +kernel

end Binary64

namespace Decimal

open Binary64

/-! ## Decimals -/

theorem two_pow_le_ten_pow (n : Nat) : Nat.pow 2 (3 * n) ≤ Nat.pow 10 n := by
  have hmul : Nat.pow 2 (3 * n) = Nat.pow 8 n := Nat.pow_mul 2 3 n
  rw [hmul]
  exact Nat.pow_le_pow_left (by decide) n

/-- A coefficient and an exponent as a ratio. -/
def ratio (coefficient : Nat) (exponent : Int) : Nat × Nat :=
  (coefficient * Nat.pow 10 exponent.toNat, Nat.pow 10 (-exponent).toNat)

/-- **The rank of a decimal is that of its ratio**, also where the size alone tells it. -/
theorem rank_eq (c : Nat) (e : Int) : rank c e = rankOfRatio (ratio c e).1 (ratio c e).2 := by
  obtain ⟨m, hone, hm⟩ := exists_one_eq
  by_cases h0 : c = 0
  · have hpos : 0 < Nat.pow 10 (-e).toNat := Nat.pow_pos (by decide)
    rw [h0, rank_zero, ratio, Nat.zero_mul, rankOfRatio_eq_zero (by rwa [Nat.zero_mul])]
  · cases e with
    | ofNat n =>
      have hden : (-Int.ofNat n).toNat = 0 := by simp
      rw [rank, if_neg h0]
      show _ = rankOfRatio (c * Nat.pow 10 n) (Nat.pow 10 (-Int.ofNat n).toNat)
      rw [hden]
      split
      · rename_i hn
        obtain ⟨s, hs⟩ : ∃ s, s + 52 = 3 * n + m := ⟨_, Nat.sub_add_cancel (by omega)⟩
        refine (rankOfRatio_eq_infinityRank (s := s) (by omega) ?_).symm
        rw [hs, show Nat.pow 10 0 = 1 from rfl, Nat.div_one, hone]
        calc Nat.pow 2 (3 * n + m) = Nat.pow 2 (3 * n) * Nat.pow 2 m := Nat.pow_add 2 (3 * n) m
          _ ≤ Nat.pow 10 n * Nat.pow 2 m := Nat.mul_le_mul_right _ (two_pow_le_ten_pow n)
          _ ≤ c * Nat.pow 10 n * Nat.pow 2 m :=
            Nat.mul_le_mul_right _ (Nat.le_mul_of_pos_left _ (Nat.pos_of_ne_zero h0))
      · rfl
    | negSucc n =>
      have hnum : c * Nat.pow 10 0 = c := Nat.mul_one c
      rw [rank]
      show _ = rankOfRatio (c * Nat.pow 10 0) (Nat.pow 10 (n + 1))
      rw [hnum]
      split
      · rename_i hn
        refine (rankOfRatio_eq_zero ?_).symm
        have hlog : c < Nat.pow 2 (c.log2 + 1) := Nat.lt_log2_self
        rw [hone]
        calc 2 * (c * Nat.pow 2 m) < 2 * (Nat.pow 2 (c.log2 + 1) * Nat.pow 2 m) :=
            Nat.mul_lt_mul_of_pos_left (Nat.mul_lt_mul_of_pos_right hlog (Nat.two_pow_pos m)) (by decide)
          _ = 2 * Nat.pow 2 (c.log2 + 1 + m) := congrArg (2 * ·) (Nat.pow_add 2 (c.log2 + 1) m).symm
          _ = Nat.pow 2 (c.log2 + 1 + m + 1) := Nat.mul_comm _ _
          _ ≤ Nat.pow 2 (3 * (n + 1)) := Nat.pow_le_pow_right (by decide) (by omega)
          _ ≤ Nat.pow 10 (n + 1) := two_pow_le_ten_pow (n + 1)
      · rfl

/-- Zeros after the digits do not matter. -/
theorem rank_shift (c k : Nat) (e : Int) : rank (c * Nat.pow 10 k) (e - k) = rank c e := by
  have hpos : ∀ n, 0 < Nat.pow 10 n := fun n => Nat.pow_pos (by decide)
  have hadd : ∀ a b, Nat.pow 10 (a + b) = Nat.pow 10 a * Nat.pow 10 b := Nat.pow_add 10
  rw [rank_eq, rank_eq]
  refine rankOfRatio_congr (hpos _) (hpos _) ?_
  show c * Nat.pow 10 k * Nat.pow 10 (e - k).toNat * Nat.pow 10 (-e).toNat =
    c * Nat.pow 10 e.toNat * Nat.pow 10 (-(e - k)).toNat
  have hsum : k + (e - k).toNat + (-e).toNat = e.toNat + (-(e - k)).toNat := by omega
  rw [Nat.mul_assoc c, Nat.mul_assoc c, Nat.mul_assoc c, ← hadd, ← hadd, ← hadd, hsum]

/-! ## Shortest decimals -/

theorem readsAs_of_nearestOnGrid? {rule : HalfRule} {goal num den : Nat} {exponent : Int} {p : Nat × Int}
    (h : nearestOnGrid? rule goal num den exponent = some p) : rank p.1 p.2 = goal := by
  simp only [nearestOnGrid?] at h
  generalize (inUnitsOf num den exponent).1 / (inUnitsOf num den exponent).2 = below at h
  split at h
  · cases h
  · rename_i hb _
    cases h
    exact beq_iff_eq.1 hb
  · rename_i _ ha
    cases h
    exact beq_iff_eq.1 ha
  · rename_i hb ha
    split at h <;> cases h
    · exact beq_iff_eq.1 hb
    · exact beq_iff_eq.1 ha
    · exact beq_iff_eq.1 ha
    · rcases Nat.mod_two_eq_zero_or_one below with h2 | h2 <;> rw [h2]
      · exact beq_iff_eq.1 hb
      · exact beq_iff_eq.1 ha

theorem rank_withoutZero (p : Nat × Int) : rank (withoutZero p).1 (withoutZero p).2 = rank p.1 p.2 := by
  unfold withoutZero
  split
  · rename_i e
    have h := rank_shift 1 1 (e + 1)
    rw [show e + 1 - ((1 : Nat) : Int) = e by omega] at h
    exact h.symm
  · rfl

/-- The unit of reals as a power of ten: its coefficient and exponent. -/
theorem exists_unit_eq : ∃ n : Nat, one = Nat.pow 2 n ∧ unitCoefficient = Nat.pow 5 n ∧ (-1074 : Int) = -(n : Int) := by
  unfold one unitCoefficient
  generalize hn : (1074 : Nat) = n
  exact ⟨n, rfl, rfl, by omega⟩

/-- The exact decimal of a real. -/
theorem rank_exact {r : Binary64} (hr : r.isFinite) : rank (r.units * unitCoefficient) (-1074) = r.rank := by
  obtain ⟨n, hone, hunit, hn⟩ := exists_unit_eq
  have hpow : Nat.pow 10 n = Nat.pow 5 n * Nat.pow 2 n := Nat.mul_pow 5 2 n
  rw [← rankOfRatio_units hr, rank_eq, hn, hunit, hone]
  refine rankOfRatio_congr (Nat.pow_pos (by decide)) (Nat.two_pow_pos n) ?_
  show r.units * Nat.pow 5 n * Nat.pow 10 (-(n : Int)).toNat * Nat.pow 2 n = r.units * Nat.pow 10 (- -(n : Int)).toNat
  rw [show (-(n : Int)).toNat = 0 by omega, show (- -(n : Int)).toNat = n by omega, hpow,
    show Nat.pow 10 0 = 1 from rfl, Nat.mul_one, Nat.mul_assoc]

theorem rank_shortestParts (rule : HalfRule) {r : Binary64} (hr : r.isFinite) :
    rank (shortestParts rule r).1 (shortestParts rule r).2 = r.rank := by
  have hgetD : ∀ {o : Option (Nat × Int)} {p : Nat × Int}, (∀ q, o = some q → rank q.1 q.2 = r.rank) →
      rank p.1 p.2 = r.rank → rank (o.getD p).1 (o.getD p).2 = r.rank := by
    intro o p ho hp
    cases o with
    | none => exact hp
    | some q => exact ho q rfl
  rw [shortestParts, rank_withoutZero]
  refine hgetD (fun q hq => ?_) (rank_exact hr)
  obtain ⟨n, -, hn⟩ := List.exists_of_findSome?_eq_some hq
  exact readsAs_of_nearestOnGrid? hn

/-- **The shortest decimal of a finite real is read as that real.** -/
theorem toBinary64_shortest (rule : HalfRule) {r : Binary64} (hr : r.isFinite) :
    (shortest rule r).toBinary64 = r := by
  have hrank : rank (shortest rule r).coefficient (shortest rule r).exponent = r.rank := by
    unfold shortest
    split
    · rename_i h0
      exact (rank_zero 0).trans h0.symm
    · dsimp only
      exact rank_shortestParts rule hr
  rw [toBinary64, hrank, shortest_negative, ofRank_rank]

end Decimal

end TableStore
