import TableStore.Json.Number
import TableStore.Number.Numeral
import TableStore.Proofs.KeyOrder

/-!
# JSON numbers read back

- the text of a number is made of `Parts`: digits, perhaps a fraction, perhaps an exponent; what is read is the value of
  these parts, and nothing of what follows is taken (`readUnsigned?_text`);
- an integer of 64 bits reads back as itself (`readNumber?_integer`);
- the text of a finite real is one number with a fraction or an exponent (`exists_parts_writeReal`), so it is read as a
  whole and never as an integer, though not always as the same real.
-/

namespace TableStore

namespace Text

theorem isDigit_of_mem_toDigits {c : Char} {n : Nat} (h : c ∈ Nat.toDigits 10 n) : isDigit c := by
  have hd := Nat.isDigit_of_mem_toDigits (by decide) (by decide) h
  simp only [Char.isDigit, Bool.and_eq_true, decide_eq_true_eq] at hd
  simp only [isDigit, Bool.and_eq_true, decide_eq_true_eq]
  exact hd

end Text

namespace Decimal

open Text

theorem all_isDigit_digits (n : Nat) : (digits n).all isDigit :=
  List.all_eq_true.2 fun _ h => isDigit_of_mem_toDigits h

theorem digits_ne_nil (n : Nat) : digits n ≠ [] := Nat.toDigits_ne_nil

theorem natOfDigits_digits (n : Nat) : natOfDigits (digits n) = n :=
  Nat.ofDigitChars_toDigits (by decide) (by decide)

theorem natOfDigits_append (a b : List Char) :
    natOfDigits (a ++ b) = natOfDigits a * Nat.pow 10 b.length + natOfDigits b := by
  have h : natOfDigits (a ++ b) = Nat.pow 10 b.length * natOfDigits a + natOfDigits b :=
    (Nat.ofDigitChars_append 0).trans Nat.ofDigitChars_eq_ofDigitChars_zero
  rw [h, Nat.mul_comm]

theorem natOfDigits_zeros : ∀ n : Nat, natOfDigits (zeros n) = 0
  | 0 => rfl
  | n + 1 => natOfDigits_zeros n

theorem natOfDigits_zeros_append (n : Nat) (ds : List Char) : natOfDigits (zeros n ++ ds) = natOfDigits ds := by
  rw [natOfDigits_append, natOfDigits_zeros, Nat.zero_mul, Nat.zero_add]

/-- A positive number has no zero in front. -/
theorem head?_digits_ne : ∀ {n : Nat}, n ≠ 0 → (digits n).head? ≠ some '0' := by
  intro n
  induction n using Nat.strongRecOn with
  | ind n ih =>
    intro h0
    rw [digits, Nat.toDigits_eq_if (by decide)]
    split
    · simpa using h0
    · have ih := ih (n / 10) (by omega) (by omega)
      rw [digits] at ih
      cases hd : Nat.toDigits 10 (n / 10) with
      | nil => exact absurd hd Nat.toDigits_ne_nil
      | cons c ds =>
        rw [hd] at ih
        exact ih

end Decimal

namespace Json

open Text

/-! ## Parts of numbers -/

/-- A text that does not go on with what could belong to a number. -/
def Stops (rest : List Char) : Prop :=
  ∀ c, rest.head? = some c → isDigit c = false ∧ c ≠ '.' ∧ c ≠ 'e' ∧ c ≠ 'E'

theorem stops_nil : Stops [] := fun _ h => by cases h

/-- The digits before the point, those after it, and the exponent with its sign. -/
structure Parts where
  whole : List Char
  fraction : Option (List Char) := none
  exponent : Option (Bool × List Char) := none

namespace Parts

/-- The point and the digits after it. -/
def fractionText : Option (List Char) → List Char
  | none => []
  | some ds => '.' :: ds

/-- The exponent. -/
def exponentText : Option (Bool × List Char) → List Char
  | none => []
  | some (down, ds) => 'e' :: (if down then '-' else '+') :: ds

/-- The text of a number after its sign. -/
def text (p : Parts) : List Char := p.whole ++ (fractionText p.fraction ++ exponentText p.exponent)

/-- The number with a sign. -/
def numeral (p : Parts) (negative : Bool) : Numeral := ⟨negative, p.whole, p.fraction, p.exponent⟩

/-- The parts of a decimal, perhaps with zeros after its digits. -/
def Denotes (p : Parts) (d : Decimal) : Prop :=
  ∃ k : Nat, ∀ negative, (p.numeral negative).toDecimal = ⟨negative, d.coefficient * Nat.pow 10 k, d.exponent - k⟩

/-- Digits stand where they must, and there is no zero in front of another digit. -/
structure Proper (p : Parts) : Prop where
  whole_digits : p.whole.all isDigit
  whole_ne_nil : p.whole ≠ []
  no_zero : p.whole.head? = some '0' → p.whole = ['0']
  fraction_digits : ∀ ds, p.fraction = some ds → ds.all isDigit ∧ ds ≠ []
  exponent_digits : ∀ down ds, p.exponent = some (down, ds) → ds.all isDigit ∧ ds ≠ []

end Parts

/-- Digits are taken up to what is none. -/
theorem spanDigits_append {ds rest : List Char} (hd : ds.all isDigit)
    (hr : ∀ c, rest.head? = some c → isDigit c = false) : spanDigits (ds ++ rest) = (ds, rest) := by
  induction ds with
  | nil =>
    cases rest with
    | nil => rfl
    | cons c rest => simp [spanDigits, hr c rfl]
  | cons d ds ih =>
    simp only [List.all_cons, Bool.and_eq_true] at hd
    have ih := ih hd.2
    simp only [spanDigits, Prod.mk.injEq] at ih ⊢
    simp [hd.1, ih.1, ih.2]

variable {rest : List Char}

theorem readExponent?_text {e : Option (Bool × List Char)}
    (he : ∀ down ds, e = some (down, ds) → ds.all isDigit ∧ ds ≠ []) (hr : Stops rest) :
    readExponent? (Parts.exponentText e ++ rest) = some (e, rest) := by
  cases e with
  | none =>
    cases rest with
    | nil => rfl
    | cons c rest =>
      obtain ⟨-, -, h1, h2⟩ := hr c rfl
      simp [Parts.exponentText, readExponent?, h1, h2]
  | some p =>
    obtain ⟨down, ds⟩ := p
    obtain ⟨hd, hne⟩ := he down ds rfl
    have hspan := spanDigits_append hd fun c hc => (hr c hc).1
    cases down <;> simp [Parts.exponentText, readExponent?, hspan, hne]

/-- An exponent, and then what stops, goes on with no digit and no point. -/
theorem head?_exponentText_append {e : Option (Bool × List Char)} (hr : Stops rest) {c : Char}
    (hc : (Parts.exponentText e ++ rest).head? = some c) : isDigit c = false ∧ c ≠ '.' := by
  cases e with
  | none => exact ⟨(hr c hc).1, (hr c hc).2.1⟩
  | some p =>
    obtain rfl : 'e' = c := by simpa [Parts.exponentText] using hc
    exact ⟨by decide, by decide⟩

theorem readFraction?_text {f : Option (List Char)} (hf : ∀ ds, f = some ds → ds.all isDigit ∧ ds ≠ [])
    (hr : ∀ c, rest.head? = some c → isDigit c = false ∧ c ≠ '.') :
    readFraction? (Parts.fractionText f ++ rest) = some (f, rest) := by
  cases f with
  | none =>
    unfold readFraction?
    split
    · rename_i cs h
      exact absurd rfl (hr '.' (by rw [show rest = _ from h]; rfl)).2
    · rfl
  | some ds =>
    obtain ⟨hd, hne⟩ := hf ds rfl
    have hspan := spanDigits_append hd fun c hc => (hr c hc).1
    simp [Parts.fractionText, readFraction?, hspan, hne]

theorem readWhole?_text {ds : List Char} (hd : ds.all isDigit) (hne : ds ≠ [])
    (hz : ds.head? = some '0' → ds = ['0']) (hr : ∀ c, rest.head? = some c → isDigit c = false) :
    readWhole? (ds ++ rest) = some (ds, rest) := by
  rw [readWhole?, spanDigits_append hd hr]
  match ds with
  | [] => exact absurd rfl hne
  | '0' :: c :: cs => cases hz rfl
  | [c] => simp
  | c :: c' :: cs =>
    have h0 : c ≠ '0' := fun h => by cases hz (by rw [h]; rfl)
    simp [h0]

/-- **A number is read as the value of its parts**, and what follows is left. -/
theorem readUnsigned?_text {p : Parts} (hp : p.Proper) (negative : Bool) (hr : Stops rest) :
    readUnsigned? negative (p.text ++ rest) =
      (ofParts? negative p.whole p.fraction p.exponent).map fun v => (v, rest) := by
  have he := fun c => head?_exponentText_append (e := p.exponent) (c := c) hr
  have hf : ∀ c, (Parts.fractionText p.fraction ++ (Parts.exponentText p.exponent ++ rest)).head? = some c →
      isDigit c = false := by
    intro c hc
    cases hfr : p.fraction with
    | none =>
      rw [hfr] at hc
      exact (he c hc).1
    | some ds =>
      rw [hfr] at hc
      obtain rfl : '.' = c := by simpa [Parts.fractionText] using hc
      decide
  rw [Parts.text, List.append_assoc, List.append_assoc, readUnsigned?,
    readWhole?_text hp.whole_digits hp.whole_ne_nil hp.no_zero hf]
  simp only [Option.bind_eq_bind, Option.bind_some, readFraction?_text hp.fraction_digits he,
    readExponent?_text hp.exponent_digits hr]
  cases ofParts? negative p.whole p.fraction p.exponent <;> rfl

/-- A number with its sign. -/
theorem readNumber?_text {p : Parts} (hp : p.Proper) (negative : Bool) (hr : Stops rest) :
    readNumber? ((if negative then ['-'] else []) ++ (p.text ++ rest)) =
      (ofParts? negative p.whole p.fraction p.exponent).map fun v => (v, rest) := by
  cases negative with
  | true => exact readUnsigned?_text hp true hr
  | false =>
    rw [← readUnsigned?_text hp false hr]
    show readNumber? (p.text ++ rest) = _
    unfold readNumber?
    split
    · rename_i cs h
      cases hw : p.whole with
      | nil => exact absurd hw hp.whole_ne_nil
      | cons c ds =>
        have hd := hp.whole_digits
        rw [hw] at hd
        rw [Parts.text, hw] at h
        cases h
        simp [isDigit] at hd
    · rfl

/-! ## Integers -/

theorem absorb_eq (ds : List Char) : ∀ s : Nat, Nat.ofDigitChars 10 ds s < UInt64.size →
    absorb s ds = (Nat.ofDigitChars 10 ds s, ds.length) := by
  induction ds with
  | nil => exact fun s _ => rfl
  | cons d ds ih =>
    intro s h
    have hcons : Nat.ofDigitChars 10 (d :: ds) s = Nat.ofDigitChars 10 ds (10 * s + digitValue d) :=
      Nat.ofDigitChars_cons
    rw [hcons] at h
    have hle : 10 * s + digitValue d ≤ Nat.ofDigitChars 10 ds (10 * s + digitValue d) := by
      rw [Nat.ofDigitChars_eq_ofDigitChars_zero]
      have := Nat.le_mul_of_pos_left (10 * s + digitValue d) (Nat.pow_pos (n := ds.length) (show 0 < 10 by decide))
      omega
    have hlt : 10 * s + digitValue d < UInt64.size := by omega
    rw [absorb, if_pos hlt, ih _ h, hcons]
    rfl

/-- The digits of a natural number are the parts of it. -/
theorem proper_digits (n : Nat) : (Parts.mk (Decimal.digits n) none none).Proper where
  whole_digits := Decimal.all_isDigit_digits n
  whole_ne_nil := Decimal.digits_ne_nil n
  no_zero h := by
    by_cases h0 : n = 0
    · subst h0
      rfl
    · exact absurd h (Decimal.head?_digits_ne h0)
  fraction_digits _ h := by cases h
  exponent_digits _ _ h := by cases h

theorem ofParts?_digits (negative : Bool) {n : Nat} (hn : n < UInt64.size) :
    ofParts? negative (Decimal.digits n) none none = some (ofInteger negative n) := by
  have hval : Nat.ofDigitChars 10 (Decimal.digits n) 0 = n := Decimal.natOfDigits_digits n
  have habs := absorb_eq (Decimal.digits n) 0 (by rwa [hval])
  simp [ofParts?, habs, hval]

/-- **An integer of 64 bits reads back as itself.** -/
theorem readNumber?_integer (i : Int64) {rest : List Char} (hr : Stops rest) :
    readNumber? (Decimal.integer i.toInt ++ rest) = some (.integer i, rest) := by
  have hmin := Int64.minValue_le_toInt i
  have hmax := Int64.toInt_le i
  have hbound : i.toInt.natAbs < UInt64.size := by
    have h1 : Int64.minValue.toInt = -9223372036854775808 := by decide
    have h2 : Int64.maxValue.toInt = 9223372036854775807 := by decide
    have h3 : UInt64.size = 18446744073709551616 := rfl
    omega
  have htext : (Parts.mk (Decimal.digits i.toInt.natAbs) none none).text ++ rest =
      Decimal.digits i.toInt.natAbs ++ rest := by simp [Parts.text, Parts.fractionText, Parts.exponentText]
  have hread := readNumber?_text (proper_digits i.toInt.natAbs) (decide (i.toInt < 0)) hr
  rw [htext, ofParts?_digits _ hbound] at hread
  rw [Decimal.integer]
  split
  · rename_i hneg
    have habs : -(i.toInt.natAbs : Int) = i.toInt := by omega
    have h0 : i.toInt.natAbs ≠ 0 := by omega
    have hvalue : ofInteger true i.toInt.natAbs = .integer i := by
      simp only [ofInteger, if_true, if_neg h0, habs, int64?_toInt]
    rw [if_pos (decide_eq_true hneg), decide_eq_true hneg, hvalue] at hread
    exact hread
  · rename_i hneg
    have habs : (i.toInt.natAbs : Int) = i.toInt := by omega
    have hvalue : ofInteger false i.toInt.natAbs = .integer i := by
      simp only [ofInteger, Bool.false_eq_true, if_false, habs, int64?_toInt]
    rw [if_neg (by simpa using hneg), decide_eq_false hneg, hvalue] at hread
    exact hread

end Json

/-! ## Reals -/

namespace Decimal

open Json Text

theorem digits_eq_zero {n : Nat} (h : (digits n).head? = some '0') : n = 0 := by
  by_contra h0
  exact head?_digits_ne h0 h

theorem all_isDigit_zeros (n : Nat) : (zeros n).all isDigit := by
  simp only [zeros, List.all_replicate]
  split <;> decide

theorem proper_fraction {ds : List Char} (hd : ds.all isDigit) (hne : ds ≠ []) :
    (Parts.mk ['0'] (some ds) none).Proper where
  whole_digits := rfl
  whole_ne_nil := by simp
  no_zero _ := rfl
  fraction_digits _ h := by
    cases h
    exact ⟨hd, hne⟩
  exponent_digits _ _ h := by cases h

/-- The digits of a number with a point among them. -/
theorem proper_split {c n : Nat} (hn : n ≠ 0) (hlt : n < (digits c).length) :
    (Parts.mk ((digits c).take n) (some ((digits c).drop n)) none).Proper := by
  have hds := List.all_eq_true.1 (all_isDigit_digits c)
  refine ⟨?_, ?_, fun hz => ?_, fun _ h => ?_, fun _ _ h => by cases h⟩
  · exact List.all_eq_true.2 fun d hd => hds d (List.mem_of_mem_take hd)
  · simp [hn, digits_ne_nil]
  · -- a zero in front is the whole number, which has one digit
    rw [List.head?_take, if_neg hn] at hz
    rw [digits_eq_zero hz] at hlt
    have : (digits 0).length = 1 := rfl
    omega
  · cases h
    refine ⟨List.all_eq_true.2 fun d hd => hds d (List.mem_of_mem_drop hd), ?_⟩
    simpa using hlt

/-- The digits of a number with zeros after them; zero itself has none. -/
theorem proper_padded {c n : Nat} (h0 : c = 0 → n = 0) :
    (Parts.mk (digits c ++ zeros n) (some ['0']) none).Proper := by
  refine ⟨?_, by simp [digits_ne_nil], fun hz => ?_, fun _ h => ?_, fun _ _ h => by cases h⟩
  · rw [List.all_append, all_isDigit_zeros, all_isDigit_digits]
    rfl
  · have hc : c = 0 := by
      refine digits_eq_zero ?_
      rw [List.head?_append] at hz
      cases hd : digits c with
      | nil => exact absurd hd (digits_ne_nil c)
      | cons d ds =>
        rw [hd] at hz
        exact hz
    rw [h0 hc, hc]
    rfl
  · cases h
    exact ⟨by decide, by simp⟩

/-- Digits with a point among them denote the number of all digits, scaled down by those after the point. -/
theorem denotes_fraction {d : Decimal} {whole fraction : List Char} {k : Nat}
    (hv : natOfDigits (whole ++ fraction) = d.coefficient * Nat.pow 10 k)
    (he : -(fraction.length : Int) = d.exponent - k) : (Parts.mk whole (some fraction) none).Denotes d := by
  refine ⟨k, fun negative => ?_⟩
  show (⟨negative, natOfDigits (whole ++ fraction), 0 - (fraction.length : Int)⟩ : Decimal) = _
  rw [hv, Int.zero_sub, he]

/-- **The digits in place are a number with a fraction**, and it is the number of the decimal. -/
theorem exists_parts_placed {d : Decimal} (h0 : d.coefficient = 0 → d.exponent = 0) :
    ∃ p : Parts, p.Proper ∧ p.fraction.isSome ∧ p.Denotes d ∧ d.placed ['.', '0'] = p.text := by
  have hds := all_isDigit_digits d.coefficient
  have hvalue := natOfDigits_digits d.coefficient
  have htext : ∀ whole fraction : List Char,
      (Parts.mk whole (some fraction) none).text = whole ++ '.' :: fraction := fun _ _ => by
    simp [Parts.text, Parts.fractionText, Parts.exponentText]
  have hzeros : ∀ n, (zeros n).length = n := fun n => List.length_replicate
  have hplace : d.pointPlace = (digits d.coefficient).length + d.exponent := rfl
  simp only [placed]
  split
  · rename_i n hn
    have hzero := natOfDigits_zeros_append (n + 2) (digits d.coefficient)
    refine ⟨⟨['0'], some (zeros (n + 1) ++ digits d.coefficient), none⟩, proper_fraction ?_ (by simp [zeros]), rfl,
      denotes_fraction (k := 0) ?_ ?_, ?_⟩
    · rw [List.all_append, all_isDigit_zeros, hds]
      rfl
    · exact (hzero.trans hvalue).trans (Nat.mul_one _).symm
    · rw [List.length_append, hzeros]
      omega
    · rw [htext]
      rfl
  · rename_i hat
    have hat : d.pointPlace = 0 := hat
    have hzero := natOfDigits_zeros_append 1 (digits d.coefficient)
    refine ⟨⟨['0'], some (digits d.coefficient), none⟩, proper_fraction hds (digits_ne_nil _), rfl,
      denotes_fraction (k := 0) ((hzero.trans hvalue).trans (Nat.mul_one _).symm) (by omega), ?_⟩
    rw [htext]
    rfl
  · rename_i n hn hat
    have hat : d.pointPlace = (n : Int) := hat
    split
    · rename_i hlt
      refine ⟨_, proper_split hn hlt, rfl, denotes_fraction (k := 0) ?_ ?_, by rw [htext]⟩
      · rw [List.take_append_drop, hvalue]
        exact (Nat.mul_one _).symm
      · rw [List.length_drop]
        omega
    · rename_i hge
      refine ⟨_, proper_padded (c := d.coefficient) (n := n - (digits d.coefficient).length) fun hc => ?_, rfl,
        denotes_fraction (k := n - (digits d.coefficient).length + 1) ?_ ?_, by rw [htext]⟩
      · -- zero has its point after its one digit
        have hp : d.pointPlace = 1 := by
          rw [pointPlace, hc, h0 hc]
          rfl
        have : (digits 0).length = 1 := rfl
        rw [hc]
        omega
      · have hzero : natOfDigits ['0'] = 0 := rfl
        rw [natOfDigits_append, natOfDigits_append, natOfDigits_zeros, hvalue, hzeros, hzero, Nat.add_zero,
          Nat.add_zero, Nat.mul_assoc]
        rfl
      · have hone : (['0'] : List Char).length = 1 := rfl
        rw [hone]
        omega

/-- Digits with an exponent denote the number of all digits, scaled by the exponent. -/
theorem denotes_exponent {d : Decimal} {whole : List Char} {fraction : Option (List Char)} {place : Int}
    (hv : natOfDigits (whole ++ fraction.getD []) = d.coefficient)
    (he : place - ((fraction.getD []).length : Int) = d.exponent) :
    (Parts.mk whole fraction (some (decide (place < 0), digits place.natAbs))).Denotes d := by
  refine ⟨0, fun negative => ?_⟩
  have hpower : ((Parts.mk whole fraction (some (decide (place < 0), digits place.natAbs))).numeral
      negative).power = place := by
    have hvalue := natOfDigits_digits place.natAbs
    by_cases hneg : place < 0
    · rw [decide_eq_true hneg]
      show -(natOfDigits (digits place.natAbs) : Int) = place
      rw [hvalue]
      omega
    · rw [decide_eq_false hneg]
      show (natOfDigits (digits place.natAbs) : Int) = place
      rw [hvalue]
      omega
  rw [Numeral.toDecimal, hpower]
  show (⟨negative, natOfDigits (whole ++ fraction.getD []), place - ((fraction.getD []).length : Int)⟩ : Decimal) = _
  rw [hv, he, show d.coefficient * Nat.pow 10 0 = d.coefficient from Nat.mul_one _, Int.natCast_zero, Int.sub_zero]

/-- **The digits with an exponent are a number with an exponent**, and it is the number of the decimal. -/
theorem exists_parts_scientific (d : Decimal) :
    ∃ p : Parts, p.Proper ∧ p.exponent.isSome ∧ p.Denotes d ∧ d.scientific = d.sign ++ p.text := by
  have hds := all_isDigit_digits d.coefficient
  have hvalue := natOfDigits_digits d.coefficient
  have hplace : d.pointPlace = (digits d.coefficient).length + d.exponent := rfl
  have hexp : ∀ (down down' : Bool) (ds : List Char),
      some (down, digits (d.pointPlace - 1).natAbs) = some (down', ds) → ds.all isDigit ∧ ds ≠ [] :=
    fun _ _ _ h => by cases h; exact ⟨all_isDigit_digits _, digits_ne_nil _⟩
  have hone : ∀ {c : Char}, isDigit c → (fraction : Option (List Char)) →
      (∀ ds, fraction = some ds → ds.all isDigit ∧ ds ≠ []) → (Parts.mk [c] fraction
        (some (decide (d.pointPlace - 1 < 0), digits (d.pointPlace - 1).natAbs))).Proper := fun {c} hc _ hf =>
    { whole_digits := by simp [hc]
      whole_ne_nil := by simp
      no_zero := fun h => by simpa using h
      fraction_digits := hf
      exponent_digits := fun down ds h => hexp _ down ds h }
  simp only [scientific]
  cases hd : digits d.coefficient with
  | nil => exact absurd hd (digits_ne_nil _)
  | cons c cs =>
    rw [hd] at hds hvalue hplace
    simp only [List.all_cons, Bool.and_eq_true] at hds
    rw [List.length_cons] at hplace
    cases cs with
    | nil =>
      refine ⟨_, hone hds.1 none fun _ h => ?_, rfl, denotes_exponent hvalue ?_,
        by simp [Parts.text, Parts.fractionText, Parts.exponentText]⟩
      · cases h
      · simp only [List.length_nil, Option.getD_none] at hplace ⊢
        omega
    | cons c' cs =>
      refine ⟨_, hone hds.1 (some (c' :: cs)) fun _ h => ?_, rfl, denotes_exponent hvalue ?_,
        by simp [Parts.text, Parts.fractionText, Parts.exponentText]⟩
      · cases h
        exact ⟨by simpa using hds.2, by simp⟩
      · rw [Option.getD_some]
        omega

end Decimal

namespace Decimal

/-- No power of ten makes a zero coefficient anything but zero. -/
theorem rank_zero (exponent : Int) : rank 0 exponent = 0 := by
  unfold rank
  split
  · rfl
  · rename_i n
    split
    · rfl
    · have hpos : 0 < Nat.pow 10 (n + 1) := Nat.pow_pos (by decide)
      have h0 : Nat.log2 0 - 52 = 0 := rfl
      have hlt : compare 0 (Nat.pow 10 (n + 1) * Nat.pow 2 0) = .lt := by
        rw [Nat.compare_eq_lt]
        exact Nat.mul_pos hpos (by decide)
      simp only [Binary64.rankOfRatio, Nat.zero_mul, Nat.zero_div, h0, Binary64.divideToEven, Nat.zero_mod,
        Nat.mul_zero, hlt, Nat.add_zero, Nat.zero_min]

theorem readsAs_ne_zero {goal : Nat} (hg : goal ≠ 0) {exponent : Int} {c : Nat} (h : readsAs goal exponent c = true) :
    c ≠ 0 := by
  rintro rfl
  rw [readsAs, rank_zero, beq_iff_eq] at h
  exact hg h.symm

theorem nearestOnGrid?_ne_zero {rule : HalfRule} {goal num den : Nat} (hg : goal ≠ 0) {exponent : Int} {p : Nat × Int}
    (h : nearestOnGrid? rule goal num den exponent = some p) : p.1 ≠ 0 := by
  simp only [nearestOnGrid?] at h
  split at h
  · cases h
  · rename_i hb _
    cases h
    exact readsAs_ne_zero hg hb
  · cases h
    exact Nat.succ_ne_zero _
  · rename_i hb _
    have := readsAs_ne_zero hg hb
    split at h <;> cases h
    · exact this
    · exact Nat.succ_ne_zero _
    · exact Nat.succ_ne_zero _
    · exact fun h0 => this (Nat.eq_zero_of_add_eq_zero_right h0)

theorem withoutZero_ne_zero {p : Nat × Int} (h : p.1 ≠ 0) : (withoutZero p).1 ≠ 0 := by
  unfold withoutZero
  split
  · exact Nat.one_ne_zero
  · exact h

theorem units_ne_zero_of_rank {r : Binary64} (h : r.rank ≠ 0) : r.units ≠ 0 := by
  have hlt : Binary64.zero.units < r.units :=
    Binary64.units_lt_units (Nat.lt_of_le_of_lt (Nat.le_of_eq rfl) (Nat.pos_of_ne_zero h))
  exact Nat.ne_of_gt (Nat.lt_of_le_of_lt (Nat.zero_le _) hlt)

theorem unitCoefficient_ne_zero : unitCoefficient ≠ 0 := by
  unfold unitCoefficient
  generalize 1074 = n
  exact Nat.pos_iff_ne_zero.1 (Nat.pow_pos (by decide))

theorem getD_ne_zero {o : Option (Nat × Int)} (h : ∀ p, o = some p → p.1 ≠ 0) {p : Nat × Int} (hp : p.1 ≠ 0) :
    (o.getD p).1 ≠ 0 := by
  cases o with
  | none => exact hp
  | some p => exact h p rfl

theorem shortestParts_ne_zero (rule : HalfRule) {r : Binary64} (hr : r.rank ≠ 0) : (shortestParts rule r).1 ≠ 0 := by
  rw [shortestParts]
  refine withoutZero_ne_zero (getD_ne_zero ?_ ?_)
  · intro p hf
    obtain ⟨n, -, hn⟩ := List.exists_of_findSome?_eq_some hf
    exact nearestOnGrid?_ne_zero hr hn
  · exact Nat.mul_ne_zero (units_ne_zero_of_rank hr) unitCoefficient_ne_zero

/-- Only a zero is written with a zero coefficient, and without an exponent. -/
theorem shortest_exponent (rule : HalfRule) (r : Binary64) (h : (shortest rule r).coefficient = 0) :
    (shortest rule r).exponent = 0 := by
  unfold shortest at h ⊢
  split
  · rfl
  · rename_i hr
    have hp := shortestParts_ne_zero rule hr
    rw [if_neg hr] at h
    generalize shortestParts rule r = p at h hp
    exact absurd h hp

theorem shortest_negative (rule : HalfRule) (r : Binary64) : (shortest rule r).negative = r.negative := by
  unfold shortest
  split <;> rfl

end Decimal

namespace Json

/-- **The text of a finite real is one number**, with a fraction or an exponent; it is the shortest decimal. -/
theorem exists_parts_writeReal {r : Binary64} (hf : r.isFinite) : ∃ p : Parts, p.Proper ∧
    (p.fraction.isSome ∨ p.exponent.isSome) ∧ p.Denotes (Decimal.shortest .even r) ∧
      writeReal r = (if r.negative then ['-'] else []) ++ p.text := by
  have hs : ∀ d : Decimal, d.sign = if d.negative then ['-'] else [] := fun _ => rfl
  have hzero := Decimal.shortest_exponent .even r
  rw [writeReal, if_pos hf, ← Decimal.shortest_negative .even r]
  generalize Decimal.shortest .even r = d at hzero ⊢
  rw [Decimal.withPoint]
  split
  · obtain ⟨p, hp, hfr, hd, ht⟩ := Decimal.exists_parts_placed hzero
    exact ⟨p, hp, .inl hfr, hd, by rw [ht, hs]⟩
  · obtain ⟨p, hp, he, hd, ht⟩ := Decimal.exists_parts_scientific d
    exact ⟨p, hp, .inr he, hd, by rw [ht, hs]⟩

/-- A number with a fraction or an exponent is a real. -/
theorem ofParts?_real {negative : Bool} {whole : List Char} {fraction : Option (List Char)}
    {exponent : Option (Bool × List Char)} (h : fraction.isSome ∨ exponent.isSome) {v : Value}
    (hv : ofParts? negative whole fraction exponent = some v) : ∃ r, v = .real r := by
  have hmap : ∀ {o : Option Binary64}, o.map Value.real = some v → ∃ r, v = .real r := fun ho => by
    obtain ⟨r, -, rfl⟩ := Option.map_eq_some_iff.1 ho
    exact ⟨r, rfl⟩
  cases exponent with
  | none =>
    obtain hfr : fraction.isSome := by simpa using h
    obtain ⟨ds, rfl⟩ := Option.isSome_iff_exists.1 hfr
    simp only [ofParts?, Option.isNone_some, Bool.false_and, Bool.false_eq_true, if_false] at hv
    exact hmap hv
  | some e =>
    obtain ⟨down, ds⟩ := e
    cases fraction <;>
    · simp only [ofParts?] at hv
      split at hv
      · split at hv
        · cases hv
        · cases hv
          exact ⟨_, rfl⟩
      · exact hmap hv

/-- The real that the text of a finite real is read as, if it is read. -/
def rereadReal? (r : Binary64) : Option Value := (readNumber? (writeReal r)).map Prod.fst

/-- **The text of a finite real is read as a whole**, and what follows is left. -/
theorem readNumber?_writeReal {r : Binary64} (hf : r.isFinite) {rest : List Char} (hr : Stops rest) :
    readNumber? (writeReal r ++ rest) = (rereadReal? r).map fun v => (v, rest) := by
  obtain ⟨p, hp, -, -, ht⟩ := exists_parts_writeReal hf
  have hnil := readNumber?_text hp r.negative stops_nil
  rw [List.append_nil, ← ht] at hnil
  rw [rereadReal?, hnil, ht, List.append_assoc, readNumber?_text hp r.negative hr]
  cases ofParts? r.negative p.whole p.fraction p.exponent <;> rfl

/-- A finite real is read back as a real, if it is read. -/
theorem rereadReal?_real {r : Binary64} (hf : r.isFinite) {v : Value} (h : rereadReal? r = some v) :
    ∃ s, v = .real s := by
  obtain ⟨p, hp, hor, -, ht⟩ := exists_parts_writeReal hf
  have hnil := readNumber?_text hp r.negative stops_nil
  rw [List.append_nil, ← ht] at hnil
  rw [rereadReal?, hnil, Option.map_map] at h
  obtain ⟨w, hw, rfl⟩ := Option.map_eq_some_iff.1 h
  exact ofParts?_real hor hw

end Json

end TableStore
