import TableStore.Proofs.KeyText
import TableStore.Value.Literal

/-!
# Literals read back

- the text of a finite real has a point and is a number whose nearest real is that real, so it is read as a real and
  never as an integer (`Literal.exists_parts_writeReal`);
- every value that a text can be read as is read back from its literal, unless it is a real that is not finite
  (`Literal.read_write`).
-/

namespace TableStore

/-! ## Blanks -/

namespace Text

theorem trimEnd_append_singleton {c : Char} (hc : isBlank c = false) : ∀ cs : List Char, trimEnd (cs ++ [c]) = cs ++ [c]
  | [] => by simp [trimEnd, hc]
  | d :: cs => by
    have ih := trimEnd_append_singleton hc cs
    rw [List.cons_append, trimEnd, ih]
    split
    · rename_i h
      simp at h
    · rfl

/-- A text with a blank at neither end is trimmed already. -/
theorem trim_eq_self {cs : List Char} (hhead : ∀ c, cs.head? = some c → isBlank c = false)
    (hlast : ∀ c, cs.getLast? = some c → isBlank c = false) : trim cs = cs := by
  have hdrop : cs.dropWhile isBlank = cs := by
    cases cs with
    | nil => rfl
    | cons c cs => rw [List.dropWhile_cons_of_neg (by simp [hhead c rfl])]
  rw [trim, hdrop]
  rcases cs.eq_nil_or_concat with rfl | ⟨init, last, rfl⟩
  · rfl
  · rw [List.concat_eq_append] at hlast ⊢
    exact trimEnd_append_singleton (hlast last (by simp)) init

theorem exists_of_trimEnd (cs : List Char) : ∃ after, cs = trimEnd cs ++ after ∧ after.all isBlank := by
  induction cs with
  | nil => exact ⟨[], rfl, rfl⟩
  | cons c cs ih =>
    obtain ⟨after, hcs, hafter⟩ := ih
    rw [trimEnd]
    split
    · rename_i hnil
      rw [hnil, List.nil_append] at hcs
      subst hcs
      split
      · rename_i hc
        exact ⟨c :: cs, rfl, by rw [List.all_cons, hc, hafter]; rfl⟩
      · exact ⟨cs, rfl, hafter⟩
    · exact ⟨after, congrArg (c :: ·) hcs, hafter⟩

/-- A text is what is left of it without the blanks at its ends, and these blanks. -/
theorem exists_of_trim (cs : List Char) : ∃ before after, cs = before ++ (trim cs ++ after) ∧ before.all isBlank ∧
    after.all isBlank := by
  obtain ⟨after, hafter, hblank⟩ := exists_of_trimEnd (cs.dropWhile isBlank)
  refine ⟨cs.takeWhile isBlank, after, ?_, List.all_takeWhile, hblank⟩
  rw [trim, ← hafter, List.takeWhile_append_dropWhile]

theorem isBlank_getLast_trimEnd (cs : List Char) : ∀ c, (trimEnd cs).getLast? = some c → isBlank c = false := by
  induction cs with
  | nil => exact fun c h => nomatch h
  | cons d cs ih =>
    intro c h
    rw [trimEnd] at h
    split at h
    · split at h <;> cases h
      simpa using ‹¬isBlank d = true›
    · rename_i hne
      obtain ⟨e, es, he⟩ := List.exists_cons_of_ne_nil hne
      rw [he, List.getLast?_cons_cons, ← he] at h
      exact ih c h

/-- A trimmed text does not start with a blank. -/
theorem isBlank_head_trim (cs : List Char) : ∀ c, (trim cs).head? = some c → isBlank c = false := by
  intro c hc
  obtain ⟨after, hafter, -⟩ := exists_of_trimEnd (cs.dropWhile isBlank)
  have hhead : (cs.dropWhile isBlank).head? = some c := by
    obtain ⟨rest, hrest⟩ := List.head?_eq_some_iff.1 hc
    rw [trim] at hrest
    rw [hafter, hrest]
    rfl
  have hfirst := List.head?_dropWhile_not isBlank cs
  rw [hhead] at hfirst
  simpa using hfirst

theorem trim_trim (cs : List Char) : trim (trim cs) = trim cs :=
  trim_eq_self (isBlank_head_trim cs) (isBlank_getLast_trimEnd _)

theorem trim_enclose {q : Char} (hq : isBlank q = false) (cs : List Char) : trim (enclose q cs) = enclose q cs := by
  refine trim_eq_self (fun c hc => ?_) fun c hc => ?_
  · cases hc
    exact hq
  · rw [enclose, ← List.cons_append, List.getLast?_concat] at hc
    cases hc
    exact hq

/-- What holds of every character below U+0080 can be checked one by one. -/
theorem forall_ascii {P : Char → Prop} (h : ∀ n < 128, P (Char.ofNat n)) {c : Char} (hc : c.toNat < 128) : P c := by
  have := h c.toNat hc
  rwa [Char.ofNat_toNat] at this

theorem toNat_lt_of_isDigit {c : Char} (h : isDigit c) : c.toNat < 128 := by
  simp only [isDigit, Bool.and_eq_true, decide_eq_true_eq] at h
  have hle : c.toNat ≤ '9'.toNat := h.2
  exact Nat.lt_of_le_of_lt hle (by decide)

/-- What holds of the ten digits holds of every digit. -/
theorem forall_digit {P : Char → Prop} (h : ∀ n < 128, isDigit (Char.ofNat n) → P (Char.ofNat n)) {c : Char}
    (hc : isDigit c) : P c :=
  forall_ascii (P := fun c => isDigit c → P c) h (toNat_lt_of_isDigit hc) hc

/-- What holds of each character of a list is decided by the characters in it. -/
theorem forall_mem_of_all {P : Char → Prop} [DecidablePred P] {cs : List Char} (h : cs.all fun c => decide (P c)) :
    ∀ c ∈ cs, P c := fun c hc => of_decide_eq_true (List.all_eq_true.1 h c hc)

/-- A character of a number as it is written in a statement. -/
def InWritten (c : Char) : Prop := isDigit c ∨ c ∈ ['-', '+', '.', 'e', 'E']

/-- What holds of the digits and of the other characters of numbers holds of every character of a number. -/
theorem InWritten.forall {P : Char → Prop} [DecidablePred P] {c : Char} (h : InWritten c)
    (hdigit : ∀ n < 128, isDigit (Char.ofNat n) → P (Char.ofNat n))
    (hother : ['-', '+', '.', 'e', 'E'].all fun c => decide (P c)) : P c :=
  h.elim (forall_digit hdigit) (forall_mem_of_all hother c)

/-- There are no blanks around the characters of a number. -/
theorem trim_of_inWritten {cs : List Char} (h : ∀ c ∈ cs, InWritten c) : trim cs = cs := by
  have hblank : ∀ c ∈ cs, isBlank c = false := fun c hc =>
    (h c hc).forall (P := fun c => isBlank c = false) (by decide) (by decide)
  exact trim_eq_self (fun c hc => hblank c (List.mem_of_mem_head? hc)) fun c hc => hblank c (List.mem_of_getLast? hc)

end Text

/-! ## Numbers -/

namespace Json

open Text

theorem Parts.Proper.inWritten {p : Parts} (hp : p.Proper) {c : Char} (hc : c ∈ p.text) : InWritten c := by
  have hwhole := List.all_eq_true.1 hp.whole_digits
  rw [Parts.text, List.mem_append, List.mem_append] at hc
  rcases hc with hc | hc | hc
  · exact .inl (hwhole c hc)
  · cases hf : p.fraction with
    | none =>
      rw [hf] at hc
      cases hc
    | some ds =>
      rw [hf] at hc
      rcases List.mem_cons.1 hc with rfl | hc
      · exact .inr (by decide)
      · exact .inl (List.all_eq_true.1 (hp.fraction_digits ds hf).1 c hc)
  · cases he : p.exponent with
    | none =>
      rw [he] at hc
      cases hc
    | some e =>
      obtain ⟨down, ds⟩ := e
      rw [he] at hc
      rcases List.mem_cons.1 hc with rfl | hc
      · exact .inr (by decide)
      · rcases List.mem_cons.1 hc with rfl | hc
        · cases down <;> exact .inr (by decide)
        · exact .inl (List.all_eq_true.1 (hp.exponent_digits down ds he).1 c hc)

/-- The text of a number with its sign. -/
def Parts.signed (p : Parts) (negative : Bool) : List Char := (if negative then ['-'] else []) ++ p.text

theorem Parts.Proper.inWritten_signed {p : Parts} (hp : p.Proper) (negative : Bool) :
    ∀ c ∈ p.signed negative, InWritten c := by
  refine List.forall_mem_append.2 ⟨?_, fun c hc => hp.inWritten hc⟩
  cases negative with
  | true => exact List.forall_mem_singleton.2 (.inr (by decide))
  | false => exact fun _ h => nomatch h

end Json

namespace Literal

open Json Text

variable {cs : List Char}

theorem not_null_of_inWritten (h : ∀ c ∈ cs, InWritten c) : sameLetters cs ['n', 'u', 'l', 'l'] = false := by
  rw [sameLetters, beq_eq_false_iff_ne]
  cases cs with
  | nil => rintro ⟨⟩
  | cons c cs =>
    intro he
    have hne : c.toLower ≠ 'n' :=
      (h c List.mem_cons_self).forall (P := fun c => c.toLower ≠ 'n') (by decide) (by decide)
    exact hne (List.cons.inj he).1

theorem readQuotes_of_inWritten (h : ∀ c ∈ cs, InWritten c) : readQuotes? cs = none := by
  cases cs with
  | nil => rfl
  | cons c cs =>
    have hne : c ≠ '\'' ∧ c ≠ '"' :=
      (h c List.mem_cons_self).forall (P := fun c => c ≠ '\'' ∧ c ≠ '"') (by decide) (by decide)
    rw [readQuotes?, unquote?, unquote?, if_neg hne.1, if_neg hne.2]
    rfl

/-- The characters of a number are neither quoted nor NULL, so they are read as the number. -/
theorem read_of_inWritten {v : Value} (h : ∀ c ∈ cs, InWritten c) (hv : readNumber? cs = some v) : read cs = v := by
  simp only [read, trim_of_inWritten h, readQuotes_of_inWritten h, not_null_of_inWritten h, hv, Bool.false_eq_true,
    if_false, Option.getD_some]

theorem read_signed {p : Parts} (hp : p.Proper) (negative : Bool) :
    read (p.signed negative) = ofNumeral (p.numeral negative) := by
  refine read_of_inWritten (hp.inWritten_signed negative) ?_
  rw [readNumber?, Parts.signed, Numeral.read?_text hp]
  rfl

/-! ## Reals -/

/-- Digits have no point among them. -/
theorem contains_digits {ds : List Char} (h : ds.all isDigit) : ds.contains '.' = false := by
  rw [List.contains_eq_mem, decide_eq_false_iff_not]
  intro hmem
  exact absurd (List.all_eq_true.1 h '.' hmem) (by decide)

/-- The digits in place with a point and a zero after a whole number. -/
theorem placed_eq (d : Decimal) : d.placed ['.', '0'] =
    if (d.placed []).contains '.' then d.placed [] else d.placed [] ++ ['.', '0'] := by
  match hplace : d.pointPlace with
  | .negSucc n => simp [Decimal.placed, hplace]
  | .ofNat 0 =>
    simp only [Decimal.placed, hplace]
    simp
  | .ofNat (n + 1) =>
    simp only [Decimal.placed, hplace]
    by_cases hn : n + 1 < (Decimal.digits d.coefficient).length
    · simp [hn]
    · -- a whole number
      have hwhole : (Decimal.digits d.coefficient ++
          Decimal.zeros (n + 1 - (Decimal.digits d.coefficient).length)).contains '.' = false := by
        refine contains_digits ?_
        rw [List.all_append, Decimal.all_isDigit_digits, Decimal.all_isDigit_zeros]
        rfl
      rw [if_neg hn, if_neg hn, List.append_nil, hwhole]
      rfl

/-- **The text of a finite real is a number with a point**, and it is the shortest decimal. -/
theorem exists_parts_writeReal (r : Binary64) : ∃ p : Parts, p.Proper ∧ p.fraction.isSome ∧
    p.Denotes (Decimal.shortest .up r) ∧ writeReal r = p.signed r.negative := by
  obtain ⟨p, hp, hfraction, hd, htext⟩ := Decimal.exists_parts_placed (Decimal.shortest_exponent .up r)
  refine ⟨p, hp, hfraction, hd, ?_⟩
  have hsign : (Decimal.shortest .up r).sign = if r.negative then ['-'] else [] := by
    rw [Decimal.sign, Decimal.shortest_negative]
  have hpoint : ((if r.negative then ['-'] else []) ++ (Decimal.shortest .up r).placed []).contains '.' =
      ((Decimal.shortest .up r).placed []).contains '.' := by
    cases r.negative <;> simp
  rw [Parts.signed, ← htext, placed_eq, writeReal, Decimal.positional, hsign, hpoint]
  split
  · rfl
  · rw [List.append_assoc]

end Literal

/-! ## Values -/

/-- A value that has a literal: a text can be read as it, and it is not a real that is not finite. -/
def Value.Writable : Value → Prop
  | .boolean _ => False
  | .real r => r.isFinite
  | _ => True

namespace Literal

open Json Text

/-- Blanks at its ends do not change what a text is read as. -/
theorem read_trim (cs : List Char) : read (trim cs) = read cs := by
  rw [read, read, trim_trim]

/-- No text is read as a boolean. -/
theorem read_ne_boolean (cs : List Char) (b : Bool) : read cs ≠ .boolean b := by
  simp only [read]
  split
  · exact fun h => by cases h
  · split
    · exact fun h => by cases h
    · cases hn : Numeral.read? (trim cs) with
      | none => simp [readNumber?, hn]
      | some n =>
        simp only [readNumber?, hn, Option.map_some, Option.getD_some, ofNumeral]
        split <;> exact fun h => by cases h

/-- **A literal is read back.** -/
theorem read_write {v : Value} (hv : v.Writable) : read (write v) = v := by
  cases v with
  | null => decide
  | boolean b => exact hv.elim
  | integer i =>
    have ht : Decimal.integer i.toInt =
        (Parts.mk (Decimal.digits i.toInt.natAbs) none none).signed (decide (i.toInt < 0)) := by
      by_cases h : i.toInt < 0 <;>
        simp [Decimal.integer, Parts.signed, Parts.text, Parts.fractionText, Parts.exponentText, h]
    have hint : (if decide (i.toInt < 0) then -(i.toInt.natAbs : Int) else i.toInt.natAbs) = i.toInt := by
      by_cases h : i.toInt < 0
      · rw [if_pos (decide_eq_true h)]
        omega
      · rw [if_neg (by simpa using h)]
        omega
    rw [write, ht, read_signed (proper_digits _), ofNumeral, Parts.numeral, Numeral.toInt?,
      Decimal.natOfDigits_digits, hint, Option.bind_some, int64?_toInt]
  | real r =>
    have hr : r.isFinite := hv
    obtain ⟨p, hp, hfraction, hd, ht⟩ := exists_parts_writeReal r
    have hvalue := hd.toBinary64_eq
    rw [Decimal.shortest_negative, Decimal.toBinary64_shortest .up hr] at hvalue
    obtain ⟨ds, hds⟩ := Option.isSome_iff_exists.1 hfraction
    have hint : (p.numeral r.negative).toInt? = none := by simp [Parts.numeral, Numeral.toInt?, hds]
    rw [write, if_pos hr, ht, read_signed hp, ofNumeral, hint, Option.bind_none, hvalue]
  | text s =>
    have hunquote : readQuotes? (enclose '\'' s.toList) = some s.toList := by
      rw [readQuotes?, unquote?_enclose]
      rfl
    simp only [write, read, trim_enclose (show isBlank '\'' = false by decide), hunquote, String.ofList_toList]

end Literal

end TableStore
