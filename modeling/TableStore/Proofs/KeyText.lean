import TableStore.Keyspace
import TableStore.Proofs.JsonRecord
import TableStore.Proofs.Rounding

/-!
# The texts of keys

- the text of a finite real is a numeral whose nearest real is that real (`Json.toBinary64_writeReal`), so different
  reals have different texts, whatever a reader makes of them (`Json.writeReal_inj`);
- a key is `Written` when its text tells it: all keys are but the reals that are not finite, which share a text
  (`Keyspace.keyText_inj`).
-/

namespace TableStore

/-! ## Numerals -/

namespace Numeral

open Json Text

/-- The exponent of a number is read back. -/
theorem readExponent?_exponentText {e : Option (Bool × List Char)}
    (he : ∀ down ds, e = some (down, ds) → ds.all isDigit ∧ ds ≠ []) :
    readExponent? (Parts.exponentText e) = some e := by
  cases e with
  | none => rfl
  | some p =>
    obtain ⟨down, ds⟩ := p
    obtain ⟨hd, hne⟩ := he down ds rfl
    cases down <;> simp [Parts.exponentText, readExponent?, readSign, hd, hne]

theorem readSign_text {p : Parts} (hp : p.Proper) (negative : Bool) :
    readSign ((if negative then ['-'] else []) ++ p.text) = (negative, p.text) := by
  cases negative with
  | true => rfl
  | false =>
    obtain ⟨c, cs, htext, hc⟩ := exists_cons_text hp false
    have hd : isDigit c := by
      rcases hc with rfl | hc
      · -- the text without a sign starts with a digit
        have hwhole := hp.whole_digits
        cases hw : p.whole with
        | nil => exact absurd hw hp.whole_ne_nil
        | cons d ds =>
          simp only [Parts.text, hw, Bool.false_eq_true, if_false, List.nil_append, List.cons_append] at htext
          rw [hw, (List.cons.inj htext).1] at hwhole
          simp [isDigit] at hwhole
      · exact hc
    have hne : c ≠ '-' ∧ c ≠ '+' := by
      constructor <;>
      · rintro rfl
        simp [isDigit] at hd
    rw [htext, readSign]
    · rw [← htext]
      rfl
    · exact fun _ h => hne.1 (List.cons.inj h).1
    · exact fun _ h => hne.2 (List.cons.inj h).1

/-- **The text of a number is read as its parts.** -/
theorem read?_text {p : Parts} (hp : p.Proper) (negative : Bool) :
    read? ((if negative then ['-'] else []) ++ p.text) = some (p.numeral negative) := by
  have hexponent := readExponent?_exponentText hp.exponent_digits
  have hstop : ∀ c, (Parts.exponentText p.exponent).head? = some c → isDigit c = false ∧ c ≠ '.' := fun c hc =>
    head?_exponentText_append stops_nil (by rwa [List.append_nil])
  cases hf : p.fraction with
  | none =>
    have hspan := spanDigits_append hp.whole_digits fun c hc => (hstop c hc).1
    rw [spanDigits, Prod.mk.injEq] at hspan
    have htext : p.text = p.whole ++ Parts.exponentText p.exponent := by
      rw [Parts.text, hf]
      rfl
    rw [read?, readSign_text hp, htext]
    simp only [hspan]
    split
    · rename_i cs hcs
      exact absurd rfl (hstop '.' (by rw [hcs]; rfl)).2
    · rw [if_neg (by simpa using hp.whole_ne_nil), hexponent, Option.map_some, Parts.numeral, hf]
  | some ds =>
    obtain ⟨hd, -⟩ := hp.fraction_digits ds hf
    have htext : p.text = p.whole ++ '.' :: (ds ++ Parts.exponentText p.exponent) := by
      rw [Parts.text, hf]
      rfl
    have hwhole : spanDigits (p.whole ++ '.' :: (ds ++ Parts.exponentText p.exponent)) =
        (p.whole, '.' :: (ds ++ Parts.exponentText p.exponent)) := spanDigits_append hp.whole_digits fun c hc => by
      cases hc
      decide
    have hspan := spanDigits_append hd fun c hc => (hstop c hc).1
    rw [spanDigits, Prod.mk.injEq] at hwhole hspan
    rw [read?, readSign_text hp, htext]
    simp only [hwhole, hspan]
    rw [if_neg (by simp [hp.whole_ne_nil]), hexponent, Option.map_some, Parts.numeral, hf]

end Numeral

namespace Json

/-- Parts that denote a decimal have its nearest real. -/
theorem Parts.Denotes.toBinary64_eq {p : Parts} {d : Decimal} (h : p.Denotes d) :
    (p.numeral d.negative).toDecimal.toBinary64 = d.toBinary64 := by
  obtain ⟨k, hk⟩ := h
  rw [hk, Decimal.toBinary64, Decimal.toBinary64, Decimal.rank_shift]

/-- **The text of a finite real is a numeral whose nearest real is that real.** -/
theorem toBinary64_writeReal {r : Binary64} (hr : r.isFinite) :
    (Numeral.read? (writeReal r)).map (fun n => n.toDecimal.toBinary64) = some r := by
  obtain ⟨p, hp, -, hd, ht⟩ := exists_parts_writeReal hr
  have hvalue := hd.toBinary64_eq
  rw [Decimal.shortest_negative, Decimal.toBinary64_shortest .even hr] at hvalue
  rw [ht, Numeral.read?_text hp, Option.map_some, hvalue]

/-- Finite reals with the same text are the same. -/
theorem writeReal_inj {r s : Binary64} (hr : r.isFinite) (hs : s.isFinite) (h : writeReal r = writeReal s) : r = s := by
  have hr' := toBinary64_writeReal hr
  rw [h, toBinary64_writeReal hs] at hr'
  exact (Option.some.inj hr').symm

end Json

/-! ## Keys -/

/-- The text of the key tells it. -/
def Key.Written : Key → Prop
  | .real r => r.isFinite
  | _ => True

namespace Keyspace

theorem writeKey_eq {k l : Key} (h : keyText k = keyText l) : Json.writeKey k = Json.writeKey l :=
  String.ofList_inj.1 h

/-- Keys with the same text are read as the same value, if they are read. -/
theorem reread?_eq {k l : Key} (h : keyText k = keyText l) : k.toValue.reread? = l.toValue.reread? := by
  have hk := Json.readValue?_writeValue k.toValue Json.stops_nil
  have hl := Json.readValue?_writeValue l.toValue Json.stops_nil
  have hsame : Json.writeValue k.toValue = Json.writeValue l.toValue := writeKey_eq h
  rw [hsame, hl] at hk
  cases hk' : k.toValue.reread? <;> cases hl' : l.toValue.reread? <;> simp_all

/-- A real is never read as another kind of key. -/
theorem reread?_real_ne {r : Binary64} {l : Key} (hl : ∀ s, l ≠ .real s) :
    (Value.real r).reread? ≠ some l.toValue := by
  intro h
  rw [Value.reread?] at h
  split at h
  · rename_i hf
    obtain ⟨s, hs⟩ := Json.rereadReal?_real hf h
    cases l with
    | real s => exact hl s rfl
    | integer i => cases hs
    | text t => cases hs
  · cases l <;> cases h

/-- **The text of a key that is not an infinity tells the key.** -/
theorem keyText_inj {k l : Key} (hl : l.Written) (h : keyText k = keyText l) : k = l := by
  have hread := reread?_eq h
  cases l with
  | integer i =>
    cases k with
    | integer j => cases hread; rfl
    | real r => exact absurd hread (reread?_real_ne (l := .integer i) fun _ h => by cases h)
    | text t => cases hread
  | text s =>
    cases k with
    | integer j => cases hread
    | real r => exact absurd hread (reread?_real_ne (l := .text s) fun _ h => by cases h)
    | text t => cases hread; rfl
  | real s =>
    have hs : s.isFinite := hl
    cases k with
    | integer j => exact absurd hread.symm (reread?_real_ne (l := .integer j) fun _ h => by cases h)
    | text t => exact absurd hread.symm (reread?_real_ne (l := .text t) fun _ h => by cases h)
    | real r =>
      have htext : Json.writeReal r = Json.writeReal s := writeKey_eq h
      have hr : r.isFinite := by
        by_contra hr
        -- the text of an infinity starts with a letter
        obtain ⟨p, hp, -, -, ht⟩ := Json.exists_parts_writeReal hs
        obtain ⟨c, cs, hc, hstart⟩ := Json.exists_cons_text hp s.negative
        rw [Json.writeReal, if_neg hr, ht, hc] at htext
        rw [← (List.cons.inj htext).1] at hstart
        revert hstart
        decide
      exact congrArg Key.real (Json.writeReal_inj hr hs htext)

end Keyspace

end TableStore
