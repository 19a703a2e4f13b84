import TableStore.Json.Record
import TableStore.Proofs.JsonNumber
import TableStore.Proofs.JsonText

/-!
# JSON arrays, objects and records read back

- items and members are read one by one from the text that they were written to; the rest of the text is never shorter
  than the items in it, so the bounds on the recursions suffice (`readItems?_commas`, `readMembers?_commas`);
- `Value.reread?` says what JSON makes of a value: numbers that are not finite become NULL, finite reals what their
  text is read as, and all else stays (`readValue?_writeValue`);
- a record is read as the record of its values (`readRecord?_writeRecord`).
-/

namespace TableStore

namespace Json

variable {α β σ : Type}

/-! ## Items -/

theorem stops_comma (rest : List Char) : Stops (',' :: rest) := by
  rintro c h
  cases h
  decide

theorem stops_bracket (rest : List Char) : Stops (']' :: rest) := by
  rintro c h
  cases h
  decide

theorem stops_brace (rest : List Char) : Stops ('}' :: rest) := by
  rintro c h
  cases h
  decide

/-- Texts after the first, each with its comma in front. -/
def tails (ts : List (List Char)) : List Char := ts.flatMap fun t => ',' :: t

theorem commas_cons (t : List Char) : ∀ ts : List (List Char), commas (t :: ts) = t ++ tails ts
  | [] => by simp [commas, tails]
  | t' :: ts => by
    rw [commas, commas_cons t' ts]
    · simp [tails]
    · intro h
      cases h

theorem length_le_tails : ∀ ts : List (List Char), ts.length ≤ (tails ts).length
  | [] => Nat.le_refl 0
  | t :: ts => by
    have ih := length_le_tails ts
    simp only [tails, List.flatMap_cons, List.length_append, List.length_cons] at ih ⊢
    omega

/-- What follows an item stops a number. -/
theorem stops_tails {c : Char} (hc : ∀ rest, Stops (c :: rest)) (rest : List Char) :
    ∀ ts : List (List Char), Stops (tails ts ++ c :: rest)
  | [] => hc rest
  | _ :: _ => stops_comma _

/-- A reader of items gets back what each was written for. -/
def Reads (item : List Char → Option (β × List Char)) (text : α → List Char) (reread : α → Option β) : Prop :=
  ∀ a rest, Stops rest → item (text a ++ rest) = (reread a).map fun b => (b, rest)

theorem readMoreItems?_tails {item : List Char → Option (β × List Char)} {text : α → List Char}
    {reread : α → Option β} (h : Reads item text reread) (rest : List Char) :
    ∀ (as : List α) {fuel : Nat}, as.length < fuel →
      readMoreItems? item fuel (tails (as.map text) ++ ']' :: rest) = (as.mapM reread).map fun bs => (bs, rest)
  | [], fuel + 1, _ => by
    simp [tails, readMoreItems?, skipSpace_of_not_space (c := ']') (by decide)]
  | a :: as, fuel + 1, hfuel => by
    have ih := readMoreItems?_tails h rest as (Nat.lt_of_succ_lt_succ hfuel)
    have hhead : tails ((a :: as).map text) ++ ']' :: rest
        = ',' :: (text a ++ (tails (as.map text) ++ ']' :: rest)) := by
      simp [tails]
    rw [hhead, readMoreItems?, skipSpace_of_not_space (by decide)]
    simp only [h a _ (stops_tails stops_bracket rest _), List.mapM_cons]
    cases reread a with
    | none => rfl
    | some b =>
      simp only [Option.map_some, Option.bind_eq_bind, Option.bind_some, ih]
      cases as.mapM reread <;> rfl

/-- **The items of an array read back** one by one. -/
theorem readItems?_commas {item : List Char → Option (β × List Char)} {text : α → List Char}
    {reread : α → Option β} (h : Reads item text reread)
    (hne : ∀ a, ∃ c cs, text a = c :: cs ∧ isSpace c = false ∧ c ≠ ']') (as : List α) (rest : List Char) :
    readItems? item (commas (as.map text) ++ ']' :: rest) = (as.mapM reread).map fun bs => (bs, rest) := by
  cases as with
  | nil => simp [commas, readItems?, skipSpace_of_not_space (c := ']') (by decide)]
  | cons a as =>
    obtain ⟨c, cs, ht, hc, hb⟩ := hne a
    have hskip : skipSpace (text a ++ (tails (as.map text) ++ ']' :: rest)) =
        text a ++ (tails (as.map text) ++ ']' :: rest) := by
      rw [ht]
      exact skipSpace_of_not_space hc _
    rw [List.map_cons, commas_cons, List.append_assoc, readItems?, hskip]
    split
    · rename_i hcs
      rw [ht] at hcs
      cases hcs
      exact absurd rfl hb
    · simp only [h a _ (stops_tails stops_bracket rest _), List.mapM_cons]
      cases reread a with
      | none => rfl
      | some b =>
        have hfuel : as.length < (tails (as.map text) ++ ']' :: rest).length := by
          have := length_le_tails (as.map text)
          simp only [List.length_map, List.length_append, List.length_cons] at this ⊢
          omega
        simp only [Option.map_some, Option.bind_eq_bind, Option.bind_some, readMoreItems?_tails h rest as hfuel]
        cases as.mapM reread <;> rfl

/-! ## Members -/

/-- The text of a member is read up to its value, whose reader goes on. -/
theorem readMember?_writeMember (member : List Char → σ → List Char → Option (σ × List Char)) (s : σ) (name : String)
    (value rest : List Char) :
    readMember? false member s (writeMember name value ++ rest) = member name.toList s (value ++ rest) := by
  have hquote : expect? '"' (writeMember name value ++ rest) =
      some (name.toList.flatMap escape ++ '"' :: (':' :: (value ++ rest))) := by
    rw [writeMember, List.append_assoc]
    exact expect?_writeText _ _
  simp only [readMember?, hquote, Option.bind_eq_bind, Option.bind_some, readRest?_flatMap_escape,
    expect?_self (show isSpace ':' = false by decide)]

/-- A reader of members takes each member as a step from what is read before it. -/
def Takes (member : List Char → σ → List Char → Option (σ × List Char)) (name : α → String)
    (value : α → List Char) (step : σ → α → Option σ) : Prop :=
  ∀ s a rest, Stops rest → member (name a).toList s (value a ++ rest) = (step s a).map fun s => (s, rest)

theorem readMoreMembers?_tails {member : List Char → σ → List Char → Option (σ × List Char)} {name : α → String}
    {value : α → List Char} {step : σ → α → Option σ} (h : Takes member name value step) (rest : List Char) :
    ∀ (as : List α) {fuel : Nat} (s : σ), as.length < fuel →
      readMoreMembers? false member fuel s (tails (as.map fun a => writeMember (name a) (value a)) ++ '}' :: rest) =
        (as.foldlM step s).map fun s => (s, rest)
  | [], fuel + 1, s, _ => by
    simp [tails, readMoreMembers?, skipSpace_of_not_space (c := '}') (by decide)]
  | a :: as, fuel + 1, s, hfuel => by
    have ih := fun s => readMoreMembers?_tails h rest as s (Nat.lt_of_succ_lt_succ hfuel)
    have hhead : tails ((a :: as).map fun a => writeMember (name a) (value a)) ++ '}' :: rest =
        ',' :: (writeMember (name a) (value a) ++
          (tails (as.map fun a => writeMember (name a) (value a)) ++ '}' :: rest)) := by
      simp [tails]
    rw [hhead, readMoreMembers?, skipSpace_of_not_space (by decide)]
    simp only [readMember?_writeMember, h s a _ (stops_tails stops_brace rest _), List.foldlM_cons]
    cases step s a with
    | none => rfl
    | some s' => exact ih s'

/-- **The members of an object read back** one after another. -/
theorem readMembers?_commas {member : List Char → σ → List Char → Option (σ × List Char)} {name : α → String}
    {value : α → List Char} {step : σ → α → Option σ} (h : Takes member name value step) (s : σ) (as : List α)
    (rest : List Char) :
    readMembers? false member s (commas (as.map fun a => writeMember (name a) (value a)) ++ '}' :: rest) =
      (as.foldlM step s).map fun s => (s, rest) := by
  cases as with
  | nil => simp [commas, readMembers?, skipSpace_of_not_space (c := '}') (by decide)]
  | cons a as =>
    have hskip : ∀ cs, skipSpace (writeMember (name a) (value a) ++ cs) = writeMember (name a) (value a) ++ cs :=
      fun cs => skipSpace_of_not_space (by decide) _
    rw [List.map_cons, commas_cons, List.append_assoc, readMembers?, hskip]
    split
    · rename_i hcs
      cases hcs
    · simp only [readMember?_writeMember, h s a _ (stops_tails stops_brace rest _), List.foldlM_cons]
      cases step s a with
      | none => rfl
      | some s' =>
        refine readMoreMembers?_tails h rest as s' ?_
        have := length_le_tails (as.map fun a => writeMember (name a) (value a))
        simp only [List.length_map, List.length_append, List.length_cons] at this ⊢
        omega

end Json

/-! ## Values -/

/-- What JSON makes of a value, if the text of the value is read. -/
def Value.reread? : Value → Option Value
  | .real r => if r.isFinite then Json.rereadReal? r else some .null
  | v => some v

namespace Json

theorem readValue?_number {c : Char} (h : c = '-' ∨ Text.isDigit c) (cs : List Char) :
    readValue? (c :: cs) = readNumber? (c :: cs) := by
  have hspace : isSpace c = false := by
    rcases h with rfl | h
    · decide
    · simp only [Text.isDigit, Bool.and_eq_true, decide_eq_true_eq] at h
      have hne : ∀ d : Char, ¬('0' ≤ d ∧ d ≤ '9') → c ≠ d := fun d hd hcd => hd (hcd ▸ h)
      simp [isSpace, hne ' ' (by decide), hne '\n' (by decide), hne '\t' (by decide), hne '\r' (by decide)]
  have hne : ∀ d : Char, d ≠ '-' → Text.isDigit d = false → c ≠ d := by
    rintro d hd hd' rfl
    rcases h with h | h
    · exact hd h
    · rw [hd'] at h
      cases h
  rw [readValue?, skipSpace_of_not_space hspace]
  split
  · rename_i hcs
    cases hcs
    exact absurd rfl (hne '"' (by decide) (by decide))
  · rename_i hcs
    cases hcs
    exact absurd rfl (hne 'n' (by decide) (by decide))
  · rename_i hcs
    cases hcs
    exact absurd rfl (hne 't' (by decide) (by decide))
  · rename_i hcs
    cases hcs
    exact absurd rfl (hne 'f' (by decide) (by decide))
  · rfl

/-- The text of a number starts with a minus sign or a digit. -/
theorem exists_cons_text {p : Parts} (hp : p.Proper) (negative : Bool) :
    ∃ c cs, (if negative then ['-'] else []) ++ p.text = c :: cs ∧ (c = '-' ∨ Text.isDigit c) := by
  cases negative with
  | true => exact ⟨'-', p.text, rfl, .inl rfl⟩
  | false =>
    have hd := hp.whole_digits
    cases hw : p.whole with
    | nil => exact absurd hw hp.whole_ne_nil
    | cons c cs =>
      rw [hw, List.all_cons, Bool.and_eq_true] at hd
      refine ⟨c, cs ++ (Parts.fractionText p.fraction ++ Parts.exponentText p.exponent), ?_, .inr hd.1⟩
      simp [Parts.text, hw]

theorem exists_parts_integer (i : Int) : ∃ p : Parts, p.Proper ∧
    Decimal.integer i = (if decide (i < 0) then ['-'] else []) ++ p.text := by
  refine ⟨_, proper_digits i.natAbs, ?_⟩
  have htext : (Parts.mk (Decimal.digits i.natAbs) none none).text = Decimal.digits i.natAbs := by
    simp [Parts.text, Parts.fractionText, Parts.exponentText]
  rw [htext, Decimal.integer]
  by_cases h : i < 0 <;> simp [h]

/-- **The text of a value is read as what JSON makes of the value.** -/
theorem readValue?_writeValue (v : Value) {rest : List Char} (hr : Stops rest) :
    readValue? (writeValue v ++ rest) = v.reread?.map fun w => (w, rest) := by
  cases v with
  | null => rfl
  | boolean b => cases b <;> rfl
  | integer i =>
    obtain ⟨p, hp, ht⟩ := exists_parts_integer i.toInt
    obtain ⟨c, cs, hc, hstart⟩ := exists_cons_text hp (decide (i.toInt < 0))
    have hread := readNumber?_integer i hr
    rw [ht, hc, List.cons_append] at hread
    rw [writeValue, ht, hc, List.cons_append, readValue?_number hstart, hread]
    rfl
  | real r =>
    by_cases hf : r.isFinite
    · obtain ⟨p, hp, -, -, ht⟩ := exists_parts_writeReal hf
      obtain ⟨c, cs, hc, hstart⟩ := exists_cons_text hp r.negative
      have hread := readNumber?_writeReal hf hr
      rw [ht, hc, List.cons_append] at hread
      rw [writeValue, ht, hc, List.cons_append, readValue?_number hstart, hread, Value.reread?, if_pos hf]
    · rw [writeValue, writeReal, if_neg hf, Value.reread?, if_neg hf]
      rfl
  | text s =>
    have hquote : readValue? (writeText s.toList ++ rest) =
        (readRest? false (s.toList.flatMap escape ++ '"' :: rest)).map fun r => (.text (String.ofList r.1), r.2) := by
      simp [readValue?, writeText, skipSpace_of_not_space (show isSpace '"' = false by decide)]
    rw [writeValue, hquote, readRest?_flatMap_escape, Option.map_some, String.ofList_toList]
    rfl

end Json

/-! ## Records -/

/-- What JSON makes of a record, if the texts of all its values are read. -/
def Record.reread? (r : Record) : Option Record :=
  r.cells.foldlM (fun s c => c.2.reread?.map fun v => s.set c.1 v) .empty

namespace Json

/-- **The text of a record is read as what JSON makes of the record.** -/
theorem readRecord?_writeRecord (r : Record) : readRecord? (writeRecord r) = r.reread? := by
  have hcells : Takes readCell? (fun c : String × Value => c.1) (fun c => writeValue c.2) fun s c =>
      c.2.reread?.map fun v => s.set c.1 v := by
    intro s c rest hr
    simp only [readCell?, readValue?_writeValue c.2 hr, String.ofList_toList]
    cases c.2.reread? <;> rfl
  have hread : readMembers? false readCell? .empty (commas (r.cells.map writeCell) ++ ['}']) =
      r.reread?.map fun s => (s, []) := readMembers?_commas hcells .empty r.cells []
  have hbrace : expect? '{' (writeRecord r) = some (commas (r.cells.map writeCell) ++ ['}']) :=
    expect?_self (by decide) _
  rw [readRecord?, whole?, hbrace, Option.bind_some, hread]
  cases r.reread? <;> rfl

end Json

end TableStore
