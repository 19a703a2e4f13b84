import TableStore.Json.Grammar

/-!
# JSON strings read back

- `readRest?` reads what `escape` has written, character by character, up to the closing quote
  (`readRest?_flatMap_escape`), whatever follows;
- so does `expect?` for the quote in front (`expect?_writeText`).
-/

namespace TableStore.Json

/-! ## Escapes -/

theorem hexValue?_hexDigit : ∀ d < 16, hexValue? (hexDigit d) = some d := by decide

/-- The escape of a character below U+0020 reads back. -/
theorem readUnicode?_control {c : Char} (hc : c.toNat < 0x20) (rest : List Char) :
    readUnicode? ('0' :: '0' :: hexDigit (c.toNat / 16) :: hexDigit (c.toNat % 16) :: rest) = some (c, rest) := by
  have h0 : hexValue? '0' = some 0 := by decide
  have hhex : readHex? ('0' :: '0' :: hexDigit (c.toNat / 16) :: hexDigit (c.toNat % 16) :: rest)
      = some (c.toNat, rest) := by
    simp only [readHex?, h0, hexValue?_hexDigit _ (show c.toNat / 16 < 16 by omega),
      hexValue?_hexDigit _ (show c.toNat % 16 < 16 by omega), Option.bind_eq_bind, Option.bind_some]
    show some (_, rest) = some (_, rest)
    congr 2
    omega
  have hhigh : isHighSurrogate c.toNat = false := by
    simp only [isHighSurrogate, Bool.and_eq_false_iff, decide_eq_false_iff_not]
    omega
  have hlow : isLowSurrogate c.toNat = false := by
    simp only [isLowSurrogate, Bool.and_eq_false_iff, decide_eq_false_iff_not]
    omega
  simp only [readUnicode?, hhex, Option.bind_eq_bind, Option.bind_some, hhigh, hlow, Bool.false_eq_true, if_false,
    Char.ofNat_toNat]

/-- **A character reads back from its escape.** -/
theorem readCharacters?_escape (c : Char) (fuel : Nat) (rest : List Char) :
    readCharacters? false (fuel + 1) (escape c ++ rest) =
      (readCharacters? false fuel rest).map fun r => (c :: r.1, r.2) := by
  have hmap : ∀ (c : Char), ((readCharacters? false fuel rest).bind fun r => pure (c :: r.1, r.2)) =
      (readCharacters? false fuel rest).map fun r => (c :: r.1, r.2) := fun c => by
    cases readCharacters? false fuel rest <;> rfl
  unfold escape
  split
  case h_8 h1 h2 _ _ _ _ _ =>
    split
    · -- below U+0020: four hexadecimal digits
      rename_i hc
      simp only [List.cons_append, List.nil_append, readCharacters?, readEscape?, readUnicode?_control hc]
      exact hmap c
    · rename_i hc
      have h1' : c ≠ '"' := h1
      have h2' : c ≠ '\\' := h2
      simp only [List.cons_append, List.nil_append, readCharacters?, if_neg h1', if_neg h2', if_neg hc]
  all_goals exact hmap _

/-! ## Texts -/

theorem length_escape_pos (c : Char) : 0 < (escape c).length := by
  unfold escape
  split
  case h_8 => split <;> simp
  all_goals simp

theorem length_le_flatMap_escape : ∀ cs : List Char, cs.length ≤ (cs.flatMap escape).length
  | [] => Nat.le_refl 0
  | c :: cs => by
    have h1 := length_escape_pos c
    have h2 := length_le_flatMap_escape cs
    simp only [List.flatMap_cons, List.length_append, List.length_cons]
    omega

theorem readCharacters?_flatMap_escape : ∀ (cs : List Char) {fuel : Nat} (rest : List Char), cs.length < fuel →
    readCharacters? false fuel (cs.flatMap escape ++ '"' :: rest) = some (cs, rest)
  | [], fuel + 1, rest, _ => rfl
  | c :: cs, fuel + 1, rest, h => by
    have ih : readCharacters? false fuel (cs.flatMap escape ++ '"' :: rest) = some (cs, rest) :=
      readCharacters?_flatMap_escape cs rest (Nat.lt_of_succ_lt_succ h)
    rw [List.flatMap_cons, List.append_assoc, readCharacters?_escape, ih]
    rfl

/-- **A text reads back from its escapes**, up to the closing quote. -/
theorem readRest?_flatMap_escape (cs rest : List Char) :
    readRest? false (cs.flatMap escape ++ '"' :: rest) = some (cs, rest) := by
  refine readCharacters?_flatMap_escape cs rest ?_
  have := length_le_flatMap_escape cs
  simp only [List.length_append, List.length_cons]
  omega

theorem skipSpace_of_not_space {c : Char} (h : isSpace c = false) (cs : List Char) :
    skipSpace (c :: cs) = c :: cs := by
  simp [skipSpace, h]

/-- A character that is expected and no space. -/
theorem expect?_self {c : Char} (h : isSpace c = false) (cs : List Char) : expect? c (c :: cs) = some cs := by
  simp [expect?, skipSpace_of_not_space h]

theorem expect?_writeText (cs rest : List Char) :
    expect? '"' (writeText cs ++ rest) = some (cs.flatMap escape ++ '"' :: rest) := by
  simp only [writeText, List.cons_append, List.append_assoc, List.nil_append]
  exact expect?_self (by decide) _

end TableStore.Json
