import TableStore.Proofs.Readers

/-!
# Tokens in their text

- the characters of a token, and the blanks and comments before it, are what the text goes on with
  (`Scan.starts_readToken`, `Scan.starts_gap`), so every token that is scanned stands at its characters
  (`Scan.stands_of_scan`);
- the value of a quoted text or a number is neither NULL nor a boolean (`Scan.Stands.read_operand`).
-/

namespace TableStore

namespace Scan

open Text

variable {c q : Char} {cs chars : List Char} {t : Token}

/-! ## Characters of tokens -/

theorem starts_gap (g : Gap) (cs : List Char) : gap g cs <+: cs := by
  fun_induction gap g cs <;> simp_all

theorem starts_numberChars (pointed : Bool) (cs : List Char) : numberChars pointed cs <+: cs := by
  fun_induction numberChars pointed cs <;> simp_all

theorem starts_signedNumberChars (cs : List Char) : signedNumberChars cs <+: cs := by
  unfold signedNumberChars
  split
  · exact List.cons_prefix_cons.2 ⟨rfl, starts_numberChars false _⟩
  · exact starts_numberChars false cs

/-- What is read between quotes stands there with every quote written twice. -/
theorem eq_of_readQuoted : ∀ {cs s rest : List Char}, readQuoted q cs = some (s, rest) →
    cs = double q s ++ q :: rest
  | [], _, _, h => nomatch h
  | [c], s, rest, h => by
    rw [readQuoted] at h
    split at h <;> cases h
    rename_i hc
    rw [hc]
    rfl
  | c :: d :: cs, s, rest, h => by
    rw [readQuoted] at h
    split at h
    · rename_i hc
      split at h
      · rename_i hd
        obtain ⟨⟨s', rest'⟩, hread, he⟩ := Option.map_eq_some_iff.1 h
        cases he
        rw [eq_of_readQuoted hread, hc, hd, double, if_pos rfl]
        rfl
      · cases h
        rw [hc]
        rfl
    · rename_i hc
      obtain ⟨⟨s', rest'⟩, hread, he⟩ := Option.map_eq_some_iff.1 h
      cases he
      rw [eq_of_readQuoted hread, double, if_neg hc]
      rfl

theorem starts_enclose {s rest : List Char} (h : readQuoted q cs = some (s, rest)) : enclose q s <+: q :: cs := by
  have hcs : q :: cs = enclose q s ++ rest := by
    rw [eq_of_readQuoted h, enclose, List.cons_append, List.append_assoc]
    rfl
  rw [hcs]
  exact List.prefix_append _ _

theorem starts_readMark {m : Mark} (h : readMark? cs = some (m, chars)) : chars <+: cs := by
  unfold readMark? at h
  split at h <;> cases h <;> simp only [List.cons_prefix_cons, List.nil_prefix, true_and]

theorem readNumber_eq_ok (h : readNumber cs = .ok (t, chars)) : t = .number (String.ofList chars) ∧
    chars = signedNumberChars cs := by
  simp only [readNumber] at h
  split at h
  · cases h
  split at h <;> cases h
  exact ⟨rfl, rfl⟩

/-- The characters of a token are what the text goes on with. -/
theorem starts_readToken {position : Nat} (h : readToken position cs = .ok (t, chars)) : chars <+: cs := by
  cases cs with
  | nil =>
    cases h
    exact List.prefix_rfl
  | cons c cs =>
    rw [readToken] at h
    split at h
    · rw [(readNumber_eq_ok h).2]
      exact starts_signedNumberChars _
    split at h
    · rename_i m chars' hmark
      cases h
      exact starts_readMark hmark
    split at h
    · split at h
      · rename_i hread
        cases h
        exact starts_enclose hread
      · cases h
    split at h <;> cases h
    exact List.takeWhile_prefix _

/-! ## Tokens that are scanned -/

/-- A token stands in a text at characters that are read as it, whatever follows them there. -/
def Stands (text : List Char) (l : Lexeme) : Prop :=
  ∃ chars rest position, Parse.source text [l] = .ok chars ∧ readToken position (chars ++ rest) = .ok (l.token, chars)

/-- **One step of a scan.** The text is what is passed over, the characters of the first token and a rest, and the
later tokens are those of the rest, if there are any. -/
theorem exists_of_lexemes {fuel position : Nat} {ls : List Lexeme} (h : lexemes (fuel + 1) position cs = .ok ls) :
    ∃ skipped t chars rest later, cs = skipped ++ (chars ++ rest) ∧
      readToken (position + byteLength skipped) (chars ++ rest) = .ok (t, chars) ∧
      ls = ⟨t, position + byteLength skipped, position + byteLength skipped + byteLength chars⟩ :: later ∧
      (later = [] ∨ lexemes fuel (position + byteLength skipped + byteLength chars) rest = .ok later) := by
  obtain ⟨⟨t, chars⟩, hread, h⟩ := Except.exists_of_bind h
  have hafter := List.prefix_iff_eq_append.1 (starts_gap .blank cs)
  have hrest := List.prefix_iff_eq_append.1 (starts_readToken hread)
  refine ⟨gap .blank cs, t, chars, (cs.drop (gap .blank cs).length).drop chars.length, ?_⟩
  rw [hrest, hafter]
  dsimp only at h
  split at h
  · cases h
    exact ⟨[], rfl, hread, rfl, .inl rfl⟩
  · obtain ⟨later, hlater, h⟩ := Except.exists_of_bind h
    cases h
    exact ⟨later, rfl, hread, rfl, .inr hlater⟩

theorem stands_of_lexemes : ∀ {fuel : Nat} {front cs : List Char} {ls : List Lexeme},
    lexemes fuel (byteLength front) cs = .ok ls → ∀ l ∈ ls, Stands (front ++ cs) l
  | 0, _, _, _, h => nomatch h
  | fuel + 1, front, cs, ls, h => by
    obtain ⟨skipped, t, chars, rest, later, rfl, hread, rfl, hlater⟩ := exists_of_lexemes h
    have htext : front ++ (skipped ++ (chars ++ rest)) = (front ++ skipped) ++ (chars ++ rest) :=
      (List.append_assoc _ _ _).symm
    rw [← byteLength_append] at hread hlater ⊢
    rw [htext]
    refine List.forall_mem_cons.2 ⟨⟨chars, rest, _, ?_, hread⟩, ?_⟩
    · rw [Parse.source, List.getLastD_nil, slice?_middle]
    · rcases hlater with rfl | hlater
      · exact List.forall_mem_nil _
      · rw [← byteLength_append] at hlater
        have ih := stands_of_lexemes hlater
        rwa [List.append_assoc] at ih

/-- **Every token that is scanned stands at its characters.** -/
theorem stands_of_scan {text : List Char} {ls : List Lexeme} (h : scan text = .ok ls) : ∀ l ∈ ls, Stands text l :=
  @stands_of_lexemes _ [] text ls h

/-! ## Values -/

theorem subset_trimEnd : ∀ {cs : List Char}, ∀ c ∈ trimEnd cs, c ∈ cs
  | [], _, h => h
  | d :: cs, c, h => by
    rw [trimEnd] at h
    split at h
    · split at h
      · cases h
      · exact List.mem_cons.2 (.inl (List.mem_singleton.1 h))
    · rcases List.mem_cons.1 h with rfl | h
      · exact List.mem_cons_self
      · exact List.mem_cons_of_mem _ (subset_trimEnd c h)

theorem inWritten_of_isExponentMark (h : isExponentMark c) : InWritten c := by
  simp only [isExponentMark, Bool.or_eq_true, beq_iff_eq] at h
  rcases h with rfl | rfl <;> exact .inr (by decide)

theorem inWritten_of_isSign (h : isSign c) : InWritten c := by
  simp only [isSign, Bool.or_eq_true, beq_iff_eq] at h
  rcases h with rfl | rfl <;> exact .inr (by decide)

theorem inWritten_of_isPoint {pointed : Bool} (h : (c == '.' && !pointed) = true) : InWritten c := by
  simp only [Bool.and_eq_true, beq_iff_eq] at h
  obtain ⟨rfl, -⟩ := h
  exact .inr (by decide)

theorem inWritten_of_mem_numberChars (pointed : Bool) (cs : List Char) : ∀ c ∈ numberChars pointed cs, InWritten c := by
  fun_induction numberChars pointed cs with
  -- the number ends here
  | case1 | case3 | case8 => exact fun _ h => nomatch h
  -- the last character
  | case2 pointed c hc =>
    refine List.forall_mem_singleton.2 ?_
    rw [Bool.or_eq_true] at hc
    exact hc.elim .inl inWritten_of_isPoint
  -- a digit
  | case4 pointed c d cs hc ih => exact List.forall_mem_cons.2 ⟨.inl hc, ih⟩
  -- the point
  | case5 pointed c d cs _ hc ih => exact List.forall_mem_cons.2 ⟨inWritten_of_isPoint hc, ih⟩
  -- an exponent without a sign
  | case6 pointed c d cs _ _ hc ih =>
    rw [Bool.and_eq_true] at hc
    exact List.forall_mem_cons.2 ⟨inWritten_of_isExponentMark hc.1, ih⟩
  -- an exponent with a sign
  | case7 pointed c d cs _ _ _ hc ih =>
    rw [Bool.and_eq_true, Bool.and_eq_true] at hc
    exact List.forall_mem_cons.2 ⟨inWritten_of_isExponentMark hc.1.1,
      List.forall_mem_cons.2 ⟨inWritten_of_isSign hc.1.2, ih⟩⟩

theorem inWritten_of_mem_signedNumberChars (cs : List Char) : ∀ c ∈ signedNumberChars cs, InWritten c := by
  unfold signedNumberChars
  split
  · exact List.forall_mem_cons.2 ⟨.inr (by decide), inWritten_of_mem_numberChars false _⟩
  · exact inWritten_of_mem_numberChars false cs

/-- Characters of numbers do not spell NULL. -/
theorem read_ne_null_of_inWritten (h : ∀ c ∈ cs, InWritten c) : Literal.read cs ≠ .null := by
  have hletters := Literal.not_null_of_inWritten fun c (hc : c ∈ trim cs) =>
    h c ((List.dropWhile_suffix _).subset (subset_trimEnd c hc))
  rw [Literal.read]
  split
  · rintro ⟨⟩
  rw [hletters, if_neg Bool.false_ne_true, Literal.readNumber?]
  cases Numeral.read? (trim cs) with
  | none => rintro ⟨⟩
  | some n =>
    rw [Option.map_some, Option.getD_some, Literal.ofNumeral]
    split <;> rintro ⟨⟩

/-- A text between quotes is read as text. -/
theorem read_enclose {s : List Char} (hq : q ∈ ['\'', '"']) : Literal.read (enclose q s) = .text (String.ofList s) := by
  have hblank : isBlank q = false := forall_mem_of_all (P := fun q => isBlank q = false) (by decide) q hq
  have hquotes : Literal.readQuotes? (enclose q s) = some s := by
    rcases List.mem_cons.1 hq with rfl | hq
    · rw [Literal.readQuotes?, unquote?_enclose, Option.some_or]
    · cases List.mem_singleton.1 hq
      rw [Literal.readQuotes?, unquote?_enclose]
      rfl
  simp only [Literal.read, trim_enclose hblank, hquotes]

/-- A token that a column can be compared with: a quoted text or a number. -/
def Operand : Token → Prop
  | .string _ | .quoted _ | .number _ => True
  | _ => False

theorem not_operand_wordToken (word : List Char) : ¬Operand (wordToken word) := by
  unfold wordToken
  split <;> exact id

theorem mem_quotes_of_operand {token : String → Token} {s : String} (hq : quotedToken? q = some token)
    (ht : Operand (token s)) : q ∈ ['\'', '"'] := by
  rw [quotedToken?] at hq
  split at hq
  · rename_i h
    exact List.mem_cons.2 (.inl h)
  split at hq
  · rename_i h
    exact List.mem_cons_of_mem _ (List.mem_singleton.2 h)
  -- a text between backticks is a name
  · split at hq <;> cases hq
    exact ht.elim

theorem read_ne_null_of_readToken {position : Nat} (ht : Operand t) (h : readToken position cs = .ok (t, chars)) :
    Literal.read chars ≠ .null := by
  cases cs with
  | nil =>
    cases h
    exact ht.elim
  | cons c cs =>
    rw [readToken] at h
    split at h
    · rw [(readNumber_eq_ok h).2]
      exact read_ne_null_of_inWritten (inWritten_of_mem_signedNumberChars _)
    split at h
    · cases h
      exact ht.elim
    split at h
    · rename_i token hquoted
      split at h <;> cases h
      rw [read_enclose (mem_quotes_of_operand hquoted ht)]
      rintro ⟨⟩
    split at h <;> cases h
    exact absurd ht (not_operand_wordToken _)

/-- **What a column is compared with is neither NULL nor a boolean.** -/
theorem Stands.read_ne_null {text s : List Char} {l : Lexeme} (h : Stands text l) (ht : Operand l.token)
    (hs : Parse.source text [l] = .ok s) : Literal.read s ≠ .null := by
  obtain ⟨chars, rest, position, hsource, hread⟩ := h
  cases hs.symm.trans hsource
  exact read_ne_null_of_readToken ht hread

end Scan

end TableStore
