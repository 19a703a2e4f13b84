import TableStore.Proofs.Tails

/-!
# Operands

- an operand is a text that is read as a number, or a quoted text with blanks around it (`IsOperand`);
- the numbers of literals are those of the scanner, but for a plus sign at the front: the scanner makes a token of its
  own of it (`Scan.number_of_read`, `IsOperand.reads`);
- a text is scanned part by part (`Scan.Scanned`), so an operand is scanned into one token, or into a plus sign and a
  number, which together stand at the operand (`Operands`, `Scan.scanned_operand`);
- rows take every operand as what it is read as, and a condition takes every operand but those with a plus sign
  (`operands_are_read_alike`).
-/

namespace TableStore

open Text

/-! ## Numbers of literals -/

namespace Scan

variable {c : Char} {cs ds chars : List Char} {n : Numeral}

theorem numberChars_allDigits (h : cs.all isDigit) (pointed : Bool) : numberChars pointed cs = cs := by
  have hdigits := numberChars_digits pointed [] h
  rwa [List.append_nil, numberChars, List.append_nil] at hdigits

/-- The exponent of a literal is one of the scanner. -/
theorem numberChars_of_readExponent {e : Option (Bool × List Char)} (h : Numeral.readExponent? cs = some e)
    (pointed : Bool) : numberChars pointed cs = cs := by
  cases cs with
  | nil => rfl
  | cons c cs =>
    simp only [Numeral.readExponent?] at h
    split at h <;> cases h
    rename_i hc
    simp only [Bool.and_eq_true, Bool.not_eq_true', List.isEmpty_eq_false_iff] at hc
    obtain ⟨⟨hmark, hne⟩, hdigits⟩ := hc
    have hplain : isDigit c = false ∧ (c == '.') = false := by
      simp only [Bool.or_eq_true, beq_iff_eq] at hmark
      rcases hmark with rfl | rfl <;> decide
    -- a digit comes next, or a sign and a digit
    have hself := numberChars_allDigits hdigits pointed
    obtain ⟨d, ds, hds⟩ := List.exists_cons_of_ne_nil hne
    have hd : isDigit d := List.all_eq_true.1 hdigits d (by rw [hds]; exact List.mem_cons_self)
    have hsign : cs = d :: ds ∨ ∃ s, cs = s :: d :: ds ∧ isSign s ∧ isDigit s = false := by
      unfold Numeral.readSign at hds
      split at hds
      · exact .inr ⟨'-', congrArg _ hds, by decide, by decide⟩
      · exact .inr ⟨'+', congrArg _ hds, by decide, by decide⟩
      · exact .inl hds
    rw [hds] at hself
    rcases hsign with rfl | ⟨s, rfl, hs, hs'⟩
    · simp [numberChars, hplain, isExponentMark, hmark, hd, hself]
    · simp [numberChars, hplain, isExponentMark, hmark, hs', hs, startsWithDigit, hd, hself]

/-- What a number starts with after its sign: a digit, or a point before one. -/
def FirstOfNumber (cs : List Char) : Prop := ∃ c ds, cs = c :: ds ∧ (isDigit c ∨ c = '.' ∧ startsWithDigit ds)

theorem firstOfNumber_digits (hcs : cs.all isDigit) (hne : cs ≠ []) (ds : List Char) : FirstOfNumber (cs ++ ds) := by
  obtain ⟨c, cs, rfl⟩ := List.exists_cons_of_ne_nil hne
  exact ⟨c, cs ++ ds, rfl, .inl (List.all_eq_true.1 hcs c List.mem_cons_self)⟩

theorem startsWithDigit_digits (hcs : cs.all isDigit) (hne : cs ≠ []) (ds : List Char) :
    startsWithDigit (cs ++ ds) := by
  obtain ⟨c, cs, rfl⟩ := List.exists_cons_of_ne_nil hne
  exact List.all_eq_true.1 hcs c List.mem_cons_self

/-- Without its sign, a number of a literal is a number of the scanner. -/
theorem unsigned_of_read (h : Numeral.read? cs = some n) :
    numberChars false (Numeral.readSign cs).2 = (Numeral.readSign cs).2 ∧ FirstOfNumber (Numeral.readSign cs).2 := by
  simp only [Numeral.read?] at h
  generalize (Numeral.readSign cs).2 = cs at h ⊢
  have hcs := List.takeWhile_append_dropWhile (p := isDigit) (l := cs)
  have hwhole : (cs.takeWhile isDigit).all isDigit := List.all_takeWhile
  generalize cs.takeWhile isDigit = whole at h hcs hwhole
  generalize cs.dropWhile isDigit = rest at h hcs
  subst hcs
  rw [numberChars_digits false rest hwhole]
  split at h
  -- a point with digits before it or after it
  · rename_i ds
    split at h
    · cases h
    rename_i hsome
    obtain ⟨e, he, -⟩ := Option.map_eq_some_iff.1 h
    have hds := List.takeWhile_append_dropWhile (p := isDigit) (l := ds)
    have hfraction : (ds.takeWhile isDigit).all isDigit := List.all_takeWhile
    generalize ds.takeWhile isDigit = fraction at hds hfraction hsome
    generalize ds.dropWhile isDigit = exponent at hds he
    subst hds
    rw [numberChars_point, numberChars_digits true exponent hfraction, numberChars_of_readExponent he]
    refine ⟨rfl, ?_⟩
    by_cases hne : whole = []
    · subst hne
      have hdigits : fraction ≠ [] := by simpa using hsome
      exact ⟨'.', fraction ++ exponent, rfl, .inr ⟨rfl, startsWithDigit_digits hfraction hdigits exponent⟩⟩
    · exact firstOfNumber_digits hwhole hne _
  -- digits without a point
  · split at h
    · cases h
    rename_i hsome
    obtain ⟨e, he, -⟩ := Option.map_eq_some_iff.1 h
    rw [numberChars_of_readExponent he]
    exact ⟨rfl, firstOfNumber_digits hwhole (by simpa using hsome) _⟩

theorem FirstOfNumber.starts (h : FirstOfNumber cs) : startsNumber cs ∧ startsNumber ('-' :: cs) ∧
    cs.head? ≠ some '-' ∧ cs.head? ≠ some '+' := by
  obtain ⟨c, ds, rfl, hc | ⟨rfl, hd⟩⟩ := h
  · have hne : c ≠ '-' ∧ c ≠ '+' := forall_digit (P := fun c => c ≠ '-' ∧ c ≠ '+') (by decide) hc
    exact ⟨startsNumber_of_isDigit hc ds, by simp [startsNumber, hc], by simpa using hne.1, by simpa using hne.2⟩
  · cases ds with
    | nil => cases hd
    | cons d ds => exact ⟨hd, rfl, by simp, by simp⟩

theorem readSign_of_ne (hminus : cs.head? ≠ some '-') (hplus : cs.head? ≠ some '+') :
    Numeral.readSign cs = (false, cs) := by
  unfold Numeral.readSign
  split
  · exact absurd rfl hminus
  · exact absurd rfl hplus
  · rfl

/-- A plus sign does not change a number. -/
theorem read?_plus (hminus : cs.head? ≠ some '-') (hplus : cs.head? ≠ some '+') :
    Numeral.read? ('+' :: cs) = Numeral.read? cs := by
  have hsign : Numeral.readSign ('+' :: cs) = (false, cs) := rfl
  simp only [Numeral.read?, hsign, readSign_of_ne hminus hplus]

/-- How the scanner takes a number of a literal: as a whole, or all but the plus sign that it starts with. -/
theorem number_of_read (h : Numeral.read? cs = some n) :
    (cs.head? ≠ some '+' ∧ startsNumber cs ∧ signedNumberChars cs = cs) ∨
    ∃ ds, cs = '+' :: ds ∧ startsNumber ds ∧ signedNumberChars ds = ds ∧ Numeral.read? ds = some n := by
  obtain ⟨hself, hfirst⟩ := unsigned_of_read h
  obtain ⟨hstart, hsigned, hminus, hplus⟩ := hfirst.starts
  by_cases hm : cs.head? = some '-'
  · obtain ⟨ds, rfl⟩ := List.head?_eq_some_iff.1 hm
    exact .inl ⟨by simp, hsigned, congrArg ('-' :: ·) hself⟩
  by_cases hp : cs.head? = some '+'
  · obtain ⟨ds, rfl⟩ := List.head?_eq_some_iff.1 hp
    exact .inr ⟨ds, rfl, hstart, (signedNumberChars_of_ne hminus).trans hself, (read?_plus hminus hplus).symm.trans h⟩
  · rw [readSign_of_ne hm hp] at hself hstart
    exact .inl ⟨hp, hstart, (signedNumberChars_of_ne hm).trans hself⟩

end Scan

/-! ## Operands -/

/-- A text that a column can be compared with: one that is read as a number, or a quoted text with blanks around it. -/
def IsOperand (l : List Char) : Prop := (Literal.read l).IsNumber ∨ ∃ q ∈ ['\'', '"'], ∃ s, trim l = enclose q s

namespace Scan

variable {l front rest cs ds : List Char} {ls ls' : List Lexeme} {t : Token} {n : Numeral}

theorem exists_of_isNumber (h : (Literal.read l).IsNumber) : ∃ n, Numeral.read? (trim l) = some n := by
  rw [Literal.read] at h
  split at h
  · exact h.elim
  split at h
  · exact h.elim
  cases hn : Numeral.read? (trim l) with
  | some n => exact ⟨n, rfl⟩
  | none =>
    rw [Literal.readNumber?, hn] at h
    exact h.elim

theorem reads_of_number (hstart : startsNumber cs) (hself : signedNumberChars cs = cs) (h : Numeral.read? cs = some n) :
    Reads cs (.number (String.ofList cs)) cs :=
  .number hstart hself.symm (by rw [Literal.readNumber?, h]; rfl)

/-- **An operand is one token of the scanner, or a plus sign and one token.** -/
theorem reads_of_operand (h : IsOperand l) :
    (∃ t, Operand t ∧ Reads (trim l) t (trim l) ∧ (trim l).head? ≠ some '+') ∨
    ∃ ds t, trim l = '+' :: ds ∧ Operand t ∧ Reads ds t ds := by
  rcases h with h | ⟨q, hq, s, hs⟩
  · obtain ⟨n, hn⟩ := exists_of_isNumber h
    rcases number_of_read hn with ⟨hplus, hstart, hself⟩ | ⟨ds, hds, hstart, hself, hread⟩
    · exact .inl ⟨.number _, trivial, reads_of_number hstart hself hn, hplus⟩
    · exact .inr ⟨ds, .number _, hds, trivial, reads_of_number hstart hself hread⟩
  · rw [hs]
    simp only [List.mem_cons, List.not_mem_nil, or_false] at hq
    rcases hq with rfl | rfl
    · exact .inl ⟨.string (String.ofList s), trivial, .quoted rfl s, by simp [enclose]⟩
    · exact .inl ⟨.quoted (String.ofList s), trivial, .quoted rfl s, by simp [enclose]⟩

/-! ## Texts that are scanned part by part -/

/-- What stands between a front and a rest is scanned into tokens. -/
def Scanned (front cs rest : List Char) (ls : List Lexeme) : Prop :=
  scanAt (byteLength front) (cs ++ rest) = (scanAt (byteLength (front ++ cs)) rest).map (ls ++ ·)

theorem Scanned.append (h : Scanned front cs (ds ++ rest) ls) (h' : Scanned (front ++ cs) ds rest ls') :
    Scanned front (cs ++ ds) rest (ls ++ ls') := by
  unfold Scanned at h h' ⊢
  rw [List.append_assoc, h, h', ← List.append_assoc]
  cases scanAt (byteLength (front ++ cs ++ ds)) rest with
  | error e => rfl
  | ok later => simp only [Except.map, List.append_assoc]

theorem scanned_layout (h : Layout cs) (front rest : List Char) : Scanned front cs rest [] := by
  rw [Scanned, scanAt_layout h, byteLength_append]
  cases scanAt (byteLength front + byteLength cs) rest <;> rfl

theorem scanned_token (h : (Piece.token t cs).Fits rest) (front : List Char) :
    Scanned front cs rest [⟨t, byteLength front, byteLength (front ++ cs)⟩] := by
  rw [Scanned, scanAt_token h, byteLength_append]
  rfl

theorem scanned_textOf {ps : List Piece} (h : Piece.FitAll ps rest) (front : List Char) :
    Scanned front (Piece.textOf ps) rest (Piece.lexemes (byteLength front) ps) := by
  rw [Scanned, scanAt_textOf h, byteLength_append]

theorem Scanned.scan (h : Scanned [] cs [] ls) :
    TableStore.scan cs = .ok (ls ++ [⟨.finish, byteLength cs, byteLength cs⟩]) := by
  rw [Scanned, List.append_nil, List.nil_append, scanAt_nil] at h
  exact h

end Scan

/-! ## Tokens of operands -/

/-- The tokens of an operand in a text: they stand at the operand, and there is one, or a plus sign and one more. -/
structure Operands (text l : List Char) (ls : List Lexeme) : Prop where
  source : Parse.source text ls = .ok (trim l)
  tokens : (∃ a, ls = [a] ∧ Scan.Operand a.token ∧ (trim l).head? ≠ some '+') ∨
    ∃ a b, ls = [a, b] ∧ a.token = .mark .plus ∧ Scan.Operand b.token ∧ (trim l).head? = some '+'

namespace Scan

variable {l front rest cs ds : List Char} {ls ls' : List Lexeme} {t : Token}

/-- Marks of a single character that start nothing longer. -/
theorem fits_character {m : Mark} {c : Char}
    (h : (m, c) ∈ [(.plus, '+'), (.eq, '='), (.comma, ','), (.semicolon, ';'), (.openParen, '('), (.closeParen, ')')])
    (rest : List Char) : (Piece.token (.mark m) [c]).Fits rest := by
  simp only [List.mem_cons, List.not_mem_nil, or_false, Prod.mk.injEq] at h
  rcases h with ⟨rfl, rfl⟩ | ⟨rfl, rfl⟩ | ⟨rfl, rfl⟩ | ⟨rfl, rfl⟩ | ⟨rfl, rfl⟩ | ⟨rfl, rfl⟩ <;>
    exact ⟨(fun h => nomatch h), List.cons_ne_nil _ _, gap_eq_nil (by decide) (by decide) rest, fun _ => rfl⟩

theorem breaks_append (h : cs.all isBlank) (hrest : Breaks rest) : Breaks (cs ++ rest) := by
  cases cs with
  | nil => exact hrest
  | cons c cs => exact breaks_blank (List.all_eq_true.1 h c List.mem_cons_self) _

/-- Without the blanks around it, an operand is scanned into its tokens. -/
theorem scanned_trim (h : IsOperand l) (hrest : Breaks rest) (front : List Char) :
    ∃ ls, Scanned front (trim l) rest ls ∧ Operands (front ++ (trim l ++ rest)) l ls := by
  have hslice := slice?_middle front (trim l) rest
  rcases reads_of_operand h with ⟨t, ht, hread, hplus⟩ | ⟨ds, t, hds, ht, hread⟩
  · have hfits := hread.fits_of_breaks (fun he => by rw [he] at ht; exact ht) hrest
    refine ⟨_, scanned_token hfits front, ?_, .inl ⟨_, rfl, ht, hplus⟩⟩
    rw [Parse.source, List.getLastD_nil, byteLength_append, hslice]
  · have hfits := hread.fits_of_breaks (fun he => by rw [he] at ht; exact ht) hrest
    have hsign := scanned_token (fits_character (m := .plus) (c := '+') (by decide) (ds ++ rest)) front
    have hscanned := hsign.append (scanned_token hfits (front ++ ['+']))
    have hall : front ++ ['+'] ++ ds = front ++ trim l := by rw [hds, List.append_assoc, List.singleton_append]
    rw [List.singleton_append, ← hds, hall] at hscanned
    refine ⟨_, hscanned, ?_, .inr ⟨_, _, rfl, rfl, ht, by rw [hds]; rfl⟩⟩
    rw [List.singleton_append, Parse.source, List.getLastD_cons, List.getLastD_nil, byteLength_append front (trim l),
      hslice]

/-- **An operand is scanned into its tokens** before everything that breaks them off. -/
theorem scanned_operand (h : IsOperand l) (hrest : Breaks rest) (front : List Char) :
    ∃ ls, Scanned front l rest ls ∧ Operands (front ++ (l ++ rest)) l ls := by
  obtain ⟨before, after, hl, hbefore, hafter⟩ := exists_of_trim l
  obtain ⟨ls, hscanned, hls⟩ := scanned_trim h (breaks_append hafter hrest) (front ++ before)
  have hlater := hscanned.append (scanned_layout (layout_of_blanks hafter) (front ++ before ++ trim l) rest)
  have hall := (scanned_layout (layout_of_blanks hbefore) front (trim l ++ after ++ rest)).append hlater
  rw [← hl, List.nil_append, List.append_nil] at hall
  refine ⟨ls, hall, ?_⟩
  have htext : front ++ (l ++ rest) = front ++ before ++ (trim l ++ (after ++ rest)) := by
    conv_lhs => rw [hl]
    simp only [List.append_assoc]
  rw [htext]
  exact hls

/-! ## Rows of operands -/

/-- Items with commas between them are scanned one after another. -/
theorem scanned_listed {α : Type} {spell : α → List Char} {R : List Char → α → List Lexeme → Prop}
    (hrest : Breaks rest) :
    ∀ {as : List α} (front : List Char), as ≠ [] → (∀ a ∈ as, ∀ rest, Breaks rest → ∀ front,
      ∃ ls, Scanned front (spell a) rest ls ∧ R (front ++ (spell a ++ rest)) a ls) →
    ∃ ls, Scanned front (listed (as.map spell)) rest ls ∧
      Parse.Joined (R (front ++ (listed (as.map spell) ++ rest))) as ls
  | [a], front, _, hitem => by
    obtain ⟨ls, hscanned, hls⟩ := hitem a List.mem_cons_self rest hrest front
    exact ⟨ls, hscanned, .last hls⟩
  | a :: b :: as, front, _, hitem => by
    obtain ⟨ha, hlater⟩ := List.forall_mem_cons.1 hitem
    generalize hlist : listed ((b :: as).map spell) = later
    have htext : listed ((a :: b :: as).map spell) = spell a ++ ',' :: ' ' :: later := by rw [← hlist]; rfl
    have hbreaks : Breaks (',' :: ' ' :: later ++ rest) := breaks_mark (by decide) _
    obtain ⟨ls, hscanned, hls⟩ := ha _ hbreaks front
    obtain ⟨ls', hscanned', hls'⟩ := scanned_listed hrest (front ++ spell a ++ [','] ++ [' ']) (List.cons_ne_nil b as)
      hlater
    rw [hlist] at hscanned' hls'
    have hcomma := scanned_token (fits_character (m := .comma) (c := ',') (by decide) (' ' :: later ++ rest))
      (front ++ spell a)
    have hblank := scanned_layout (show Layout [' '] from layout_of_blanks (by decide)) (front ++ spell a ++ [','])
      (later ++ rest)
    have hall := hscanned.append (hcomma.append (hblank.append hscanned'))
    rw [htext]
    have hwhole : front ++ spell a ++ [','] ++ [' '] ++ (later ++ rest) =
        front ++ (spell a ++ (',' :: ' ' :: later ++ rest)) := by
      simp only [List.append_assoc, List.cons_append, List.nil_append]
    rw [hwhole] at hls'
    rw [List.append_assoc]
    exact ⟨_, hall, .more hls hls'⟩

end Scan

/-- The tokens of a row of operands in a text, with its parentheses. -/
def OperandRow (text : List Char) (r : List (List Char)) (ls : List Lexeme) : Prop :=
  ∃ start stop start' stop' ls', ls = ⟨.mark .openParen, start, stop⟩ :: (ls' ++ [⟨.mark .closeParen, start', stop'⟩]) ∧
    Parse.Joined (Operands text) r ls'

namespace Scan

theorem scanned_row {r : List (List Char)} (hne : r ≠ []) (h : ∀ l ∈ r, IsOperand l) (rest front : List Char) :
    ∃ ls, Scanned front (inParens r) rest ls ∧ OperandRow (front ++ (inParens r ++ rest)) r ls := by
  have hbreaks : Breaks ([')'] ++ rest) := breaks_mark (by decide) rest
  have hitem : ∀ l ∈ r, ∀ rest, Breaks rest → ∀ front,
      ∃ ls, Scanned front (id l) rest ls ∧ Operands (front ++ (id l ++ rest)) l ls :=
    fun l hl rest hrest front => scanned_operand (h l hl) hrest front
  obtain ⟨ls, hscanned, hls⟩ := scanned_listed hbreaks (front ++ ['(']) hne hitem
  rw [List.map_id] at hscanned hls
  have hopen := scanned_token (fits_character (m := .openParen) (c := '(') (by decide) (listed r ++ [')'] ++ rest))
    front
  have hclose := scanned_token (fits_character (m := .closeParen) (c := ')') (by decide) rest)
    (front ++ ['('] ++ listed r)
  refine ⟨_, hopen.append (hscanned.append hclose), _, _, _, _, ls, rfl, ?_⟩
  have hwhole : front ++ ['('] ++ (listed r ++ ([')'] ++ rest)) = front ++ (inParens r ++ rest) := by
    simp only [inParens, List.append_assoc, List.cons_append, List.nil_append]
  rw [← hwhole]
  exact hls

end Scan

namespace Parse

open Scan

variable {text l : List Char} {r : List (List Char)} {ls rest : List Lexeme} {x : Lexeme}

theorem plain_of_operand {t : Token} (h : Operand t) :
    Plain [.mark .comma, .mark .closeParen, .mark .semicolon] t := by
  cases t with
  | string | quoted | number => simp [Plain]
  | _ => exact h.elim

/-- **A row takes an operand as what it is read as.** -/
theorem value_of_operands (h : Operands text l ls) (rest : List Lexeme)
    (hx : x.token ∈ [.mark .comma, .mark .closeParen, .mark .semicolon]) :
    value text (ls ++ x :: rest) = .ok (Literal.read l, x :: rest) := by
  have hplain : ls ≠ [] ∧ ∀ a ∈ ls, Plain [.mark .comma, .mark .closeParen, .mark .semicolon] a.token := by
    rcases h.tokens with ⟨a, rfl, ha, -⟩ | ⟨a, b, rfl, ha, hb, -⟩
    · exact ⟨List.cons_ne_nil _ _, List.forall_mem_singleton.2 (plain_of_operand ha)⟩
    · refine ⟨List.cons_ne_nil _ _, List.forall_mem_cons.2 ⟨?_, List.forall_mem_singleton.2 (plain_of_operand hb)⟩⟩
      rw [ha]
      simp [Plain]
  simp only [value, item_append text .value (.inr hx) rest hplain.1 hplain.2, h.source, Literal.read_trim, bind,
    Except.bind]

theorem row_of_operandRow (h : OperandRow text r ls) (x : Lexeme) (rest : List Lexeme) :
    row text (ls ++ x :: rest) = .ok (r.map Literal.read, x :: rest) := by
  obtain ⟨start, stop, start', stop', ls, rfl, hjoined⟩ := h
  have hvalues : commaList (value text) (ls ++ ⟨.mark .closeParen, start', stop'⟩ :: x :: rest) =
      .ok (r.map Literal.read, ⟨.mark .closeParen, start', stop'⟩ :: x :: rest) :=
    separated_of_joined hjoined (fun he => nomatch he)
      (fun _ _ x rest h hx => value_of_operands h rest (by rcases hx with hx | hx <;> simp [hx])) (Nat.le_refl _)
  simp only [row, List.cons_append, expect_self, List.append_assoc, List.nil_append, hvalues, bind, Except.bind]

/-- **A condition takes an operand as what it is read as, unless it starts with a plus sign.** -/
theorem condition?_of_operands (h : Operands text l ls) (c : String) (s e s' e' : Nat) :
    condition? text (⟨.name c, s, e⟩ :: ⟨.mark .eq, s', e'⟩ :: ls) =
      .ok (if (trim l).head? = some '+' then none else some ⟨c, Literal.read l⟩) := by
  rcases h.tokens with ⟨⟨t, start, stop⟩, rfl, ht, hplus⟩ | ⟨a, b, rfl, -, -, hplus⟩
  · have hsource := h.source
    rw [if_neg hplus]
    cases t with
    | string | quoted | number =>
      simp only [condition?, hsource, Literal.read_trim, bind, Except.bind]
    | _ => exact ht.elim
  · rw [if_pos hplus]
    exact condition?_of_length (by simp) text

end Parse

/-! ## Conditions and rows -/

/-- A comparison of a column with an operand, laid out in any way. -/
def comparison (c : String) (before after : Separator) (l : List Char) : List Char :=
  c.toList ++ (before.chars ++ '=' :: (after.chars ++ l))

/-- The pieces of an insertion up to its rows. -/
def insertFront (t : String) : List Piece :=
  .keyword .insert :: .blank :: .keyword .into :: .blank :: .name t :: .blank :: [.keyword .values]

namespace Scan

open Piece

theorem scanned_comparison {c : String} (hc : isBareName c.toList) (before after : Separator) {l rest : List Char}
    (hl : IsOperand l) (hrest : Breaks rest) (front : List Char) : ∃ s e s' e' ls,
      Scanned front (comparison c before after l) rest (⟨.name c, s, e⟩ :: ⟨.mark .eq, s', e'⟩ :: ls) ∧
      Operands (front ++ (comparison c before after l ++ rest)) l ls := by
  have hbreaks : Breaks (before.chars ++ (['='] ++ (after.chars ++ l)) ++ rest) := by
    rw [List.append_assoc]
    exact before.breaks _
  have hname := scanned_token (fits_bareName hc hbreaks) front
  have hbefore := scanned_layout before.layout (front ++ c.toList) (['='] ++ (after.chars ++ l) ++ rest)
  have heq := scanned_token (fits_character (m := .eq) (c := '=') (by decide) (after.chars ++ l ++ rest))
    (front ++ c.toList ++ before.chars)
  have hafter := scanned_layout after.layout (front ++ c.toList ++ before.chars ++ ['=']) (l ++ rest)
  obtain ⟨ls, hoperand, hls⟩ := scanned_operand hl hrest (front ++ c.toList ++ before.chars ++ ['='] ++ after.chars)
  refine ⟨_, _, _, _, ls, hname.append (hbefore.append (heq.append (hafter.append hoperand))), ?_⟩
  have htext : front ++ (comparison c before after l ++ rest) =
      front ++ c.toList ++ before.chars ++ ['='] ++ after.chars ++ (l ++ rest) := by
    simp only [comparison, List.append_assoc, List.cons_append, List.nil_append]
  rw [htext]
  exact hls

/-- An insertion of rows of operands is scanned row by row. -/
theorem scanned_insertion (t : String) {rows : List (List (List Char))} (hne : rows ≠ [])
    (h : ∀ r ∈ rows, r ≠ [] ∧ ∀ l ∈ r, IsOperand l) : ∃ ls,
      Scanned [] (textOf (insertFront t ++ [blank]) ++ listed (rows.map inParens)) []
        (Piece.lexemes 0 (insertFront t ++ [blank]) ++ ls) ∧
      Parse.Joined (OperandRow (textOf (insertFront t ++ [blank]) ++ listed (rows.map inParens))) rows ls := by
  have hfirm : Firm (insertFront t) := Statement.firm_keyword .insert (Statement.firm_keyword .into
    ((Statement.firm_name t).append_blank (firm_singleton (fits_keyword .values))))
  have hrow : ∀ r ∈ rows, ∀ rest, Breaks rest → ∀ front,
      ∃ ls, Scanned front (inParens r) rest ls ∧ OperandRow (front ++ (inParens r ++ rest)) r ls :=
    fun r hr rest _ front => scanned_row (h r hr).1 (h r hr).2 rest front
  obtain ⟨ls, hscanned, hls⟩ := scanned_listed breaks_nil (textOf (insertFront t ++ [blank])) hne hrow
  rw [List.append_nil] at hls
  exact ⟨ls, (scanned_textOf (fitAll_front hfirm _) []).append hscanned, hls⟩

end Scan

theorem Condition.parse?_comparison {c : String} (hc : isBareName c.toList) (before after : Separator) {l : List Char}
    (hl : IsOperand l) : parse? (String.ofList (comparison c before after l)) =
      if (trim l).head? = some '+' then none else some ⟨c, Literal.read l⟩ := by
  obtain ⟨s, e, s', e', ls, hscanned, hls⟩ := Scan.scanned_comparison hc before after hl Scan.breaks_nil []
  rw [List.append_nil, List.nil_append] at hls
  have hscan := hscanned.scan
  simp only [parse?, String.toList_ofList, hscan, List.dropLast_concat, Parse.condition?_of_operands hls]

theorem Statement.parse_insertion (t : String) {rows : List (List (List Char))} (hne : rows ≠ [])
    (h : ∀ r ∈ rows, r ≠ [] ∧ ∀ l ∈ r, IsOperand l) :
    parse (String.ofList ("INSERT INTO ".toList ++ writeName t ++ " VALUES ".toList ++ listed (rows.map inParens))) =
      .ok (.insert t none (rows.map (·.map Literal.read))) := by
  have htext : "INSERT INTO ".toList ++ writeName t ++ " VALUES ".toList =
      Piece.textOf (insertFront t ++ [.blank]) := by
    obtain ⟨-, -, -, -, hvalues, -, -, hinsert⟩ := spaced_keywords
    rw [hvalues, hinsert]
    simp only [insertFront, Piece.textOf_append, Piece.textOf_cons, Piece.textOf_nil, Piece.text_keyword,
      Piece.text_blank, Piece.text_name, List.append_assoc, List.append_nil]
  obtain ⟨ls, hscanned, hls⟩ := Scan.scanned_insertion t hne h
  rw [htext]
  have hscan := hscanned.scan
  generalize Piece.textOf (insertFront t ++ [.blank]) ++ listed (rows.map inParens) = text at hscan hls ⊢
  have hrows : Parse.commaList (Parse.row text) (ls ++ [⟨.finish, byteLength text, byteLength text⟩]) =
      .ok (rows.map (·.map Literal.read), [⟨.finish, byteLength text, byteLength text⟩]) :=
    Parse.separated_of_joined hls (fun he => nomatch he) (fun _ _ x rest hr _ => Parse.row_of_operandRow hr x rest)
      (Nat.le_refl _)
  simp only [parse, String.toList_ofList, hscan]
  simp [insertFront, Piece.lexemes, Piece.keyword, Piece.name, Parse.statement, Parse.insert, Parse.targetColumns,
    Parse.endOfStatement, hrows, bind, Except.bind]

/-- **Conditions and rows read operands alike, but for a plus sign.** Every operand is stored by an insertion, wherever
it stands in its rows, as the value that the text is read as. A condition compares a column with the same value unless
the operand starts with a plus sign; with one, it is passed over. -/
theorem operands_are_read_alike (c : String) (hc : isBareName c.toList) (before after : Separator) :
    (∀ l, IsOperand l → Condition.parse? (String.ofList (comparison c before after l)) =
      if (trim l).head? = some '+' then none else some ⟨c, Literal.read l⟩) ∧
    ∀ (t : String) (rows : List (List (List Char))), rows ≠ [] → (∀ r ∈ rows, r ≠ [] ∧ ∀ l ∈ r, IsOperand l) →
      Statement.parse (String.ofList
        ("INSERT INTO ".toList ++ writeName t ++ " VALUES ".toList ++ listed (rows.map inParens))) =
          .ok (.insert t none (rows.map (·.map Literal.read))) :=
  ⟨fun _ hl => Condition.parse?_comparison hc before after hl, fun t _ hne h => Statement.parse_insertion t hne h⟩

/-- A single space. -/
def Separator.space : Separator := ⟨[' '], ' ', [], rfl, by decide, .nil⟩

/-- With its plus sign, 5 is inserted, but no condition; a quoted text and a real without a whole part are both. -/
theorem plus_sign_is_no_condition :
    let texts := [" +5".toList, "-.5e1 ".toList, "\t\"it's\"".toList]
    comparison "c" .space .space "+5".toList = "c = +5".toList ∧
    Condition.parse? (String.ofList (comparison "c" .space .space "+5".toList)) = none ∧
    Condition.parse? (String.ofList (comparison "c" .space .space "-.5e1 ".toList)) =
      some ⟨"c", .real ⟨0xC014000000000000⟩⟩ ∧
    Condition.parse? (String.ofList (comparison "c" .space .space "\t\"it's\"".toList)) = some ⟨"c", .text "it's"⟩ ∧
    Statement.parse (String.ofList
      ("INSERT INTO ".toList ++ writeName "t" ++ " VALUES ".toList ++ listed ([texts].map inParens))) =
        .ok (.insert "t" none [[.integer 5, .real ⟨0xC014000000000000⟩, .text "it's"]]) := by
  intro texts
  have hc : isBareName "c".toList := by decide +kernel
  have hfive : Literal.read "+5".toList = .integer 5 := by decide +kernel
  have hspaced : Literal.read " +5".toList = .integer 5 := by decide +kernel
  have hreal : Literal.read "-.5e1 ".toList = .real ⟨0xC014000000000000⟩ := by decide +kernel
  have htext : Literal.read "\t\"it's\"".toList = .text "it's" := by decide +kernel
  have hnumber : ∀ {l v}, Literal.read l = v → v.IsNumber → IsOperand l := fun hl hv => .inl (hl ▸ hv)
  have hquoted : IsOperand "\t\"it's\"".toList := .inr ⟨'"', by decide, "it's".toList, by decide +kernel⟩
  obtain ⟨hcondition, hinsert⟩ := operands_are_read_alike "c" hc .space .space
  refine ⟨by decide +kernel, ?_, ?_, ?_, ?_⟩
  · have hnone := hcondition _ (hnumber hfive trivial)
    rwa [if_pos (by decide +kernel)] at hnone
  · have hsome := hcondition _ (hnumber hreal trivial)
    rwa [if_neg (by decide +kernel), hreal] at hsome
  · have hsome := hcondition _ hquoted
    rwa [if_neg (by decide +kernel), htext] at hsome
  · have hrows : ∀ r ∈ [texts], r ≠ [] ∧ ∀ l ∈ r, IsOperand l := by
      simp only [texts, List.forall_mem_cons, List.not_mem_nil, false_implies, implies_true, and_true]
      exact ⟨List.cons_ne_nil _ _, hnumber hspaced trivial, hnumber hreal trivial, hquoted⟩
    rw [hinsert "t" [texts] (List.cons_ne_nil _ _) hrows]
    simp only [texts, List.map_cons, List.map_nil, hspaced, hreal, htext]

end TableStore
