import TableStore.Proofs.Literal
import TableStore.Statement.Parse
import TableStore.Statement.Print

/-!
# Written tokens

- a text is written in `Piece`s: single blanks, and tokens with their characters; a token `Fits` before a text when it
  is what the scanner reads there, with these characters;
- bare and quoted names, literals, keywords and marks fit before the end of the text, a blank, a comma, a
  semicolon or a parenthesis (`Ends`);
- a text all of whose tokens fit is scanned into these tokens, each at its characters (`scan_textOf`).
-/

namespace TableStore

/-! ## First characters -/

namespace Text

/-- The characters below U+0080 that start numbers, marks, comments and quoted texts. -/
def specials : List Char := "0123456789-./<>=!+*(),;'\"`".toList

/-- No blank is of a kind of characters that has none below U+0080, and none in its table for the others. -/
theorem not_of_isBlank {ascii : Char → Bool} {ranges : List (Nat × Nat)}
    (hascii : ∀ n < 128, isBlank (Char.ofNat n) → ascii (Char.ofNat n) = false)
    (hranges : ∀ r ∈ blankRanges, ∀ n ∈ List.range' r.1 (r.2 + 1 - r.1), n < 0x80 ∨ inRanges ranges n = false)
    {c : Char} (h : isBlank c) : (if c.toNat < 0x80 then ascii c else inRanges ranges c.toNat) = false := by
  split
  · exact forall_ascii (P := fun c => isBlank c → ascii c = false) hascii ‹_› h
  · rename_i hc
    obtain ⟨r, hr, hn⟩ := List.any_eq_true.1 h
    simp only [Bool.and_eq_true, decide_eq_true_eq] at hn
    exact (hranges r hr c.toNat (List.mem_range'_1.2 (by omega))).resolve_left hc

/-- No blank stands in a word. -/
theorem inWord_of_isBlank {c : Char} (h : isBlank c) : inWord c = false := by
  have hletter : isLetter c = false := not_of_isBlank (by decide) (by decide +kernel) h
  have hnumeral : isNumeral c = false := not_of_isBlank (by decide) (by decide +kernel) h
  have hne : c ≠ '_' := by
    rintro rfl
    revert h
    decide
  simp [inWord, hletter, hnumeral, hne]

theorem isBlank_of_startsWord {c : Char} (h : startsWord c) : isBlank c = false := by
  by_contra hb
  rw [Bool.not_eq_false] at hb
  cases (inWord_of_startsWord h).symm.trans (inWord_of_isBlank hb)

/-- A word starts with no character that starts something else. -/
theorem notMem_specials {c : Char} (h : startsWord c) : c ∉ specials := by
  intro hc
  rw [forall_mem_of_all (P := fun c => startsWord c = false) (by decide) c hc] at h
  cases h

end Text

namespace Scan

open Text

/-- The rest of a text that no word, number or quoted text goes on with. -/
def Ends (rest : List Char) : Prop := ∀ c, rest.head? = some c → c ∈ [' ', ',', ';', '(', ')']

variable {c : Char} {cs rest : List Char}

theorem ends_nil : Ends [] := fun _ h => by cases h

theorem ends_cons (hc : c ∈ [' ', ',', ';', '(', ')']) (rest : List Char) : Ends (c :: rest) := fun d hd => by
  cases hd
  exact hc

theorem Ends.congr (h : Ends rest) (he : cs.head? = rest.head?) : Ends cs := fun c hc => h c (he ▸ hc)

/-- The rest of a text that no token goes on with: nothing, or one that starts with a blank, a comma, a semicolon or a
parenthesis. -/
def Breaks (rest : List Char) : Prop := ∀ c, rest.head? = some c → isBlank c ∨ c ∈ [',', ';', '(', ')']

theorem breaks_nil : Breaks [] := fun _ h => by cases h

theorem breaks_blank (hc : isBlank c) (rest : List Char) : Breaks (c :: rest) := fun d hd => by
  cases hd
  exact .inl hc

theorem breaks_mark (hc : c ∈ [',', ';', '(', ')']) (rest : List Char) : Breaks (c :: rest) := fun d hd => by
  cases hd
  exact .inr hc

theorem Ends.breaks (h : Ends rest) : Breaks rest := fun c hc => by
  rcases List.mem_cons.1 (h c hc) with rfl | hc
  · exact .inl (by decide)
  · exact .inr hc

/-- What a token breaks off at neither stands in a word nor makes a number, a mark or a quoted text longer. -/
theorem Breaks.head (h : Breaks (c :: rest)) : inWord c = false ∧ c ∉ ".-+/*=<>!'\"`".toList := by
  rcases h c rfl with hc | hc
  · refine ⟨inWord_of_isBlank hc, fun hmem => ?_⟩
    rw [forall_mem_of_all (P := fun c => isBlank c = false) (by decide) c hmem] at hc
    cases hc
  · exact forall_mem_of_all (P := fun c => inWord c = false ∧ c ∉ ".-+/*=<>!'\"`".toList) (by decide) c hc

theorem Breaks.stops (h : Breaks rest) : Json.Stops rest := by
  intro c hc
  obtain ⟨rest, rfl⟩ := List.head?_eq_some_iff.1 hc
  obtain ⟨hword, hmark⟩ := h.head
  have hdigit : isDigit c = false := by
    by_contra hd
    rw [Bool.not_eq_false] at hd
    rw [forall_digit (P := fun c => inWord c = true) (by decide) hd] at hword
    cases hword
  refine ⟨hdigit, ?_, ?_, ?_⟩ <;> rintro rfl
  · exact hmark (by decide)
  · exact absurd hword (by decide)
  · exact absurd hword (by decide)

theorem Breaks.any_startsWord (h : Breaks rest) : rest.head?.any startsWord = false := by
  cases rest with
  | nil => rfl
  | cons c rest =>
    by_contra hc
    rw [List.head?_cons, Option.any_some, Bool.not_eq_false] at hc
    exact absurd h.head.1 (by rw [inWord_of_startsWord hc]; decide)

theorem Breaks.takeWhile_inWord (h : Breaks rest) (hcs : cs.all inWord) : (cs ++ rest).takeWhile inWord = cs := by
  rw [List.takeWhile_append_of_pos fun c hc => List.all_eq_true.1 hcs c hc]
  cases rest with
  | nil => simp
  | cons c rest => rw [List.takeWhile_cons_of_neg (by simp [h.head.1]), List.append_nil]

theorem Breaks.head?_ne_quote (h : Breaks rest) {q : Char} (hq : q ∈ ['\'', '"', '`']) : rest.head? ≠ some q := by
  intro hhead
  obtain ⟨rest, rfl⟩ := List.head?_eq_some_iff.1 hhead
  exact h.head.2 (forall_mem_of_all (P := fun q => q ∈ ".-+/*=<>!'\"`".toList) (by decide) q hq)

/-! ## Single tokens -/

/-- No blank and no comment stands before a character that starts neither. -/
theorem gap_eq_nil (hc : c ≠ '-' ∧ c ≠ '/') (hb : isBlank c = false) (cs : List Char) : gap .blank (c :: cs) = [] := by
  unfold gap
  split <;> simp_all

theorem readMark?_eq_none (hc : c ∉ specials) (cs : List Char) : readMark? (c :: cs) = none := by
  unfold readMark?
  split
  case h_17 => rfl
  -- every other pattern starts with a character that is none of a word
  all_goals
    rename_i h
    cases h
    exact absurd (by decide) hc

theorem startsNumber_eq_false (hc : c ∉ specials) (cs : List Char) : startsNumber (c :: cs) = false := by
  have hd : isDigit c = false := by
    by_contra hd
    rw [Bool.not_eq_false] at hd
    exact hc (forall_digit (P := fun c => c ∈ specials) (by decide) hd)
  unfold startsNumber
  split
  · rename_i h
    cases h
    exact absurd (by decide) hc
  · rename_i h
    cases h
    exact absurd (by decide) hc
  · rename_i h
    cases h
    exact hd
  · rfl

/-! ### Words -/

/-- A word is read up to what ends it. -/
theorem readToken_word (hc : startsWord c) (hcs : cs.all inWord) (hr : Breaks rest) (position : Nat) :
    readToken position (c :: (cs ++ rest)) = .ok (wordToken (c :: cs), c :: cs) := by
  have hspecial := notMem_specials hc
  have hquote : quotedToken? c = none := by
    have hne : ∀ q ∈ specials, c ≠ q := fun q hq he => hspecial (he ▸ hq)
    rw [quotedToken?, if_neg (hne '\'' (by decide)), if_neg (hne '"' (by decide)), if_neg (hne '`' (by decide))]
  have hword : (c :: (cs ++ rest)).takeWhile inWord = c :: cs := by
    rw [← List.cons_append]
    exact hr.takeWhile_inWord (by rw [List.all_cons, inWord_of_startsWord hc, hcs]; rfl)
  rw [readToken, startsNumber_eq_false hspecial, readMark?_eq_none hspecial, hquote, hc, hword]
  rfl

theorem wordToken_ne_finish (word : List Char) : wordToken word ≠ .finish := by
  unfold wordToken
  split <;> exact fun h => by cases h

theorem gap_word (hc : startsWord c) (cs : List Char) : gap .blank (c :: cs) = [] := by
  have hne : ∀ q ∈ specials, c ≠ q := fun q hq he => notMem_specials hc (he ▸ hq)
  exact gap_eq_nil ⟨hne '-' (by decide), hne '/' (by decide)⟩ (isBlank_of_startsWord hc) cs

/-! ### Quoted texts -/

theorem mem_quotes_of_quotedToken {q : Char} {token : String → Token} (h : quotedToken? q = some token) :
    q ∈ ['\'', '"', '`'] ∧ ∀ s, token s ≠ .finish := by
  simp only [quotedToken?] at h
  split at h
  · cases h
    exact ⟨by simp [*], fun _ h => by cases h⟩
  split at h
  · cases h
    exact ⟨by simp [*], fun _ h => by cases h⟩
  split at h <;> cases h
  exact ⟨by simp [*], fun _ h => by cases h⟩

/-- A quote character starts a quoted text and nothing else. -/
theorem readToken_quote {q : Char} {token : String → Token} (hq : quotedToken? q = some token) (cs : List Char)
    (position : Nat) : readToken position (q :: cs) =
      match readQuoted q cs with
      | some (text, _) => .ok (token (String.ofList text), enclose q text)
      | none => .error (.unterminatedText position) := by
  have hstart : ∀ q ∈ ['\'', '"', '`'], startsNumber (q :: cs) = false ∧ readMark? (q :: cs) = none := by
    simp [startsNumber, readMark?, isDigit]
  obtain ⟨hnumber, hmark⟩ := hstart q (mem_quotes_of_quotedToken hq).1
  rw [readToken, hnumber, hmark, hq]
  rfl

/-- A text between quotes is read as a whole, unless another quote follows. -/
theorem readToken_enclose {q : Char} {token : String → Token} (hq : quotedToken? q = some token) (s : List Char)
    (hr : rest.head? ≠ some q) (position : Nat) :
    readToken position (enclose q s ++ rest) = .ok (token (String.ofList s), enclose q s) := by
  have hquoted : readQuoted q (double q s ++ [q] ++ rest) = some (s, rest) := by
    rw [List.append_assoc]
    exact readQuoted_double q s rest hr
  have htext : enclose q s ++ rest = q :: (double q s ++ [q] ++ rest) := rfl
  rw [htext, readToken_quote hq, hquoted]

theorem gap_quote {q : Char} {token : String → Token} (hq : quotedToken? q = some token) (cs : List Char) :
    gap .blank (q :: cs) = [] := by
  have hplain : (q ≠ '-' ∧ q ≠ '/') ∧ isBlank q = false :=
    forall_mem_of_all (P := fun q => (q ≠ '-' ∧ q ≠ '/') ∧ isBlank q = false) (by decide) q
      (mem_quotes_of_quotedToken hq).1
  exact gap_eq_nil hplain.1 hplain.2 _

/-! ### Numbers -/

theorem numberChars_of_stops (hr : Json.Stops rest) (pointed : Bool) : numberChars pointed rest = [] := by
  match rest with
  | [] => rfl
  | [c] =>
    obtain ⟨hd, hp, -⟩ := hr c rfl
    simp [numberChars, hd, hp]
  | c :: d :: cs =>
    obtain ⟨hd, hp, he, hE⟩ := hr c rfl
    simp [numberChars, isExponentMark, hd, hp, he, hE]

theorem numberChars_digits (pointed : Bool) (rest : List Char) :
    ∀ {ds : List Char}, ds.all isDigit → numberChars pointed (ds ++ rest) = ds ++ numberChars pointed rest
  | [], _ => rfl
  | d :: ds, hd => by
    rw [List.all_cons, Bool.and_eq_true] at hd
    have ih := numberChars_digits pointed rest hd.2
    rw [List.cons_append, List.cons_append, ← ih]
    cases hds : ds ++ rest with
    | nil => simp [numberChars, hd.1]
    | cons c cs => simp [numberChars, hd.1]

theorem numberChars_exponent {e : Option (Bool × List Char)}
    (he : ∀ down ds, e = some (down, ds) → ds.all isDigit ∧ ds ≠ []) (hr : Json.Stops rest) (pointed : Bool) :
    numberChars pointed (Json.Parts.exponentText e ++ rest) = Json.Parts.exponentText e := by
  match e with
  | none => exact numberChars_of_stops hr pointed
  | some (down, ds) =>
    obtain ⟨hd, hne⟩ := he down ds rfl
    obtain ⟨d, ds, rfl⟩ := List.exists_cons_of_ne_nil hne
    have hdigits := numberChars_digits pointed rest hd
    rw [numberChars_of_stops hr, List.append_nil] at hdigits
    rw [List.all_cons, Bool.and_eq_true] at hd
    have hstart : startsWithDigit (d :: ds ++ rest) = true := hd.1
    cases down <;> simp_all [Json.Parts.exponentText, numberChars, isExponentMark, isSign, isDigit]

theorem numberChars_fraction {f : Option (List Char)} (hf : ∀ ds, f = some ds → ds.all isDigit ∧ ds ≠ [])
    {cs : List Char} (hcs : ∀ pointed, numberChars pointed (cs ++ rest) = cs) :
    numberChars false (Json.Parts.fractionText f ++ (cs ++ rest)) = Json.Parts.fractionText f ++ cs := by
  match f with
  | none => exact hcs false
  | some ds =>
    obtain ⟨hd, hne⟩ := hf ds rfl
    have hdigits := numberChars_digits true (cs ++ rest) hd
    rw [hcs] at hdigits
    obtain ⟨d, ds, rfl⟩ := List.exists_cons_of_ne_nil hne
    simp_all [Json.Parts.fractionText, numberChars, isDigit]

/-- A number starts with a digit after its sign. -/
theorem exists_cons_digit {p : Json.Parts} (hp : p.Proper) : ∃ d ds, p.text = d :: ds ∧ isDigit d := by
  obtain ⟨d, ds, hw⟩ := List.exists_cons_of_ne_nil hp.whole_ne_nil
  have hd := hp.whole_digits
  rw [hw, List.all_cons, Bool.and_eq_true] at hd
  exact ⟨d, _, by rw [Json.Parts.text, hw, List.cons_append], hd.1⟩

/-- The characters of a number are all of them. -/
theorem numberChars_text {p : Json.Parts} (hp : p.Proper) (hr : Json.Stops rest) :
    numberChars false (p.text ++ rest) = p.text := by
  rw [Json.Parts.text, List.append_assoc, List.append_assoc, numberChars_digits _ _ hp.whole_digits,
    numberChars_fraction hp.fraction_digits fun pointed => numberChars_exponent hp.exponent_digits hr pointed]

theorem signedNumberChars_signed {p : Json.Parts} (hp : p.Proper) (negative : Bool) (hr : Json.Stops rest) :
    signedNumberChars (p.signed negative ++ rest) = p.signed negative := by
  cases negative with
  | true => exact congrArg ('-' :: ·) (numberChars_text hp hr)
  | false =>
    obtain ⟨c, cs, htext, hc⟩ := exists_cons_digit hp
    have hne : c ≠ '-' := by
      rintro rfl
      revert hc
      decide
    have hnumber := numberChars_text hp hr
    rw [htext] at hnumber
    rw [Json.Parts.signed, htext]
    unfold signedNumberChars
    split
    · rename_i h
      cases h
      exact absurd rfl hne
    · exact hnumber

theorem startsNumber_of_isDigit (hc : isDigit c) (cs : List Char) : startsNumber (c :: cs) = true := by
  have hne : c ≠ '-' ∧ c ≠ '.' := forall_digit (P := fun c => c ≠ '-' ∧ c ≠ '.') (by decide) hc
  unfold startsNumber
  split <;> simp_all

theorem startsNumber_signed {p : Json.Parts} (hp : p.Proper) (negative : Bool) (rest : List Char) :
    startsNumber (p.signed negative ++ rest) = true := by
  obtain ⟨d, ds, htext, hd⟩ := exists_cons_digit hp
  rw [Json.Parts.signed, htext]
  cases negative with
  | true =>
    change (isDigit d || d == '.') = true
    rw [hd]
    rfl
  | false => exact startsNumber_of_isDigit hd _

/-- The text of a number is read as a whole. -/
theorem readToken_signed {p : Json.Parts} (hp : p.Proper) (negative : Bool) (hr : Ends rest) (position : Nat) :
    readToken position (p.signed negative ++ rest) =
      .ok (.number (String.ofList (p.signed negative)), p.signed negative) := by
  have hstart := startsNumber_signed hp negative rest
  have hnumber : Literal.readNumber? (p.signed negative) = some (Literal.ofNumeral (p.numeral negative)) := by
    rw [Literal.readNumber?, Json.Parts.signed, Numeral.read?_text hp]
    rfl
  have hread : readNumber (p.signed negative ++ rest) =
      .ok (.number (String.ofList (p.signed negative)), p.signed negative) := by
    simp only [readNumber, signedNumberChars_signed hp negative hr.breaks.stops, List.drop_left,
      hr.breaks.any_startsWord, hnumber]
    rfl
  obtain ⟨c, cs, htext, -⟩ := Json.exists_cons_text hp negative
  rw [← hread]
  rw [Json.Parts.signed, htext, List.cons_append] at hstart ⊢
  rw [readToken, if_pos hstart]

theorem gap_signed {p : Json.Parts} (hp : p.Proper) (negative : Bool) (rest : List Char) :
    gap .blank (p.signed negative ++ rest) = [] := by
  obtain ⟨d, ds, htext, hd⟩ := exists_cons_digit hp
  have hplain : (d ≠ '-' ∧ d ≠ '/') ∧ isBlank d = false :=
    forall_digit (P := fun d => (d ≠ '-' ∧ d ≠ '/') ∧ isBlank d = false) (by decide) hd
  rw [Json.Parts.signed, htext]
  cases negative with
  | true =>
    -- the digit after the sign opens no comment
    change gap .blank ('-' :: d :: (ds ++ rest)) = []
    simp [gap, hplain.1.1, show isBlank '-' = false by decide]
  | false => exact gap_eq_nil hplain.1 hplain.2 _

end Scan

/-! ## Pieces -/

/-- A piece of a written text. -/
inductive Piece where
  /-- A single blank. -/
  | blank
  /-- A token with its characters. -/
  | token (t : Token) (chars : List Char)

namespace Piece

open Scan Text

/-- The characters of a piece. -/
def text : Piece → List Char
  | blank => [' ']
  | token _ chars => chars

/-- The text of pieces. -/
def textOf (ps : List Piece) : List Char := ps.flatMap text

/-- A piece before a text: if it is a token, the scanner reads it there. -/
def Fits (rest : List Char) : Piece → Prop
  | blank => True
  | token t chars => t ≠ .finish ∧ chars ≠ [] ∧ gap .blank (chars ++ rest) = [] ∧
      ∀ position, readToken position (chars ++ rest) = .ok (t, chars)

/-- Pieces before a text: each fits before whatever starts as what comes after it. -/
def FitAll : List Piece → List Char → Prop
  | [], _ => True
  | p :: ps, rest => (∀ cs, cs.head? = (textOf ps ++ rest).head? → p.Fits cs) ∧ FitAll ps rest

/-- The tokens of pieces that start at a byte. -/
def lexemes : Nat → List Piece → List Lexeme
  | _, [] => []
  | position, blank :: ps => lexemes (position + 1) ps
  | position, token t chars :: ps =>
    ⟨t, position, position + byteLength chars⟩ :: lexemes (position + byteLength chars) ps

/-- Tokens that stand in a text as pieces do. -/
inductive Shown (text : List Char) : List Lexeme → List Piece → Prop
  | nil : Shown text [] []
  | blank {ls : List Lexeme} {ps : List Piece} (h : Shown text ls ps) : Shown text ls (.blank :: ps)
  | token {l : Lexeme} {t : Token} {chars : List Char} {ls : List Lexeme} {ps : List Piece} (ht : l.token = t)
      (hs : Parse.source text [l] = .ok chars) (h : Shown text ls ps) : Shown text (l :: ls) (.token t chars :: ps)

variable {ps qs : List Piece} {rest : List Char}

@[simp] theorem textOf_nil : textOf [] = [] := rfl

@[simp] theorem textOf_cons (p : Piece) (ps : List Piece) : textOf (p :: ps) = p.text ++ textOf ps := rfl

@[simp] theorem text_blank : blank.text = [' '] := rfl

@[simp] theorem textOf_append (ps qs : List Piece) : textOf (ps ++ qs) = textOf ps ++ textOf qs := List.flatMap_append

theorem fitAll_append : ∀ {ps : List Piece}, FitAll (ps ++ qs) rest ↔ FitAll ps (textOf qs ++ rest) ∧ FitAll qs rest
  | [] => by simp [FitAll]
  | p :: ps => by
    rw [List.cons_append, FitAll, FitAll, fitAll_append, textOf_append, List.append_assoc, and_assoc]

/-! ### Scanning -/

theorem lexemes_blank (fuel position : Nat) (cs : List Char) :
    Scan.lexemes (fuel + 1) position (' ' :: cs) = Scan.lexemes (fuel + 1) (position + 1) cs := by
  have hgap : gap .blank (' ' :: cs) = ' ' :: gap .blank cs := by simp [gap, show isBlank ' ' by decide]
  have hplace : position + byteLength (' ' :: gap .blank cs) = position + 1 + byteLength (gap .blank cs) := by
    rw [byteLength_cons, show ' '.utf8Size = 1 by decide, Nat.add_assoc]
  rw [Scan.lexemes, Scan.lexemes, hgap, hplace]
  rfl

/-- A token that fits is read at the front of a text. -/
theorem lexemes_token {t : Token} {chars : List Char} (h : (token t chars).Fits rest) (fuel position : Nat) :
    Scan.lexemes (fuel + 1) position (chars ++ rest) =
      (Scan.lexemes fuel (position + byteLength chars) rest).map
        (⟨t, position, position + byteLength chars⟩ :: ·) := by
  obtain ⟨ht, -, hgap, hread⟩ := h
  simp only [Scan.lexemes, hgap, byteLength_nil, Nat.add_zero, List.length_nil, List.drop_zero, hread, if_neg ht,
    List.drop_left, bind, Except.bind]
  cases Scan.lexemes fuel (position + byteLength chars) rest <;> rfl

theorem lexemes_textOf : ∀ (ps : List Piece) (fuel position : Nat), FitAll ps [] → ps.length < fuel →
    ∃ n, Scan.lexemes fuel position (textOf ps) = .ok (lexemes position ps ++ [⟨.finish, n, n⟩])
  | [], fuel + 1, position, _, _ => ⟨position, rfl⟩
  | .blank :: ps, fuel + 1, position, h, hlt => by
    rw [List.length_cons] at hlt
    obtain ⟨n, hn⟩ := lexemes_textOf ps (fuel + 1) (position + 1) h.2 (by omega)
    exact ⟨n, (lexemes_blank fuel position (textOf ps)).trans hn⟩
  | .token t chars :: ps, fuel + 1, position, h, hlt => by
    rw [List.length_cons] at hlt
    obtain ⟨hfit, hrest⟩ := h
    have hfit := hfit (textOf ps) (by rw [List.append_nil])
    obtain ⟨n, hn⟩ := lexemes_textOf ps fuel (position + byteLength chars) hrest (by omega)
    refine ⟨n, (lexemes_token hfit fuel position).trans ?_⟩
    rw [hn]
    rfl

/-- Every token stands where its characters do. -/
theorem shown_lexemes : ∀ (ps : List Piece) (front : List Char),
    Shown (front ++ textOf ps) (lexemes (byteLength front) ps) ps
  | [], _ => .nil
  | .blank :: ps, front => by
    have h := shown_lexemes ps (front ++ [' '])
    rw [byteLength_append, List.append_assoc] at h
    exact .blank h
  | .token t chars :: ps, front => by
    have h := shown_lexemes ps (front ++ chars)
    rw [byteLength_append, List.append_assoc] at h
    refine .token rfl ?_ h
    simp only [Parse.source, List.getLastD_nil, textOf_cons, text, slice?_middle]

theorem length_le_textOf : ∀ {ps : List Piece} {rest : List Char}, FitAll ps rest → ps.length ≤ (textOf ps).length
  | [], _, _ => Nat.zero_le 0
  | .blank :: ps, _, h => Nat.succ_le_succ (length_le_textOf h.2)
  | .token t chars :: ps, _, h => by
    have hpos := List.length_pos_iff.2 (h.1 _ rfl).2.1
    have ih := length_le_textOf h.2
    have htext : textOf (.token t chars :: ps) = chars ++ textOf ps := rfl
    rw [htext, List.length_append, List.length_cons]
    omega

/-- **A text whose tokens fit is scanned into these tokens**, each at its characters. -/
theorem scan_textOf (h : FitAll ps []) : ∃ ls n, scan (textOf ps) = .ok (ls ++ [⟨.finish, n, n⟩]) ∧
    Shown (textOf ps) ls ps := by
  obtain ⟨n, hn⟩ := lexemes_textOf ps _ 0 h (Nat.lt_succ_of_le (length_le_textOf h))
  exact ⟨_, n, hn, shown_lexemes ps []⟩

/-! ### Names, literals, keywords and marks -/

/-- A keyword. -/
def keyword (k : Keyword) : Piece := token (.keyword k) k.text.toList

/-- A mark. -/
def mark (m : Mark) : Piece := token (.mark m) m.text.toList

/-- The token of a written name. -/
def nameToken (n : String) : Token := if isBareName n.toList then .name n else .quoted n

/-- A name. -/
def name (n : String) : Piece := token (nameToken n) (writeName n)

/-- The token of a literal. -/
def literalToken (v : Value) : Token :=
  match v with
  | .null => .keyword .null
  | .text s => .string s
  | .boolean _ => .name (String.ofList (Literal.write v))
  | _ => .number (String.ofList (Literal.write v))

/-- A literal. -/
def literal (v : Value) : Piece := token (literalToken v) (Literal.write v)

@[simp] theorem text_keyword (k : Keyword) : (keyword k).text = k.text.toList := rfl

@[simp] theorem text_mark (m : Mark) : (mark m).text = m.text.toList := rfl

@[simp] theorem text_name (n : String) : (name n).text = writeName n := rfl

@[simp] theorem text_literal (v : Value) : (literal v).text = Literal.write v := rfl

theorem fits_word {c : Char} {cs : List Char} (hc : startsWord c) (hcs : cs.all inWord) (hr : Breaks rest) :
    (token (wordToken (c :: cs)) (c :: cs)).Fits rest :=
  ⟨wordToken_ne_finish _, List.cons_ne_nil c cs, gap_word hc _, fun position => readToken_word hc hcs hr position⟩

theorem fits_keyword (k : Keyword) (hr : Ends rest) : (keyword k).Fits rest := by
  have hword : ∃ c cs, k.text.toList = c :: cs ∧ startsWord c ∧ cs.all inWord ∧ wordToken (c :: cs) = .keyword k := by
    cases k <;> exact ⟨_, _, rfl, by decide, by decide, by decide⟩
  obtain ⟨c, cs, htext, hc, hcs, hw⟩ := hword
  rw [keyword, htext, ← hw]
  exact fits_word hc hcs hr.breaks

theorem fits_mark {m : Mark} (hm : m ∈ [.comma, .openParen, .closeParen, .asterisk, .eq, .semicolon])
    (rest : List Char) :
    (mark m).Fits rest := by
  simp only [List.mem_cons, List.not_mem_nil, or_false] at hm
  rcases hm with rfl | rfl | rfl | rfl | rfl | rfl <;>
    exact ⟨(fun h => nomatch h), List.cons_ne_nil _ _, gap_eq_nil (by decide) (by decide) rest, fun _ => rfl⟩

theorem fits_signed {p : Json.Parts} (hp : p.Proper) (negative : Bool) (hr : Ends rest) :
    (token (.number (String.ofList (p.signed negative))) (p.signed negative)).Fits rest := by
  obtain ⟨c, cs, htext, -⟩ := Json.exists_cons_text hp negative
  refine ⟨(fun h => nomatch h), ?_, gap_signed hp negative rest, readToken_signed hp negative hr⟩
  rw [Json.Parts.signed, htext]
  exact List.cons_ne_nil c cs

theorem fits_enclose {q : Char} {t : String → Token} (hq : quotedToken? q = some t) (s : List Char)
    (hr : rest.head? ≠ some q) : (token (t (String.ofList s)) (enclose q s)).Fits rest :=
  ⟨(mem_quotes_of_quotedToken hq).2 _, List.cons_ne_nil _ _, gap_quote hq _, readToken_enclose hq s hr⟩

theorem fits_bareName {n : String} (hn : isBareName n.toList) (hr : Breaks rest) :
    (token (.name n) n.toList).Fits rest := by
  cases hcs : n.toList with
  | nil =>
    rw [hcs] at hn
    cases hn
  | cons c cs =>
    simp only [isBareName, hcs, List.head?_cons, Option.any_some, List.all_cons, Bool.and_eq_true,
      Option.isNone_iff_eq_none] at hn
    have htoken : Token.name n = wordToken (c :: cs) := by
      simp only [wordToken, hn.2]
      rw [← hcs, String.ofList_toList]
    rw [htoken]
    exact fits_word hn.1.1 hn.1.2.2 hr

theorem fits_name (n : String) (hr : Ends rest) : (name n).Fits rest := by
  rw [name, nameToken, writeName]
  cases hbare : isBareName n.toList with
  | true =>
    rw [if_pos rfl, if_pos rfl]
    exact fits_bareName hbare hr.breaks
  | false =>
    have hfits := fits_enclose (q := '"') rfl n.toList (hr.breaks.head?_ne_quote (by decide))
    rwa [String.ofList_toList] at hfits

theorem fits_literal {v : Value} (hv : v.Writable) (hr : Ends rest) : (literal v).Fits rest := by
  cases v with
  | null => exact fits_keyword .null hr
  | boolean b => exact hv.elim
  | integer i =>
    obtain ⟨p, hp, ht⟩ := Json.exists_parts_integer i.toInt
    have hfit := fits_signed hp (decide (i.toInt < 0)) hr
    rw [Json.Parts.signed, ← ht] at hfit
    exact hfit
  | real r =>
    have hr' : r.isFinite := hv
    obtain ⟨p, hp, -, -, ht⟩ := Literal.exists_parts_writeReal r
    have hfit := fits_signed hp r.negative hr
    rw [← ht] at hfit
    simp only [literal, literalToken, Literal.write, if_pos hr']
    exact hfit
  | text s =>
    have hfits := fits_enclose (q := '\'') rfl s.toList (hr.breaks.head?_ne_quote (by decide))
    rwa [String.ofList_toList] at hfits

end Piece

end TableStore
