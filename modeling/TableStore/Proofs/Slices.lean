import TableStore.Proofs.Spans

/-!
# Slices of tokens

- the characters of a number are the characters of the number that they start with (`Scan.signedNumberChars_self`);
- the characters of a token are read as this token before the end of the text, a blank, a comma, a semicolon or a
  parenthesis (`Scan.Reads.fits_of_breaks`);
- as a literal they are the text between their quotes, or the number (`Token.Agrees`, `Scan.Reads.agrees`), so the slice
  of a token stands for the token (`slices_stand_for_tokens`).
-/

namespace TableStore

open Text

namespace Scan

variable {c d : Char} {cs chars rest : List Char} {t : Token} {pointed : Bool}

/-! ## Numbers -/

theorem numberChars_digit (hc : isDigit c) (pointed : Bool) (cs : List Char) :
    numberChars pointed (c :: cs) = c :: numberChars pointed cs :=
  numberChars_digits pointed cs (show [c].all isDigit by rw [List.all_cons, hc]; rfl)

theorem numberChars_point (cs : List Char) : numberChars false ('.' :: cs) = '.' :: numberChars true cs := by
  cases cs <;> simp [numberChars, isDigit]

theorem numberChars_plainExponent (h : (isExponentMark c && isDigit d) = true) (pointed : Bool) (cs : List Char) :
    numberChars pointed (c :: d :: cs) = c :: numberChars pointed (d :: cs) := by
  obtain ⟨hc, hd⟩ := Bool.and_eq_true_iff.1 h
  simp only [isExponentMark, Bool.or_eq_true, beq_iff_eq] at hc
  rcases hc with rfl | rfl <;> simp [numberChars, isExponentMark, hd, show isDigit 'e' = false by decide,
    show isDigit 'E' = false by decide]

theorem numberChars_signedExponent (h : (isExponentMark c && isSign d && startsWithDigit cs) = true) (pointed : Bool) :
    numberChars pointed (c :: d :: cs) = c :: d :: numberChars pointed cs := by
  simp only [Bool.and_eq_true, isExponentMark, isSign, Bool.or_eq_true, beq_iff_eq] at h
  obtain ⟨⟨rfl | rfl, rfl | rfl⟩, hdigit⟩ := h <;> simp [numberChars, isExponentMark, isSign, isDigit, hdigit]

theorem startsWithDigit_numberChars (h : startsWithDigit cs) (pointed : Bool) :
    startsWithDigit (numberChars pointed cs) := by
  cases cs with
  | nil => cases h
  | cons c cs =>
    rw [numberChars_digit h]
    exact h

/-- The characters of a number are all read again. -/
theorem numberChars_self (pointed : Bool) (cs : List Char) :
    numberChars pointed (numberChars pointed cs) = numberChars pointed cs := by
  fun_induction numberChars pointed cs with
  -- the number ends here
  | case1 | case3 | case8 => rfl
  -- the last character
  | case2 pointed c hc => simp only [numberChars, hc, if_true]
  -- a digit
  | case4 pointed c d cs hc ih => rw [numberChars_digit hc, ih]
  -- the point
  | case5 pointed c d cs _ hc ih =>
    simp only [Bool.and_eq_true, beq_iff_eq, Bool.not_eq_true'] at hc
    obtain ⟨rfl, rfl⟩ := hc
    rw [numberChars_point, ih]
  -- an exponent without a sign
  | case6 pointed c d cs _ _ he ih =>
    rw [numberChars_digit (Bool.and_eq_true_iff.1 he).2] at ih ⊢
    rw [numberChars_plainExponent he, ih]
  -- an exponent with a sign
  | case7 pointed c d cs _ _ _ he ih =>
    rw [Bool.and_eq_true] at he
    rw [numberChars_signedExponent ?_, ih]
    rw [he.1, startsWithDigit_numberChars he.2]
    rfl

/-- A number goes no further before what breaks it off. -/
theorem numberChars_append (h : Breaks rest) (pointed : Bool) (cs : List Char) :
    numberChars pointed (cs ++ rest) = numberChars pointed cs := by
  fun_induction numberChars pointed cs with
  -- nothing is left
  | case1 pointed => exact numberChars_of_stops h.stops pointed
  -- a digit or the point at the end
  | case2 pointed c hc =>
    rw [Bool.or_eq_true] at hc
    rcases hc with hc | hc
    · rw [List.singleton_append, numberChars_digit hc, numberChars_of_stops h.stops]
    · simp only [Bool.and_eq_true, beq_iff_eq, Bool.not_eq_true'] at hc
      obtain ⟨rfl, rfl⟩ := hc
      rw [List.singleton_append, numberChars_point, numberChars_of_stops h.stops]
  -- another character at the end: even an exponent mark has no exponent after it
  | case3 pointed c hc =>
    cases rest with
    | nil => simp [numberChars, hc]
    | cons d rest =>
      have hdigit : isDigit d = false := (h.stops d rfl).1
      have hsign : isSign d = false := by
        have hne : ∀ e ∈ ".-+/*=<>!'\"`".toList, d ≠ e := fun e he hd => h.head.2 (hd ▸ he)
        simp [isSign, hne '+' (by decide), hne '-' (by decide)]
      rw [Bool.or_eq_true, not_or] at hc
      rw [List.singleton_append, numberChars, if_neg hc.1, if_neg hc.2, hdigit, hsign]
      simp
  -- a digit
  | case4 pointed c d cs hc ih => rw [List.cons_append, numberChars_digit hc, ih]
  -- the point
  | case5 pointed c d cs _ hc ih =>
    simp only [Bool.and_eq_true, beq_iff_eq, Bool.not_eq_true'] at hc
    obtain ⟨rfl, rfl⟩ := hc
    rw [List.cons_append, numberChars_point, ih]
  -- an exponent without a sign
  | case6 pointed c d cs _ _ he ih =>
    rw [List.cons_append, List.cons_append, numberChars_plainExponent he, ← List.cons_append, ih]
  -- an exponent with a sign
  | case7 pointed c d cs _ _ _ he ih =>
    have hdigit : startsWithDigit (cs ++ rest) = startsWithDigit cs := by
      cases cs with
      | nil => simp [startsWithDigit] at he
      | cons => rfl
    rw [List.cons_append, List.cons_append, numberChars_signedExponent (by rw [hdigit, he]), ih]
  -- none of these, and the sign of an exponent has no digit after it either
  | case8 pointed c d cs hc hp hd he =>
    have hdigit : (isExponentMark c && isSign d && startsWithDigit (cs ++ rest)) = false := by
      cases cs with
      | nil =>
        have hrest : startsWithDigit rest = false := by
          cases rest with
          | nil => rfl
          | cons e rest => exact (h.stops e rfl).1
        rw [List.nil_append, hrest, Bool.and_false]
      | cons e cs => exact Bool.eq_false_iff.2 he
    rw [List.cons_append, List.cons_append, numberChars, if_neg hc, if_neg hp, if_neg hd, hdigit]
    rfl

theorem signedNumberChars_of_ne (h : cs.head? ≠ some '-') : signedNumberChars cs = numberChars false cs := by
  unfold signedNumberChars
  split
  · exact absurd rfl h
  · rfl

theorem signedNumberChars_self (cs : List Char) : signedNumberChars (signedNumberChars cs) = signedNumberChars cs := by
  by_cases h : cs.head? = some '-'
  · obtain ⟨ds, rfl⟩ := List.head?_eq_some_iff.1 h
    exact congrArg ('-' :: ·) (numberChars_self false ds)
  · have hhead : (numberChars false cs).head? ≠ some '-' := fun hminus => by
      obtain ⟨ds, hds⟩ := List.head?_eq_some_iff.1 hminus
      obtain ⟨rest, rfl⟩ := hds ▸ starts_numberChars false cs
      exact h rfl
    rw [signedNumberChars_of_ne h, signedNumberChars_of_ne hhead, numberChars_self]

/-- What a number starts with is part of its characters. -/
theorem startsNumber_signedNumberChars (h : startsNumber cs) : startsNumber (signedNumberChars cs) := by
  unfold startsNumber at h
  split at h
  · rename_i c ds
    have hnumber : ∃ pointed, numberChars false (c :: ds) = c :: numberChars pointed ds := by
      rw [Bool.or_eq_true, beq_iff_eq] at h
      rcases h with hc | rfl
      · exact ⟨false, numberChars_digit hc false ds⟩
      · exact ⟨true, numberChars_point ds⟩
    obtain ⟨pointed, hnumber⟩ := hnumber
    rw [signedNumberChars, hnumber]
    exact h
  · rename_i c ds
    rw [signedNumberChars_of_ne (by rintro ⟨⟩), numberChars_point, numberChars_digit h]
    exact h
  · rename_i c ds _ _
    have hne : c ≠ '-' := forall_digit (P := fun c => c ≠ '-') (by decide) h
    rw [signedNumberChars_of_ne (fun he => hne (by cases he; rfl)), numberChars_digit h]
    exact startsNumber_of_isDigit h _
  · cases h

theorem signedNumberChars_append (h : Breaks rest) (hne : cs ≠ []) :
    signedNumberChars (cs ++ rest) = signedNumberChars cs := by
  obtain ⟨c, cs, rfl⟩ := List.exists_cons_of_ne_nil hne
  by_cases hminus : c = '-'
  · subst hminus
    exact congrArg ('-' :: ·) (numberChars_append h false cs)
  · have hhead : ∀ ds : List Char, (c :: ds).head? ≠ some '-' := fun ds he => hminus (Option.some.inj he)
    rw [List.cons_append, signedNumberChars_of_ne (hhead _), signedNumberChars_of_ne (hhead _), ← List.cons_append,
      numberChars_append h]

theorem startsNumber_append (h : startsNumber cs) (rest : List Char) : startsNumber (cs ++ rest) := by
  unfold startsNumber at h
  split at h
  · exact h
  · exact h
  · exact startsNumber_of_isDigit h _
  · cases h

/-! ## Tokens before a break -/

theorem readToken_of_startsNumber (h : startsNumber cs) (position : Nat) : readToken position cs = readNumber cs := by
  cases cs with
  | nil => cases h
  | cons c cs => rw [readToken, if_pos h]

theorem gap_of_startsNumber (h : startsNumber cs) : gap .blank cs = [] := by
  unfold startsNumber at h
  split at h
  · rename_i c ds
    have hne : c ≠ '-' := by
      rintro rfl
      cases h
    simp [gap, hne, show isBlank '-' = false by decide]
  · exact gap_eq_nil (by decide) (by decide) _
  · rename_i c ds _ _
    have hplain : (c ≠ '-' ∧ c ≠ '/') ∧ isBlank c = false :=
      forall_digit (P := fun c => (c ≠ '-' ∧ c ≠ '/') ∧ isBlank c = false) (by decide) h
    exact gap_eq_nil hplain.1 hplain.2 _
  · cases h

/-- No more than its characters makes a mark before a break, and they start no comment there. -/
theorem fits_of_readMark {m : Mark} (h : readMark? cs = some (m, chars)) (hrest : Breaks rest) :
    (Piece.token (.mark m) chars).Fits rest := by
  cases rest with
  | nil =>
    unfold readMark? at h
    split at h <;> cases h <;> exact ⟨(fun h => by cases h), List.cons_ne_nil _ _, by decide, fun _ => rfl⟩
  | cons c rest =>
    have hne : ∀ d ∈ ".-+/*=<>!'\"`".toList, c ≠ d := fun d hd he => hrest.head.2 (he ▸ hd)
    have hdigit : isDigit c = false := (hrest.stops c rfl).1
    have hmarks : ∀ d ∈ "<>=!+-*/(),;.".toList, isBlank d = false ∧ isDigit d = false :=
      forall_mem_of_all (P := fun d => isBlank d = false ∧ isDigit d = false) (by decide)
    simp only [String.reduceToList, List.forall_mem_cons] at hne hmarks
    unfold readMark? at h
    split at h <;> cases h <;> refine ⟨(fun h => by cases h), List.cons_ne_nil _ _, ?_, fun _ => ?_⟩
    all_goals simp_all [gap, readToken, readMark?, startsNumber]

/-- **The characters of a token are read as this token before every break.** -/
theorem Reads.fits_of_breaks (h : Reads cs t chars) (ht : t ≠ .finish) (hrest : Breaks rest) :
    (Piece.token t chars).Fits rest := by
  have hchars := h.ne_nil_iff.1 ht
  cases h with
  | finish => exact absurd rfl ht
  | number hstart hnumber hvalue =>
    have hself := signedNumberChars_self cs
    have hstart' := startsNumber_signedNumberChars hstart
    rw [← hnumber] at hself hstart'
    have hstart'' := startsNumber_append hstart' rest
    refine ⟨ht, hchars, gap_of_startsNumber hstart'', fun position => ?_⟩
    rw [readToken_of_startsNumber hstart'']
    simp only [readNumber, signedNumberChars_append hrest hchars, hself, List.drop_left, hrest.any_startsWord,
      hvalue]
    rfl
  | mark hmark => exact fits_of_readMark hmark hrest
  | quoted hq s => exact Piece.fits_enclose hq s (hrest.head?_ne_quote (mem_quotes_of_quotedToken hq).1)
  | word hc hword => exact Piece.fits_word hc hword hrest

/-- The characters of a token are read as this token where nothing follows them. -/
theorem Reads.fits (h : Reads cs t chars) (ht : t ≠ .finish) : (Piece.token t chars).Fits [] :=
  h.fits_of_breaks ht breaks_nil

/-- A token that fits at the end is the only token of its characters. -/
theorem scan_of_fits (h : (Piece.token t chars).Fits []) : scan chars =
    .ok [⟨t, 0, byteLength chars⟩, ⟨.finish, byteLength chars, byteLength chars⟩] := by
  have hlexemes := Piece.lexemes_token h chars.length 0
  obtain ⟨c, cs, rfl⟩ := List.exists_cons_of_ne_nil h.2.1
  rw [List.append_nil, Nat.zero_add] at hlexemes
  rw [scan, hlexemes]
  rfl

end Scan

/-! ## Values -/

/-- A value that a number can be: an integer or a real. -/
def Value.IsNumber : Value → Prop
  | .integer _ | .real _ => True
  | _ => False

theorem Literal.isNumber_of_readNumber {cs : List Char} {v : Value} (h : readNumber? cs = some v) : v.IsNumber := by
  obtain ⟨n, -, rfl⟩ := Option.map_eq_some_iff.1 h
  rw [ofNumeral]
  split <;> exact trivial

/-- What a token stands for as a literal is what its characters are read as. -/
def Token.Agrees (chars : List Char) : Token → Prop
  | .string s | .quoted s => Literal.read chars = .text s
  | .number n => ∃ v, Literal.readNumber? n.toList = some v ∧ Literal.read chars = v ∧ v.IsNumber
  | _ => True

namespace Scan

variable {cs chars : List Char} {t : Token}

theorem agrees_quoted {q : Char} {token : String → Token} (hq : quotedToken? q = some token) (s : List Char) :
    (token (String.ofList s)).Agrees (enclose q s) := by
  simp only [quotedToken?] at hq
  split at hq
  · subst q
    cases hq
    exact read_enclose (by decide)
  split at hq
  · subst q
    cases hq
    exact read_enclose (by decide)
  split at hq <;> cases hq
  exact trivial

/-- **The scanner and the reader of literals agree** on the characters of a token. -/
theorem Reads.agrees (h : Reads cs t chars) : t.Agrees chars := by
  cases h with
  | finish | mark => exact trivial
  | number _ hnumber hvalue =>
    obtain ⟨v, hv⟩ := Option.isSome_iff_exists.1 hvalue
    have hwritten : ∀ c ∈ chars, InWritten c := hnumber ▸ inWritten_of_mem_signedNumberChars cs
    refine ⟨v, ?_, Literal.read_of_inWritten hwritten hv, Literal.isNumber_of_readNumber hv⟩
    rwa [String.toList_ofList]
  | quoted hq s => exact agrees_quoted hq s
  | word =>
    unfold wordToken
    split <;> exact trivial

end Scan

/-- **The slice of a token stands for the token**: on its own it is scanned into this token alone, and it is read as
what the token stands for. -/
theorem slices_stand_for_tokens {text : List Char} {ls : List Lexeme} (h : scan text = .ok ls) :
    ∀ l ∈ ls, l.token ≠ .finish → ∃ chars, slice? text l.start l.stop = some chars ∧
      scan chars = .ok [⟨l.token, 0, byteLength chars⟩, ⟨.finish, byteLength chars, byteLength chars⟩] ∧
      l.token.Agrees chars := by
  intro l hl ht
  obtain ⟨chars, rest, position, hsource, hread⟩ := Scan.stands_of_scan h l hl
  have hreads := Scan.reads_of_readToken hread
  refine ⟨chars, ?_, Scan.scan_of_fits (hreads.fits ht), hreads.agrees⟩
  rw [Parse.source, List.getLastD_nil] at hsource
  split at hsource <;> cases hsource
  assumption

/-- Tokens that touch are told apart, and a number that starts with a point is a real. -/
theorem touching_tokens_are_sliced :
    let text := "x='it''s',-.5E+2".toList
    let ls : List Lexeme := [⟨.name "x", 0, 1⟩, ⟨.mark .eq, 1, 2⟩, ⟨.string "it's", 2, 9⟩, ⟨.mark .comma, 9, 10⟩,
      ⟨.number "-.5E+2", 10, 16⟩, ⟨.finish, 16, 16⟩]
    scan text = .ok ls ∧
    (∃ chars, slice? text 2 9 = some chars ∧
      scan chars = .ok [⟨.string "it's", 0, byteLength chars⟩, ⟨.finish, byteLength chars, byteLength chars⟩] ∧
      Literal.read chars = .text "it's") ∧
    ∃ chars, slice? text 10 16 = some chars ∧
      scan chars = .ok [⟨.number "-.5E+2", 0, byteLength chars⟩, ⟨.finish, byteLength chars, byteLength chars⟩] ∧
      ∃ v, Literal.readNumber? "-.5E+2".toList = some v ∧ Literal.read chars = v ∧ v.IsNumber := by
  intro text ls
  have hscan : scan text = .ok ls := Except.eq_ok_of_toOption (by decide +kernel)
  exact ⟨hscan, slices_stand_for_tokens hscan ⟨.string "it's", 2, 9⟩ (by decide) (by decide),
    slices_stand_for_tokens hscan ⟨.number "-.5E+2", 10, 16⟩ (by decide) (by decide)⟩

end TableStore
