import TableStore.Proofs.Operands

/-!
# Texts that go on

- a token is read as it is whatever comes after the text, as long as that starts with something that breaks tokens off
  (`Scan.readToken_append`, `Scan.fits_append`);
- so a text that is scanned is cut into a body, whose tokens stay, and what is passed over at its end
  (`Scan.exists_body`): this is layout once the line is ended, or it ends in a comment between marks that nothing
  closes (`EndsInComment`), which takes in what comes after it (`EndsInComment.scan_append`);
- a text that is scanned, with a line end after it, is therefore scanned into its own tokens before whatever comes on
  the next line, unless it ends in such a comment (`Scan.scanned_line`);
- a slice of a text is a slice of every text that goes on from it (`Parse.source_of_starts`).
-/

namespace TableStore

open Text

namespace Scan

variable {c d q : Char} {cs chars rest more skipped : List Char} {t : Token} {position : Nat} {ls : List Lexeme}

/-! ## Single tokens -/

/-- A quoted text is closed where it was, unless a quote comes after it. -/
theorem readQuoted_append (hmore : more.head? ≠ some q) : ∀ {cs s rest : List Char}, readQuoted q cs = some (s, rest) →
    readQuoted q (cs ++ more) = some (s, rest ++ more)
  | [], _, _, h => nomatch h
  | [c], s, rest, h => by
    rw [readQuoted] at h
    split at h <;> cases h
    rename_i hc
    subst hc
    cases more with
    | nil => simp [readQuoted]
    | cons d more =>
      have hd : d ≠ c := fun he => hmore (congrArg some he)
      simp [readQuoted, hd]
  | c :: d :: cs, s, rest, h => by
    rw [readQuoted] at h
    rw [List.cons_append, List.cons_append, readQuoted]
    split at h
    · rename_i hc
      rw [if_pos hc]
      split at h
      · rename_i hd
        obtain ⟨⟨s', rest'⟩, hread, he⟩ := Option.map_eq_some_iff.1 h
        cases he
        rw [if_pos hd, readQuoted_append hmore hread]
        rfl
      · rename_i hd
        cases h
        rw [if_neg hd]
        rfl
    · rename_i hc
      obtain ⟨⟨s', rest'⟩, hread, he⟩ := Option.map_eq_some_iff.1 h
      cases he
      rw [if_neg hc, ← List.cons_append, readQuoted_append hmore hread]
      rfl

theorem takeWhile_inWord_append (h : Breaks more) (cs : List Char) :
    (cs ++ more).takeWhile inWord = cs.takeWhile inWord := by
  have hmore : more.takeWhile inWord = [] := by
    cases more with
    | nil => rfl
    | cons c more => exact List.takeWhile_cons_of_neg (by simp [h.head.1])
  rw [List.takeWhile_append, hmore, List.append_nil]
  split
  · rename_i hall
    exact ((List.takeWhile_prefix inWord).eq_of_length hall).symm
  · rfl

/-! ### Two characters tell a mark, a number or a comment -/

theorem startsNumber_congr (c d : Char) (cs ds : List Char) :
    startsNumber (c :: d :: cs) = startsNumber (c :: d :: ds) := by
  by_cases hminus : c = '-'
  · subst hminus
    rfl
  · by_cases hpoint : c = '.'
    · subst hpoint
      rfl
    · simp [startsNumber, hminus, hpoint]

theorem readMark?_congr (c d : Char) (cs ds : List Char) : readMark? (c :: d :: cs) = readMark? (c :: d :: ds) := by
  conv_lhs => unfold readMark?
  split
  case h_5 hle hne h =>
    cases h
    have hd : d ≠ '=' ∧ d ≠ '>' := ⟨fun h => hle cs (h ▸ rfl), fun h => hne cs (h ▸ rfl)⟩
    simp [readMark?, hd]
  case h_6 hge h =>
    cases h
    have hd : d ≠ '=' := fun h => hge cs (h ▸ rfl)
    simp [readMark?, hd]
  case h_17 =>
    unfold readMark?
    split
    case h_17 => rfl
    all_goals
      rename_i h
      cases h
      simp_all only [List.cons.injEq, imp_false, true_and, forall_eq']
  all_goals
    rename_i h
    cases h
    rfl

theorem gap_congr (h : gap .blank (c :: d :: cs) = []) (ds : List Char) : gap .blank (c :: d :: ds) = [] := by
  by_cases hminus : c = '-' ∧ d = '-'
  · obtain ⟨rfl, rfl⟩ := hminus
    cases h
  by_cases hslash : c = '/' ∧ d = '*'
  · obtain ⟨rfl, rfl⟩ := hslash
    cases h
  have hgap : ∀ es, gap .blank (c :: d :: es) = if isBlank c then c :: gap .blank (d :: es) else [] := by
    intro es
    rw [gap]
    · rintro es' rfl he
      exact hminus ⟨rfl, (List.cons.inj he).1⟩
    · rintro es' rfl he
      exact hslash ⟨rfl, (List.cons.inj he).1⟩
  rw [hgap] at h ⊢
  split at h
  · cases h
  · rename_i hc
    rw [if_neg hc]

theorem readNumber_append (hne : cs ≠ []) (hmore : Breaks more) (h : readNumber cs = .ok (t, chars)) :
    readNumber (cs ++ more) = .ok (t, chars) := by
  have hstart : (signedNumberChars cs).length ≤ cs.length := (starts_signedNumberChars cs).length_le
  simp only [readNumber] at h
  split at h
  · cases h
  rename_i hword
  have hword' : (((cs ++ more).drop (signedNumberChars cs).length).head?.any startsWord) = false := by
    rw [List.drop_append_of_le_length hstart]
    cases hrest : cs.drop (signedNumberChars cs).length with
    | nil => exact hmore.any_startsWord
    | cons c rest =>
      rw [hrest] at hword
      exact Bool.eq_false_iff.2 hword
  simp only [readNumber, signedNumberChars_append hmore hne, hword', h]
  rfl

/-- **A token stays what it is when a text goes on.** -/
theorem readToken_append (hmore : Breaks more) (h : readToken position (c :: d :: cs) = .ok (t, chars)) :
    readToken position (c :: d :: cs ++ more) = .ok (t, chars) := by
  have htext : c :: d :: cs ++ more = c :: d :: (cs ++ more) := rfl
  rw [readToken] at h
  rw [htext, readToken, startsNumber_congr c d (cs ++ more) cs, readMark?_congr c d (cs ++ more) cs]
  split at h
  · rename_i hnumber
    rw [if_pos hnumber]
    exact readNumber_append (List.cons_ne_nil c _) hmore h
  rename_i hnumber
  rw [if_neg hnumber]
  split at h
  · exact h
  split at h
  · rename_i hq
    split at h <;> cases h
    rename_i hread
    have hquote := hmore.head?_ne_quote (mem_quotes_of_quotedToken hq).1
    rw [← List.cons_append, readQuoted_append hquote hread]
  · split at h <;> cases h
    rename_i hc
    rw [if_pos hc, ← List.cons_append, ← List.cons_append, takeWhile_inWord_append hmore]

theorem fits_append (hmore : Breaks more) (h : (Piece.token t chars).Fits rest) :
    (Piece.token t chars).Fits (rest ++ more) := by
  obtain ⟨ht, hne, hgap, hread⟩ := h
  cases rest with
  | nil =>
    have hreads := hread 0
    rw [List.append_nil] at hreads
    exact (reads_of_readToken hreads).fits_of_breaks ht hmore
  | cons e rest =>
    -- at least two characters were there before
    obtain ⟨c, d, cs, hcs⟩ : ∃ c d cs, chars ++ e :: rest = c :: d :: cs := by
      obtain ⟨c, chars, rfl⟩ := List.exists_cons_of_ne_nil hne
      cases chars with
      | nil => exact ⟨c, e, rest, rfl⟩
      | cons d chars => exact ⟨c, d, chars ++ e :: rest, rfl⟩
    rw [hcs] at hgap hread
    refine ⟨ht, hne, ?_, fun position => ?_⟩
    · rw [← List.append_assoc, hcs]
      exact gap_congr hgap _
    · rw [← List.append_assoc, hcs]
      exact readToken_append hmore (hread position)

/-! ## Bodies -/

theorem readToken_anywhere (h : readToken position cs = .ok (t, chars)) (position' : Nat) :
    readToken position' cs = .ok (t, chars) := by
  have hstart : readToken 0 cs = .ok (t, chars) := by
    rw [← Nat.add_zero position, readToken_moved] at h
    cases hread : readToken 0 cs with
    | error e =>
      rw [hread] at h
      cases h
    | ok found =>
      rw [hread] at h
      exact h
  rw [← Nat.add_zero position', readToken_moved, hstart]
  rfl

theorem layout_of_skipped (h : Skipped skipped rest) (hne : rest ≠ []) : Layout skipped := by
  induction h with
  | nil => exact .nil
  | blank hc _ ih => exact .blank hc (ih hne)
  | line hbody _ ih => exact .line hbody (ih hne)
  | block hbody _ ih => exact .block hbody (ih hne)
  | lastLine | openBlock => exact absurd rfl hne

/-- **A text that is scanned has a body.** The tokens are those of the body, also before everything that breaks tokens
off after the text, and the rest of the text is passed over. -/
theorem exists_body : ∀ {fuel : Nat} (front : List Char) {cs : List Char} {ls : List Lexeme},
    lexemes fuel (byteLength front) cs = .ok ls → ∃ body skipped tokens, cs = body ++ skipped ∧ Skipped skipped [] ∧
      ls = tokens ++ [⟨.finish, byteLength (front ++ cs), byteLength (front ++ cs)⟩] ∧
      ∀ more, Breaks more → Scanned front body (skipped ++ more) tokens
  | 0, _, _, _, h => nomatch h
  | fuel + 1, front, cs, ls, h => by
    obtain ⟨skipped, rest, rfl, hskipped, hgap⟩ : ∃ skipped rest, cs = skipped ++ rest ∧ Skipped skipped rest ∧
        gap .blank cs = skipped := ⟨_, _, (drop_gap cs).symm, skipped_gap cs, rfl⟩
    simp only [lexemes, hgap, List.drop_left, ← byteLength_append] at h
    obtain ⟨⟨t, chars⟩, hread, h⟩ := Except.exists_of_bind h
    have hreads := reads_of_readToken hread
    obtain ⟨rest, rfl⟩ := starts_readToken hread
    dsimp only at h
    split at h
    · rename_i ht
      subst ht
      obtain ⟨rfl, rfl⟩ := List.append_eq_nil_iff.1 hreads.eq_nil
      cases h
      simp only [List.append_nil] at hskipped ⊢
      exact ⟨[], skipped, [], rfl, hskipped, by simp only [List.nil_append],
        fun more _ => scanned_layout .nil front _⟩
    · rename_i ht
      rw [List.drop_left] at h
      obtain ⟨later, hlater, h⟩ := Except.exists_of_bind h
      cases h
      obtain ⟨body, skipped', tokens, rfl, hskipped', rfl, hscanned⟩ := exists_body (front ++ skipped ++ chars) hlater
      have hchars := hreads.ne_nil_iff.1 ht
      have hlayout := layout_of_skipped hskipped (List.append_ne_nil_of_left_ne_nil hchars _)
      have hfits : (Piece.token t chars).Fits (body ++ skipped') := by
        rw [gap_layout hlayout] at hgap
        exact ⟨ht, hchars, List.append_right_eq_self.1 hgap, readToken_anywhere hread⟩
      have htoken : ∀ more, Breaks more →
          Scanned (front ++ skipped) chars (body ++ (skipped' ++ more))
            [⟨t, byteLength (front ++ skipped), byteLength (front ++ skipped ++ chars)⟩] := by
        intro more hmore
        rw [← List.append_assoc body]
        exact scanned_token (fits_append hmore hfits) _
      refine ⟨skipped ++ (chars ++ body), skipped', _, by simp only [List.append_assoc], hskipped', ?_,
        fun more hmore => (scanned_layout hlayout front _).append ((htoken more hmore).append (hscanned more hmore))⟩
      simp only [List.append_assoc, List.nil_append, List.cons_append]

end Scan

/-! ## Ends of texts -/

/-- The text ends in a comment between marks that nothing closes: tokens, blanks and complete comments come before it,
whatever breaks tokens off after it. -/
def EndsInComment (text : List Char) : Prop :=
  ∃ body comment tokens, text = body ++ '/' :: '*' :: comment ∧ ¬['*', '/'] <:+: comment ∧
    ∀ more, Scan.Breaks more → Scan.Scanned [] body ('/' :: '*' :: (comment ++ more)) tokens

namespace Scan

variable {text cs comment more skipped rest : List Char} {ls : List Lexeme}

/-- What is passed over at the end of a text is layout when the line is ended, unless it ends in an open comment. -/
theorem layout_or_open (h : Skipped skipped rest) (hrest : rest = []) : Layout (skipped ++ ['\n']) ∨
    ∃ layout comment, skipped = layout ++ '/' :: '*' :: comment ∧ Layout layout ∧ ¬['*', '/'] <:+: comment := by
  induction h with
  | nil => exact .inl (layout_of_blanks (by decide))
  | blank hc _ ih =>
    rcases ih hrest with h | ⟨layout, comment, rfl, h, hcomment⟩
    · exact .inl (.blank hc h)
    · exact .inr ⟨_ :: layout, comment, rfl, .blank hc h, hcomment⟩
  | @line body _ _ hbody _ ih =>
    rcases ih hrest with h | ⟨layout, comment, rfl, h, hcomment⟩
    · rw [List.cons_append, List.cons_append, List.append_assoc]
      exact .inl (.line hbody h)
    · exact .inr ⟨'-' :: '-' :: (body ++ '\n' :: layout), comment, by simp, .line hbody h, hcomment⟩
  | lastLine hbody => exact .inl (.line hbody .nil)
  | @block body _ _ hbody _ ih =>
    rcases ih hrest with h | ⟨layout, comment, rfl, h, hcomment⟩
    · rw [List.cons_append, List.cons_append, List.append_assoc]
      exact .inl (.block hbody h)
    · exact .inr ⟨'/' :: '*' :: (body ++ '*' :: '/' :: layout), comment, by simp, .block hbody h, hcomment⟩
  | @openBlock body hbody => exact .inr ⟨[], body, rfl, .nil, hbody⟩

/-- **A text that is scanned ends in an open comment, or its tokens are scanned before everything on the next line.** -/
theorem scanned_line (h : scan text = .ok ls) : ∃ tokens, ls =
    tokens ++ [⟨.finish, byteLength text, byteLength text⟩] ∧
      (EndsInComment text ∨ ∀ rest, Scanned [] (text ++ ['\n']) rest tokens) := by
  obtain ⟨body, skipped, tokens, rfl, hskipped, hls, hscanned⟩ := exists_body [] h
  refine ⟨tokens, hls, ?_⟩
  rcases layout_or_open hskipped rfl with hlayout | ⟨layout, comment, rfl, hlayout, hcomment⟩
  · refine .inr fun rest => ?_
    have hbody := hscanned ('\n' :: rest) (breaks_blank (by decide) rest)
    have htext : skipped ++ '\n' :: rest = skipped ++ ['\n'] ++ rest := by simp
    rw [htext] at hbody
    have hall := hbody.append (scanned_layout hlayout _ rest)
    rwa [List.append_nil, ← List.append_assoc] at hall
  · refine .inl ⟨body ++ layout, comment, tokens, by simp, hcomment, fun more hmore => ?_⟩
    have hbody := hscanned more hmore
    have htext : layout ++ '/' :: '*' :: comment ++ more = layout ++ '/' :: '*' :: (comment ++ more) := by simp
    rw [htext] at hbody
    have hall := hbody.append (scanned_layout hlayout _ _)
    rwa [List.append_nil] at hall

/-! ### Open comments -/

theorem gap_openBlock (h : ¬['*', '/'] <:+: cs) : gap .blockComment cs = cs := by
  induction cs with
  | nil => rfl
  | cons c cs ih =>
    have htail : ¬['*', '/'] <:+: cs := fun h' => h (h'.trans (List.suffix_cons c cs).isInfix)
    rw [gap, ih htail]
    rintro ds rfl rfl
    exact h ⟨[], ds, rfl⟩

theorem not_infix_append (h : ¬['*', '/'] <:+: comment) (hmore : '/' ∉ more) : ¬['*', '/'] <:+: comment ++ more := by
  induction comment with
  | nil => exact fun h => hmore (h.subset (by simp))
  | cons c comment ih =>
    have hsuffix : comment <:+: c :: comment := (List.suffix_cons c comment).isInfix
    refine not_infix_cons (ih fun h' => h (h'.trans hsuffix)) ?_
    rintro rfl he
    cases comment with
    | nil => exact hmore (List.mem_of_mem_head? he)
    | cons d comment =>
      cases he
      exact h ⟨[], comment, rfl⟩

theorem scanAt_openBlock (h : ¬['*', '/'] <:+: comment) (position : Nat) :
    scanAt position ('/' :: '*' :: comment) = .ok [⟨.finish, position + byteLength ('/' :: '*' :: comment),
      position + byteLength ('/' :: '*' :: comment)⟩] := by
  have hgap : gap .blank ('/' :: '*' :: comment) = '/' :: '*' :: comment := by rw [gap, gap_openBlock h]
  simp only [scanAt, lexemes, hgap, List.drop_length]
  rfl

/-! ### Semicolons -/

theorem scanned_semicolons (n : Nat) (front : List Char) : ∃ semicolons, semicolons.length = n ∧
    (∀ l ∈ semicolons, l.token = .mark .semicolon ∧ byteLength front < l.stop) ∧
    Scanned front (List.replicate n ';') [] semicolons := by
  induction n generalizing front with
  | zero => exact ⟨[], rfl, List.forall_mem_nil _, scanned_layout .nil front []⟩
  | succ n ih =>
    obtain ⟨semicolons, hlength, hall, hscanned⟩ := ih (front ++ [';'])
    have hfirst := scanned_token (fits_character (m := .semicolon) (c := ';') (by decide) (List.replicate n ';' ++ []))
      front
    have hlt : byteLength front < byteLength (front ++ [';']) := by
      rw [byteLength_append]
      exact Nat.lt_add_of_pos_right (byteLength_pos (List.cons_ne_nil ';' []))
    exact ⟨_ :: semicolons, congrArg (· + 1) hlength,
      List.forall_mem_cons.2 ⟨⟨rfl, hlt⟩, fun l hl => ⟨(hall l hl).1, Nat.lt_trans hlt (hall l hl).2⟩⟩,
      hfirst.append hscanned⟩

end Scan

/-- **An open comment takes in what comes after it.** -/
theorem EndsInComment.scan_append {text : List Char} (h : EndsInComment text) :
    ∃ tokens, ∀ more, Scan.Breaks more → '/' ∉ more →
      scan (text ++ more) = .ok (tokens ++ [⟨.finish, byteLength (text ++ more), byteLength (text ++ more)⟩]) := by
  obtain ⟨body, comment, tokens, rfl, hcomment, hscanned⟩ := h
  refine ⟨tokens, fun more hmore hslash => ?_⟩
  have hbody := hscanned more hmore
  rw [Scan.Scanned, List.nil_append, Scan.scanAt_openBlock (Scan.not_infix_append hcomment hslash),
    ← byteLength_append] at hbody
  rw [List.append_assoc]
  exact hbody

/-! ## Slices -/

namespace Text

theorem eq_of_dropBytes {cs ds : List Char} {n : Nat} (h : dropBytes? n cs = some ds) :
    ∃ front, cs = front ++ ds ∧ byteLength front = n := by
  fun_induction dropBytes? n cs with
  -- the byte is reached
  | case1 cs =>
    cases h
    exact ⟨[], rfl, rfl⟩
  -- it is past the end, or within a character
  | case2 | case4 => cases h
  | case3 n c cs hle ih =>
    obtain ⟨front, rfl, hlength⟩ := ih h
    exact ⟨c :: front, rfl, by rw [byteLength_cons, hlength]; omega⟩

theorem eq_of_takeBytes {cs s : List Char} {n : Nat} (h : takeBytes? n cs = some s) :
    ∃ rest, cs = s ++ rest ∧ byteLength s = n := by
  fun_induction takeBytes? n cs generalizing s with
  -- the byte is reached
  | case1 cs =>
    cases h
    exact ⟨cs, rfl, rfl⟩
  -- it is past the end, or within a character
  | case2 | case4 => cases h
  | case3 n c cs hle ih =>
    obtain ⟨s, hs, rfl⟩ := Option.map_eq_some_iff.1 h
    obtain ⟨rest, rfl, hlength⟩ := ih hs
    exact ⟨rest, rfl, by rw [byteLength_cons, hlength]; omega⟩

/-- A slice stands in the text, and is as long as its bytes are apart. -/
theorem eq_of_slice {text s : List Char} {start stop : Nat} (h : slice? text start stop = some s) :
    ∃ front rest, text = front ++ (s ++ rest) ∧ byteLength front = start ∧ byteLength front + byteLength s = stop := by
  rw [slice?] at h
  split at h
  · obtain ⟨cs, hcs, hs⟩ := Option.bind_eq_some_iff.1 h
    obtain ⟨front, rfl, hstart⟩ := eq_of_dropBytes hcs
    obtain ⟨rest, rfl, hlength⟩ := eq_of_takeBytes hs
    exact ⟨front, rest, rfl, hstart, by omega⟩
  · cases h

end Text

namespace Parse

variable {text text' s : List Char} {ls : List Lexeme}

/-- A slice of a text is the same slice when the text goes on. -/
theorem source_of_starts (htext : text <+: text') (h : source text ls = .ok s) : source text' ls = .ok s := by
  cases ls with
  | nil => exact h
  | cons l ls =>
    simp only [source] at h ⊢
    split at h <;> cases h
    rename_i hslice
    obtain ⟨front, rest, rfl, hstart, hstop⟩ := eq_of_slice hslice
    obtain ⟨more, rfl⟩ := htext
    rw [← hstart, ← hstop, List.append_assoc, List.append_assoc, slice?_middle]

theorem condition?_of_starts (htext : text <+: text') {c : Option Condition} (h : condition? text ls = .ok c) :
    condition? text' ls = .ok c := by
  unfold condition? at h
  split at h
  · rw [condition?]
    split at h
    case h_4 => exact h
    all_goals
      obtain ⟨s, hs, h⟩ := Except.exists_of_bind h
      simp only [source_of_starts htext hs]
      exact h
  · rename_i hne
    rw [condition?]
    · exact h
    · exact hne

end Parse

end TableStore
