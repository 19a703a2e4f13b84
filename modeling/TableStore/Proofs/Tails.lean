import TableStore.Proofs.Conditions
import TableStore.Proofs.Layout

/-!
# Tails of statements

- the scanner is blind to where a text stands: some bytes further on it gives the same tokens or the same error, moved
  by these bytes (`Scan.scanAt_moved`);
- so a text with a written front before it is scanned into the tokens of the front and its own tokens, moved
  (`Scan.scan_front`), and as these stand at the same characters they make up the same condition
  (`Parse.condition?_congr`);
- the condition of a statement is therefore the condition that the text after its keyword is on its own, and a text
  that is not scanned on its own ends no statement either (`Statement.conditions_are_read_alike`).
-/

namespace TableStore

open Text

/-! ## Tokens that are moved -/

/-- A token some bytes further on. -/
def Lexeme.moved (n : Nat) (l : Lexeme) : Lexeme := ⟨l.token, n + l.start, n + l.stop⟩

@[simp] theorem Lexeme.moved_token (n : Nat) (l : Lexeme) : (l.moved n).token = l.token := rfl

/-- An error of the scan some bytes further on. -/
def Error.moved (n : Nat) : Error → Error
  | .unexpectedCharacter c p => .unexpectedCharacter c (n + p)
  | .unterminatedText p => .unterminatedText (n + p)
  | e => e

theorem Error.InText.moved {e : Error} (h : e.InText) (n : Nat) : (e.moved n).InText := by
  cases e with
  | unexpectedCharacter | unterminatedText => exact ⟨rfl, fun _ he => nomatch he⟩
  | _ => exact h

namespace Scan

variable {cs rest : List Char} {n : Nat} {ls : List Lexeme}

/-- What a scan gives some bytes further on. -/
def moved (n : Nat) : Except Error (List Lexeme) → Except Error (List Lexeme)
  | .ok ls => .ok (ls.map (Lexeme.moved n))
  | .error e => .error (e.moved n)

theorem readNumber_moved (n : Nat) (cs : List Char) : (readNumber cs).mapError (Error.moved n) = readNumber cs := by
  simp only [readNumber]
  split
  · rfl
  split <;> rfl

/-- Only the places in its errors depend on where a token is read. -/
theorem readToken_moved (n position : Nat) (cs : List Char) :
    readToken (n + position) cs = (readToken position cs).mapError (Error.moved n) := by
  cases cs with
  | nil => rfl
  | cons c cs =>
    rw [readToken, readToken]
    split
    · exact (readNumber_moved n _).symm
    split
    · rfl
    split
    · split <;> rfl
    split <;> rfl

theorem lexemes_moved (n fuel position : Nat) (cs : List Char) :
    lexemes fuel (n + position) cs = moved n (lexemes fuel position cs) := by
  induction fuel generalizing position cs with
  | zero => rfl
  | succ fuel ih =>
    simp only [lexemes]
    rw [Nat.add_assoc n, readToken_moved]
    cases readToken (position + byteLength (gap .blank cs)) (cs.drop (gap .blank cs).length) with
    | error e => rfl
    | ok found =>
      obtain ⟨t, chars⟩ := found
      simp only [Except.mapError, bind, Except.bind]
      rw [Nat.add_assoc n, ih]
      split
      · rfl
      · cases lexemes fuel (position + byteLength (gap .blank cs) + byteLength chars)
            ((cs.drop (gap .blank cs).length).drop chars.length) <;> rfl

/-- **The scanner is blind to where a text stands.** -/
theorem scanAt_moved (n : Nat) (cs : List Char) : scanAt n cs = moved n (scan cs) :=
  lexemes_moved n (cs.length + 1) 0 cs

/-! ## Texts with a front -/

open Piece

theorem lexemes_append (position : Nat) (ps qs : List Piece) : Piece.lexemes position (ps ++ qs) =
    Piece.lexemes position ps ++ Piece.lexemes (position + byteLength (textOf ps)) qs := by
  induction ps generalizing position with
  | nil => rfl
  | cons p ps ih =>
    cases p with
    | blank =>
      rw [List.cons_append, Piece.lexemes, Piece.lexemes, ih, textOf_cons, byteLength_append, ← Nat.add_assoc]
      rfl
    | token t chars =>
      rw [List.cons_append, Piece.lexemes, Piece.lexemes, ih, textOf_cons, byteLength_append, ← Nat.add_assoc]
      rfl

/-- The tokens of a written front come before those of what follows it. -/
theorem scanAt_textOf : ∀ {ps : List Piece}, FitAll ps rest → ∀ position, scanAt position (textOf ps ++ rest) =
    (scanAt (position + byteLength (textOf ps)) rest).map (Piece.lexemes position ps ++ ·)
  | [], _, position => by
    rw [textOf_nil, List.nil_append, byteLength_nil, Nat.add_zero]
    cases scanAt position rest <;> rfl
  | .blank :: ps, h, position => by
    have hblank : Layout [' '] := layout_of_blanks (by decide)
    rw [textOf_cons, text_blank, List.append_assoc, scanAt_layout hblank, scanAt_textOf h.2, byteLength_append,
      Nat.add_assoc]
    rfl
  | .token t chars :: ps, h, position => by
    have htoken := scanAt_token (h.1 (textOf ps ++ rest) rfl) position
    rw [textOf_cons, Piece.text, List.append_assoc, htoken, scanAt_textOf h.2, byteLength_append, Nat.add_assoc]
    cases scanAt (position + (byteLength chars + byteLength (textOf ps))) rest <;> rfl

theorem fitAll_front {ps : List Piece} (h : Firm ps) (rest : List Char) : FitAll (ps ++ [blank]) rest :=
  fitAll_append.2 ⟨h _ (ends_cons (by decide) rest), fun _ _ => trivial, trivial⟩

/-- A text after a front and a blank has the tokens of the front before its own. -/
theorem scan_front {ps : List Piece} (h : Firm ps) (cs : List Char) : scan (textOf (ps ++ [blank]) ++ cs) =
    (moved (byteLength (textOf (ps ++ [blank]))) (scan cs)).map (Piece.lexemes 0 (ps ++ [blank]) ++ ·) := by
  rw [scan_eq, scanAt_textOf (fitAll_front h cs), Nat.zero_add, scanAt_moved]

end Scan

/-! ## Conditions after a front -/

namespace Parse

open Scan

variable {text text' : List Char} {ls ls' : List Lexeme} {l l' : Lexeme}

/-- Tokens of two texts that are alike: the same token at the same characters. -/
def Alike (text text' : List Char) (l l' : Lexeme) : Prop :=
  l'.token = l.token ∧ source text' [l'] = source text [l]

theorem alike_moved (front : List Char) (h : Stands text l) :
    Alike text (front ++ text) l (l.moved (byteLength front)) := by
  obtain ⟨chars, -, -, hs, -⟩ := h
  refine ⟨rfl, ?_⟩
  simp only [source, List.getLastD_nil, Lexeme.moved, slice?_append] at hs ⊢
  cases hslice : slice? text l.start l.stop with
  | none =>
    rw [hslice] at hs
    cases hs
  | some s => rfl

/-- A condition is three tokens. -/
theorem condition?_of_length (h : ls.length ≠ 3) (text : List Char) : condition? text ls = .ok none := by
  unfold condition?
  split
  · exact absurd rfl h
  · rfl

/-- Only the tokens and their characters make up a condition. -/
theorem condition?_congr (h : List.Forall₂ (Alike text text') ls ls') : condition? text' ls' = condition? text ls := by
  by_cases hlength : ls.length = 3
  · obtain ⟨⟨t₁, s₁, e₁⟩, ⟨t₂, s₂, e₂⟩, l₃, rfl⟩ := List.length_eq_three.1 hlength
    obtain ⟨⟨t₁', s₁', e₁'⟩, ls', h₁, h', rfl⟩ := List.forall₂_cons_left_iff.1 h
    obtain ⟨⟨t₂', s₂', e₂'⟩, ls', h₂, h'', rfl⟩ := List.forall₂_cons_left_iff.1 h'
    obtain ⟨l₃', ls', ⟨ht, hs⟩, hnil, rfl⟩ := List.forall₂_cons_left_iff.1 h''
    obtain rfl := List.forall₂_nil_left_iff.1 hnil
    obtain rfl : t₁' = t₁ := h₁.1
    obtain rfl : t₂' = t₂ := h₂.1
    -- the first two tokens are a name and `=`, or there is no condition
    cases t₁' with
    | name column =>
      cases t₂' with
      | mark m =>
        cases m with
        | eq => simp only [condition?, ht, hs]
        | _ => rfl
      | _ => rfl
    | _ => rfl
  · rw [condition?_of_length hlength, condition?_of_length (h.length_eq ▸ hlength)]

theorem exists_of_condition (h : ∀ l ∈ ls, Stands text l) : ∃ c, condition? text ls = .ok c := by
  unfold condition?
  split
  · rename_i l
    obtain ⟨s, -, -, hs, -⟩ := h l (by simp)
    split <;> simp [hs, bind, Except.bind]
  · exact ⟨none, rfl⟩

/-- **The text after the keyword of a condition is read as it is on its own**, and nothing but the end is left. -/
theorem optionalCondition_tail {x : String} (hscan : scan x.toList = .ok ls)
    (hopen : ∀ l ∈ ls, l.token ≠ .mark .semicolon) (front : List Char) (start stop : Nat) :
    ∃ l, l.token = .finish ∧ optionalCondition (front ++ x.toList)
      (⟨.keyword .where, start, stop⟩ :: ls.map (Lexeme.moved (byteLength front))) = .ok (Condition.parse? x, [l]) := by
  obtain ⟨tokens, rfl, htokens⟩ := (spans_of_scan hscan).finish
  have hstands : ∀ l ∈ tokens, Stands x.toList l := fun l hl => stands_of_scan hscan l (List.mem_append_left _ hl)
  have hmoved : List.Forall₂ (Alike x.toList (front ++ x.toList)) tokens
      (tokens.map (Lexeme.moved (byteLength front))) :=
    List.forall₂_map_right_iff.2 (List.forall₂_same.2 fun l hl => alike_moved front (hstands l hl))
  obtain ⟨c, hc⟩ := exists_of_condition hstands
  have hin : ∀ l ∈ tokens.map (Lexeme.moved (byteLength front)), inCondition l = true := by
    simp only [List.mem_map, forall_exists_index, and_imp, forall_apply_eq_imp_iff₂]
    intro l hl
    simp [inCondition, htokens l hl, hopen l (List.mem_append_left _ hl)]
  have hparse : Condition.parse? x = c := by
    simp only [Condition.parse?, hscan, List.dropLast_concat, hc]
  refine ⟨Lexeme.moved (byteLength front) ⟨.finish, byteLength x.toList, byteLength x.toList⟩, rfl, ?_⟩
  rw [List.map_append, optionalCondition, List.takeWhile_append_of_pos hin, List.dropWhile_append_of_pos hin]
  simp [inCondition, condition?_congr hmoved, hc, hparse, bind, Except.bind]

end Parse

/-! ## Statements with a condition -/

namespace Statement

open Scan Piece

variable {t x front : String} {ps : List Piece}

/-- The pieces of a statement up to what its condition says. -/
def opened (ps : List Piece) : List Piece := ps ++ blank :: [keyword .where] ++ [blank]

/-- **A statement whose front is read up to the condition has the condition of the text after it**, or fails with its
error. -/
theorem parse_opened {f : Option Condition → Statement} (hps : Firm ps)
    (hread : ∀ text ls c rest, Parse.optionalCondition text ls = .ok (c, rest) →
      Parse.statement text (Piece.lexemes 0 ps ++ ls) = .ok (f c, rest))
    (hfront : front.toList = textOf (opened ps)) :
    (∀ ls, scan x.toList = .ok ls → (∀ l ∈ ls, l.token ≠ .mark .semicolon) →
      parse (front ++ x) = .ok (f (Condition.parse? x))) ∧
    ∀ e, scan x.toList = .error e → parse (front ++ x) = .error (e.moved (byteLength front.toList)) := by
  have hwhere : Firm [keyword .where] := firm_singleton (fits_keyword .where)
  have hscan := scan_front (hps.append_blank hwhere) x.toList
  rw [← opened, ← hfront, ← String.toList_append] at hscan
  refine ⟨fun ls hls hopen => ?_, fun e he => ?_⟩
  · obtain ⟨l, hl, hcondition⟩ := Parse.optionalCondition_tail hls hopen front.toList
      (byteLength (textOf ps) + 1) (byteLength (textOf ps) + 1 + byteLength Keyword.where.text.toList)
    have hstatement := hread _ _ _ _ hcondition
    have htokens : Piece.lexemes 0 (opened ps) = Piece.lexemes 0 ps ++ [⟨.keyword .where, byteLength (textOf ps) + 1,
        byteLength (textOf ps) + 1 + byteLength Keyword.where.text.toList⟩] := by
      rw [opened, List.append_assoc, lexemes_append, Nat.zero_add]
      rfl
    rw [hls, htokens] at hscan
    simp only [moved, Except.map, List.append_assoc, List.cons_append, List.nil_append] at hscan
    rw [← String.toList_append] at hstatement
    simp only [parse, hscan, hstatement, bind, Except.bind, Parse.endOfStatement]
    simp [hl]
  · rw [he] at hscan
    simp only [parse, hscan, moved, Except.map, bind, Except.bind]

/-- The pieces of a selection of all columns up to its condition. -/
def selectFront (t : String) : List Piece :=
  keyword .select :: blank :: mark .asterisk :: blank :: keyword .from :: blank :: [name t]

/-- The pieces of a deletion up to its condition. -/
def deleteFront (t : String) : List Piece := keyword .delete :: blank :: keyword .from :: blank :: [name t]

theorem firm_selectFront (t : String) : Firm (selectFront t) :=
  firm_keyword .select ((firm_projection .all).append_blank (firm_keyword .from (firm_name t)))

theorem firm_deleteFront (t : String) : Firm (deleteFront t) := firm_keyword .delete (firm_keyword .from (firm_name t))

theorem statement_selectFront {text : List Char} {ls rest : List Lexeme} {c : Option Condition}
    (h : Parse.optionalCondition text ls = .ok (c, rest)) :
    Parse.statement text (Piece.lexemes 0 (selectFront t) ++ ls) = .ok (.select .all t c, rest) := by
  simp [selectFront, Piece.lexemes, keyword, mark, name, Parse.statement, Parse.select, Parse.projection, h, bind,
    Except.bind]

theorem statement_deleteFront {text : List Char} {ls rest : List Lexeme} {c : Option Condition}
    (h : Parse.optionalCondition text ls = .ok (c, rest)) :
    Parse.statement text (Piece.lexemes 0 (deleteFront t) ++ ls) = .ok (.delete t c, rest) := by
  simp [deleteFront, Piece.lexemes, keyword, name, Parse.statement, Parse.delete, h, bind, Except.bind]

/-- A bare name is written as it is. -/
theorem toList_selectFront (ht : isBareName t.toList) :
    ("SELECT * FROM " ++ t ++ " WHERE ").toList = textOf (opened (selectFront t)) := by
  have hfront : "SELECT * FROM ".toList = Keyword.select.text.toList ++ ' ' :: (Mark.asterisk.text.toList ++ ' ' ::
    (Keyword.from.text.toList ++ [' '])) := by decide
  have hwhere : " WHERE ".toList = ' ' :: (Keyword.where.text.toList ++ [' ']) := by decide
  simp only [String.toList_append, hfront, hwhere, opened, selectFront, textOf_cons, textOf_nil, text_keyword,
    text_mark, text_name, text_blank, writeName, ht, if_true, List.append_assoc, List.cons_append, List.nil_append,
    List.append_nil]

theorem toList_deleteFront (ht : isBareName t.toList) :
    ("DELETE FROM " ++ t ++ " WHERE ").toList = textOf (opened (deleteFront t)) := by
  have hfront : "DELETE FROM ".toList = Keyword.delete.text.toList ++ ' ' :: (Keyword.from.text.toList ++ [' ']) := by
    decide
  have hwhere : " WHERE ".toList = ' ' :: (Keyword.where.text.toList ++ [' ']) := by decide
  simp only [String.toList_append, hfront, hwhere, opened, deleteFront, textOf_cons, textOf_nil, text_keyword,
    text_name, text_blank, writeName, ht, if_true, List.append_assoc, List.cons_append, List.nil_append,
    List.append_nil]

/-- **The condition of a statement is the one that its text is on its own.** After `SELECT * FROM t WHERE` and after
`DELETE FROM t WHERE` with a bare name `t`, every text that is scanned, without a semicolon in it, is read as the
condition that it is on its own, or passed over when it is none. A text that is not scanned is no condition, and both
statements fail with its error, which is one of syntax and tells the place in the statement. -/
theorem conditions_are_read_alike (t x : String) (ht : isBareName t.toList) :
    let selected := "SELECT * FROM " ++ t ++ " WHERE "
    let deleted := "DELETE FROM " ++ t ++ " WHERE "
    (∀ ls, scan x.toList = .ok ls → (∀ l ∈ ls, l.token ≠ .mark .semicolon) →
      parse (selected ++ x) = .ok (.select .all t (Condition.parse? x)) ∧
      parse (deleted ++ x) = .ok (.delete t (Condition.parse? x))) ∧
    ∀ e, scan x.toList = .error e → Condition.parse? x = none ∧ ∀ front ∈ [selected, deleted],
      parse (front ++ x) = .error (e.moved (byteLength front.toList)) ∧
      (e.moved (byteLength front.toList)).InText := by
  intro selected deleted
  have hselected := parse_opened (x := x) (firm_selectFront t) (fun _ _ _ _ => statement_selectFront)
    (toList_selectFront ht)
  have hdeleted := parse_opened (x := x) (firm_deleteFront t) (fun _ _ _ _ => statement_deleteFront)
    (toList_deleteFront ht)
  refine ⟨fun ls hls hopen => ⟨hselected.1 ls hls hopen, hdeleted.1 ls hls hopen⟩, fun e he => ⟨?_, ?_⟩⟩
  · simp only [Condition.parse?, he]
  · have hmoved : ∀ n, (e.moved n).InText := fun n => (located_of_scan he).inText.moved n
    simp only [List.forall_mem_cons, List.not_mem_nil, false_implies, implies_true, and_true]
    exact ⟨⟨hselected.2 e he, hmoved _⟩, hdeleted.2 e he, hmoved _⟩

/-- A condition with wide characters and comments around it, a text that is no condition, and one that is not
scanned. -/
theorem conditions_read_alike_after_a_wide_name :
    parse ("DELETE FROM " ++ "tä" ++ " WHERE " ++ "/* 日 */`é b`=-.5--'") =
      .ok (.delete "tä" (some ⟨"é b", .real ⟨0xBFE0000000000000⟩⟩)) ∧
    parse ("SELECT * FROM " ++ "tä" ++ " WHERE " ++ "a = - 5") = .ok (.select .all "tä" none) ∧
    Condition.parse? "é = 'a" = none ∧
    parse ("SELECT * FROM " ++ "tä" ++ " WHERE " ++ "é = 'a") = .error (.unterminatedText 29) ∧
    (Error.unterminatedText 29).InText := by
  have ht : isBareName "tä".toList := by decide +kernel
  have hscan : scan "/* 日 */`é b`=-.5--'".toList = .ok [⟨.name "é b", 9, 15⟩, ⟨.mark .eq, 15, 16⟩,
    ⟨.number "-.5", 16, 19⟩, ⟨.finish, 22, 22⟩] := Except.eq_ok_of_toOption (by decide +kernel)
  have hspaced : scan "a = - 5".toList = .ok [⟨.name "a", 0, 1⟩, ⟨.mark .eq, 2, 3⟩, ⟨.mark .minus, 4, 5⟩,
    ⟨.number "5", 6, 7⟩, ⟨.finish, 7, 7⟩] := Except.eq_ok_of_toOption (by decide +kernel)
  have hquote : scan "é = 'a".toList = .error (.unterminatedText 5) := by decide +kernel
  have hread : Condition.parse? "/* 日 */`é b`=-.5--'" = some ⟨"é b", .real ⟨0xBFE0000000000000⟩⟩ := by decide +kernel
  have hnone : Condition.parse? "a = - 5" = none := by decide +kernel
  obtain ⟨hno, hfails⟩ := (conditions_are_read_alike "tä" "é = 'a" ht).2 _ hquote
  have hlength : byteLength ("SELECT * FROM " ++ "tä" ++ " WHERE ").toList = 24 := by decide +kernel
  have hfailed := hfails _ List.mem_cons_self
  rw [hlength] at hfailed
  refine ⟨?_, ?_, hno, hfailed⟩
  · rw [← hread]
    exact ((conditions_are_read_alike "tä" _ ht).1 _ hscan (by decide)).2
  · rw [← hnone]
    exact ((conditions_are_read_alike "tä" _ ht).1 _ hspaced (by decide)).1

end Statement

end TableStore
