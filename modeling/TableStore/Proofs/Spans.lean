import Mathlib.Control.Monad.Basic
import TableStore.Proofs.Accepted
import TableStore.Proofs.Scanning

/-!
# Spans of tokens

- blanks and comments stand between tokens, and a comment goes up to the first end of it (`Scan.Skipped`,
  `Scan.skipped_gap`);
- every token is read in one of five ways (`Scan.Reads`), and an error tells the byte that it is about (`Located`);
- a text that is scanned is cut into its tokens and what is skipped before each (`Scan.Cut`, `Scan.cut_of_lexemes`), so
  the spans of its tokens part the text (`Spans`, `spans_part_text`).
-/

namespace TableStore

namespace Text

/-- A byte at which a character starts or the text ends. -/
def IsBoundary (text : List Char) (n : Nat) : Prop := ∃ front rest, text = front ++ rest ∧ byteLength front = n

/-- No quote closes a text that goes on after an opening one: after any quote that could, there is another one. -/
def Unclosed (q : Char) (cs : List Char) : Prop := ∀ s rest, cs = double q s ++ q :: rest → rest.head? = some q

theorem unclosed_of_readQuoted {q : Char} {cs : List Char} (h : readQuoted q cs = none) : Unclosed q cs := by
  rintro s rest rfl
  by_contra hrest
  rw [readQuoted_double q s rest hrest] at h
  cases h

theorem byteLength_pos {cs : List Char} (h : cs ≠ []) : 0 < byteLength cs := by
  obtain ⟨c, cs, rfl⟩ := List.exists_cons_of_ne_nil h
  rw [byteLength_cons]
  have hc := c.utf8Size_pos
  omega

end Text

open Text

namespace Scan

variable {c q : Char} {cs chars rest skipped : List Char} {t : Token} {position fuel n : Nat} {ls : List Lexeme}

/-! ## Blanks and comments -/

/-- Blanks and comments before a text; a comment that is not closed has nothing after it. -/
inductive Skipped : List Char → List Char → Prop
  | nil (rest : List Char) : Skipped [] rest
  | blank {c : Char} {cs rest : List Char} (hc : isBlank c) (h : Skipped cs rest) : Skipped (c :: cs) rest
  | line {body cs rest : List Char} (hbody : '\n' ∉ body) (h : Skipped cs rest) :
      Skipped ('-' :: '-' :: (body ++ '\n' :: cs)) rest
  | lastLine {body : List Char} (hbody : '\n' ∉ body) : Skipped ('-' :: '-' :: body) []
  | block {body cs rest : List Char} (hbody : ¬['*', '/'] <:+: body ++ ['*']) (h : Skipped cs rest) :
      Skipped ('/' :: '*' :: (body ++ '*' :: '/' :: cs)) rest
  | openBlock {body : List Char} (hbody : ¬['*', '/'] <:+: body) : Skipped ('/' :: '*' :: body) []

/-- What is skipped from inside a comment on, or between tokens. -/
def SkippedFrom : Gap → List Char → List Char → Prop
  | .blank, cs, rest => Skipped cs rest
  | .lineComment, cs, rest => ∃ body, '\n' ∉ body ∧
      ((cs = body ∧ rest = []) ∨ ∃ later, cs = body ++ '\n' :: later ∧ Skipped later rest)
  | .blockComment, cs, rest => ∃ body, (cs = body ∧ rest = [] ∧ ¬['*', '/'] <:+: body) ∨
      ∃ later, cs = body ++ '*' :: '/' :: later ∧ ¬['*', '/'] <:+: body ++ ['*'] ∧ Skipped later rest

/-- The end of a comment does not stand in a text that has one more character before it. -/
theorem not_infix_cons (h : ¬['*', '/'] <:+: cs) (hc : c = '*' → cs.head? ≠ some '/') : ¬['*', '/'] <:+: c :: cs := by
  rw [List.infix_cons_iff, not_or]
  refine ⟨fun hprefix => ?_, h⟩
  obtain ⟨hstar, hslash⟩ := List.cons_prefix_cons.1 hprefix
  obtain ⟨ds, rfl⟩ := hslash
  exact hc hstar.symm rfl

/-- What is passed over is blanks and comments. -/
theorem skippedFrom_gap (g : Gap) (cs : List Char) : ∀ rest, cs = gap g cs ++ rest → SkippedFrom g (gap g cs) rest := by
  fun_induction gap g cs with
  -- the end of the text
  | case1 g =>
    intro rest h
    obtain rfl : rest = [] := h.symm
    cases g with
    | blank => exact .nil []
    | lineComment => exact ⟨[], List.not_mem_nil, .inl ⟨rfl, rfl⟩⟩
    | blockComment => exact ⟨[], .inl ⟨rfl, rfl, by decide⟩⟩
  -- the end of a line
  | case2 cs ih =>
    intro rest h
    exact ⟨[], List.not_mem_nil, .inr ⟨_, rfl, ih rest (List.cons.inj h).2⟩⟩
  -- another character of a comment to the end of its line
  | case3 c cs hc ih =>
    intro rest h
    obtain ⟨body, hbody, hend⟩ := ih rest (List.cons.inj h).2
    refine ⟨c :: body, fun hmem => (List.mem_cons.1 hmem).elim (fun he => hc he.symm) hbody, ?_⟩
    rcases hend with ⟨hgap, hrest⟩ | ⟨later, hgap, hlater⟩
    · exact .inl ⟨congrArg (c :: ·) hgap, hrest⟩
    · exact .inr ⟨later, congrArg (c :: ·) hgap, hlater⟩
  -- the end of a comment between marks
  | case4 cs ih =>
    intro rest h
    exact ⟨[], .inr ⟨_, rfl, by decide, ih rest (List.cons.inj (List.cons.inj h).2).2⟩⟩
  -- another character of a comment between marks: it is not the first of the closing mark
  | case5 c cs hc ih =>
    intro rest h
    have hcs : cs = gap .blockComment cs ++ rest := (List.cons.inj h).2
    have hslash : c = '*' → cs.head? ≠ some '/' := fun hstar hhead => by
      obtain ⟨ds, hds⟩ := List.head?_eq_some_iff.1 hhead
      exact hc ds hstar hds
    obtain ⟨body, ⟨hgap, hrest, hbody⟩ | ⟨later, hgap, hbody, hlater⟩⟩ := ih rest hcs
    · refine ⟨c :: body, .inl ⟨congrArg (c :: ·) hgap, hrest, not_infix_cons hbody ?_⟩⟩
      rw [hgap, hrest, List.append_nil] at hcs
      exact hcs ▸ hslash
    · refine ⟨c :: body, .inr ⟨later, congrArg (c :: ·) hgap, not_infix_cons hbody ?_, hlater⟩⟩
      have hhead : (body ++ ['*']).head? = cs.head? := by
        rw [hcs, hgap]
        cases body <;> rfl
      exact fun hstar hslash' => hslash hstar (hhead.symm.trans hslash')
  -- two minus signs
  | case6 cs ih =>
    intro rest h
    obtain ⟨body, hbody, ⟨hgap, hrest⟩ | ⟨later, hgap, hlater⟩⟩ :=
      ih rest (List.cons.inj (List.cons.inj h).2).2
    · subst hrest
      rw [hgap]
      exact .lastLine hbody
    · rw [hgap]
      exact .line hbody hlater
  -- an opening mark
  | case7 cs ih =>
    intro rest h
    obtain ⟨body, ⟨hgap, hrest, hbody⟩ | ⟨later, hgap, hbody, hlater⟩⟩ :=
      ih rest (List.cons.inj (List.cons.inj h).2).2
    · subst hrest
      rw [hgap]
      exact .openBlock hbody
    · rw [hgap]
      exact .block hbody hlater
  -- a blank
  | case8 c cs _ _ hc ih => exact fun rest h => .blank hc (ih rest (List.cons.inj h).2)
  -- the token that comes next
  | case9 c cs => exact fun rest _ => .nil rest

theorem skipped_gap (cs : List Char) : Skipped (gap .blank cs) (cs.drop (gap .blank cs).length) :=
  skippedFrom_gap .blank cs _ (List.prefix_iff_eq_append.1 (starts_gap .blank cs)).symm

/-! ## Single tokens -/

/-- How a token with its characters is read at the front of a text. -/
inductive Reads (cs : List Char) : Token → List Char → Prop
  | finish (h : cs = []) : Reads cs .finish []
  | number {chars : List Char} (hstart : startsNumber cs) (hchars : chars = signedNumberChars cs)
      (hvalue : (Literal.readNumber? chars).isSome) : Reads cs (.number (String.ofList chars)) chars
  | mark {m : Mark} {chars : List Char} (h : readMark? cs = some (m, chars)) : Reads cs (.mark m) chars
  | quoted {q : Char} {token : String → Token} (hq : quotedToken? q = some token) (s : List Char) :
      Reads cs (token (String.ofList s)) (enclose q s)
  | word {c : Char} {word : List Char} (hc : startsWord c) (hword : word.all inWord) :
      Reads cs (wordToken (c :: word)) (c :: word)

theorem reads_of_readToken (h : readToken position cs = .ok (t, chars)) : Reads cs t chars := by
  cases cs with
  | nil =>
    cases h
    exact .finish rfl
  | cons c cs =>
    rw [readToken] at h
    split at h
    · rename_i hstart
      simp only [readNumber] at h
      split at h
      · cases h
      split at h <;> cases h
      exact .number hstart rfl ‹_›
    split at h
    · rename_i hmark
      cases h
      exact .mark hmark
    split at h
    · rename_i hquoted
      split at h <;> cases h
      exact .quoted hquoted _
    split at h <;> cases h
    rename_i hc
    rw [List.takeWhile_cons_of_pos (inWord_of_startsWord hc)]
    exact .word hc (List.all_takeWhile)

/-- Only the end of the text is without characters. -/
theorem Reads.ne_nil_iff (h : Reads cs t chars) : t ≠ .finish ↔ chars ≠ [] := by
  cases h with
  | finish => simp
  | number _ _ hvalue =>
    refine ⟨fun _ hnil => ?_, fun _ h => nomatch h⟩
    rw [hnil] at hvalue
    exact absurd hvalue (by decide)
  | mark hmark =>
    refine ⟨fun _ => ?_, fun _ h => nomatch h⟩
    unfold readMark? at hmark
    split at hmark <;> cases hmark <;> exact List.cons_ne_nil _ _
  | quoted hq s => exact ⟨fun _ => List.cons_ne_nil _ _, fun _ => (mem_quotes_of_quotedToken hq).2 _⟩
  | word => exact ⟨fun _ => List.cons_ne_nil _ _, fun _ => wordToken_ne_finish _⟩

theorem Reads.eq_nil (h : Reads cs .finish chars) : cs = [] := by
  generalize ht : Token.finish = t at h
  cases h with
  | finish h => exact h
  | number | mark => cases ht
  | quoted hq s => exact absurd ht.symm ((mem_quotes_of_quotedToken hq).2 _)
  | word => exact absurd ht.symm (wordToken_ne_finish _)

end Scan

/-! ## Errors -/

/-- An error of the scan tells what stands in the text: a character, a quote that nothing closes, or a number with what
is glued to it. -/
def Located (text : List Char) : Error → Prop
  | .unexpectedCharacter c p => ∃ front rest, text = front ++ c :: rest ∧ byteLength front = p
  | .unterminatedText p => ∃ front q rest, text = front ++ q :: rest ∧ byteLength front = p ∧
      q ∈ ['\'', '"', '`'] ∧ Unclosed q rest
  | .invalidNumber number => number.toList <:+: text
  | _ => False

/-- An error of syntax that is about the text, and no slip of the reader. -/
def Error.InText (e : Error) : Prop := e.kind = .syntactic ∧ ∀ f, e ≠ .fault f

theorem Located.inText {text : List Char} {e : Error} (h : Located text e) : e.InText := by
  unfold Located at h
  split at h
  · exact ⟨rfl, fun _ he => nomatch he⟩
  · exact ⟨rfl, fun _ he => nomatch he⟩
  · exact ⟨rfl, fun _ he => nomatch he⟩
  · exact h.elim

namespace Scan

variable {c q : Char} {cs chars rest skipped front : List Char} {t : Token} {position fuel n : Nat} {ls : List Lexeme}
  {e : Error}

theorem located_of_readNumber (h : readNumber cs = .error e) (front : List Char) : Located (front ++ cs) e := by
  have hcs := List.prefix_iff_eq_append.1 (starts_signedNumberChars cs)
  have hinfix : ∀ number, number <+: cs → number <:+: front ++ cs := fun number hnumber =>
    hnumber.isInfix.trans (List.suffix_append front cs).isInfix
  simp only [readNumber] at h
  split at h
  · cases h
    rw [Located, String.toList_ofList]
    have hglued := (List.prefix_append_right_inj (signedNumberChars cs)).2
      (List.takeWhile_prefix (l := cs.drop (signedNumberChars cs).length) inWord)
    rw [hcs] at hglued
    exact hinfix _ hglued
  split at h <;> cases h
  rw [Located, String.toList_ofList]
  exact hinfix _ (starts_signedNumberChars cs)

theorem located_of_readToken (h : readToken (byteLength front) cs = .error e) : Located (front ++ cs) e := by
  cases cs with
  | nil => cases h
  | cons c cs =>
    rw [readToken] at h
    split at h
    · exact located_of_readNumber h front
    split at h
    · cases h
    split at h
    · rename_i hquoted
      split at h <;> cases h
      rename_i hread
      exact ⟨front, c, cs, rfl, rfl, (mem_quotes_of_quotedToken hquoted).1, unclosed_of_readQuoted hread⟩
    split at h <;> cases h
    exact ⟨front, cs, rfl, rfl⟩

/-! ## Whole texts -/

/-- A text from a byte on, cut into tokens and what is skipped before each of them. -/
inductive Cut : Nat → List Char → List Lexeme → Prop
  | finish {n : Nat} {skipped : List Char} (h : Skipped skipped []) :
      Cut n skipped [⟨.finish, n + byteLength skipped, n + byteLength skipped⟩]
  | token {n : Nat} {skipped chars rest : List Char} {t : Token} {later : List Lexeme}
      (hskipped : Skipped skipped (chars ++ rest)) (ht : t ≠ .finish) (hchars : chars ≠ [])
      (hlater : Cut (n + byteLength skipped + byteLength chars) rest later) :
      Cut n (skipped ++ (chars ++ rest))
        (⟨t, n + byteLength skipped, n + byteLength skipped + byteLength chars⟩ :: later)

theorem drop_gap (cs : List Char) : gap .blank cs ++ cs.drop (gap .blank cs).length = cs :=
  List.prefix_iff_eq_append.1 (starts_gap .blank cs)

/-- **A text is cut into its tokens, or the error tells why not.** -/
theorem cut_of_lexemes : ∀ {fuel : Nat} (front : List Char) {cs : List Char}, cs.length < fuel →
    match lexemes fuel (byteLength front) cs with
    | .ok ls => Cut (byteLength front) cs ls
    | .error e => Located (front ++ cs) e
  | fuel + 1, front, cs, hlt => by
    obtain ⟨skipped, rest, rfl, hskipped, hlexemes⟩ : ∃ skipped rest, cs = skipped ++ rest ∧ Skipped skipped rest ∧
        gap .blank cs = skipped := ⟨_, _, (drop_gap cs).symm, skipped_gap cs, rfl⟩
    simp only [lexemes, hlexemes, List.drop_left, ← byteLength_append, bind, Except.bind]
    cases hread : readToken (byteLength (front ++ skipped)) rest with
    | error e =>
      rw [← List.append_assoc]
      exact located_of_readToken hread
    | ok found =>
      obtain ⟨t, chars⟩ := found
      have hreads := reads_of_readToken hread
      obtain ⟨rest, rfl⟩ := starts_readToken hread
      dsimp only
      by_cases ht : t = .finish
      · subst ht
        obtain ⟨rfl, rfl⟩ := List.append_eq_nil_iff.1 hreads.eq_nil
        simp only [if_true, List.append_nil, byteLength_append] at hskipped ⊢
        exact .finish hskipped
      · have hchars := hreads.ne_nil_iff.1 ht
        have hfewer : rest.length < fuel := by
          have hpos := List.length_pos_iff.2 hchars
          simp only [List.length_append] at hlt
          omega
        have ih := cut_of_lexemes (front ++ skipped ++ chars) hfewer
        rw [if_neg ht, List.drop_left]
        cases hlater : lexemes fuel (byteLength (front ++ skipped ++ chars)) rest with
        | error e =>
          rw [hlater] at ih
          simpa only [List.append_assoc] using ih
        | ok later =>
          rw [hlater] at ih
          simp only [byteLength_append] at ih ⊢
          exact .token hskipped ht hchars ih

end Scan

/-- Blanks and comments are all that stands between two bytes. -/
def OnlySkipped (text : List Char) (start stop : Nat) : Prop :=
  ∃ front skipped rest, text = front ++ (skipped ++ rest) ∧ byteLength front = start ∧
    byteLength (front ++ skipped) = stop ∧ Scan.Skipped skipped rest

/-- From a byte on, what is outside of the tokens is blanks and comments. -/
def Spaced (text : List Char) : Nat → List Lexeme → Prop
  | n, [] => n = byteLength text
  | n, l :: ls => OnlySkipped text n l.start ∧ Spaced text l.stop ls

/-- Tokens whose spans part a text. -/
structure Spans (text : List Char) (ls : List Lexeme) : Prop where
  /-- The last token and no other is the end of the text. -/
  finish : ∃ tokens, ls = tokens ++ [⟨.finish, byteLength text, byteLength text⟩] ∧ ∀ l ∈ tokens, l.token ≠ .finish
  /-- Every other token takes at least a byte. -/
  nonempty : ∀ l ∈ ls, l.token ≠ .finish → l.start < l.stop
  /-- Tokens start and stop at characters. -/
  boundary : ∀ l ∈ ls, IsBoundary text l.start ∧ IsBoundary text l.stop
  /-- Tokens come one after the other and have no byte in common. -/
  ordered : ls.Pairwise fun l m => l.start < m.start ∧ l.stop ≤ m.start
  /-- Before, between and after them are blanks and comments. -/
  spaced : Spaced text 0 ls

namespace Scan.Cut

variable {front cs : List Char} {ls : List Lexeme} {n : Nat}

theorem le_start (h : Cut n cs ls) : ∀ l ∈ ls, n ≤ l.start := by
  induction h with
  | finish => exact List.forall_mem_singleton.2 (Nat.le_add_right _ _)
  | token _ _ _ _ ih =>
    refine List.forall_mem_cons.2 ⟨Nat.le_add_right _ _, fun l hl => ?_⟩
    have hl := ih l hl
    omega

theorem nonempty (h : Cut n cs ls) : ∀ l ∈ ls, l.token ≠ .finish → l.start < l.stop := by
  induction h with
  | finish => exact List.forall_mem_singleton.2 fun h => absurd rfl h
  | token _ _ hchars _ ih =>
    exact List.forall_mem_cons.2 ⟨fun _ => Nat.lt_add_of_pos_right (byteLength_pos hchars), ih⟩

theorem ordered (h : Cut n cs ls) : ls.Pairwise fun l m => l.start < m.start ∧ l.stop ≤ m.start := by
  induction h with
  | finish => exact List.pairwise_singleton _ _
  | token _ _ hchars hlater ih =>
    refine List.pairwise_cons.2 ⟨fun m hm => ?_, ih⟩
    have hle := hlater.le_start m hm
    exact ⟨Nat.lt_of_lt_of_le (Nat.lt_add_of_pos_right (byteLength_pos hchars)) hle, hle⟩

theorem finish_eq (h : Cut n cs ls) : ∃ tokens, ls = tokens ++ [⟨.finish, n + byteLength cs, n + byteLength cs⟩] ∧
    ∀ l ∈ tokens, l.token ≠ .finish := by
  induction h with
  | finish => exact ⟨[], rfl, List.forall_mem_nil _⟩
  | @token n skipped chars rest t later _ ht _ _ ih =>
    obtain ⟨tokens, rfl, htokens⟩ := ih
    let l : Lexeme := ⟨t, n + byteLength skipped, n + byteLength skipped + byteLength chars⟩
    refine ⟨l :: tokens, ?_, List.forall_mem_cons.2 ⟨ht, htokens⟩⟩
    simp only [l, byteLength_append, Nat.add_assoc, List.cons_append]

theorem boundary (h : Cut n cs ls) : ∀ front, byteLength front = n →
    ∀ l ∈ ls, IsBoundary (front ++ cs) l.start ∧ IsBoundary (front ++ cs) l.stop := by
  induction h with
  | @finish n skipped _ =>
    rintro front rfl
    have hend : IsBoundary (front ++ skipped) (byteLength front + byteLength skipped) :=
      ⟨front ++ skipped, [], (List.append_nil _).symm, byteLength_append _ _⟩
    exact List.forall_mem_singleton.2 ⟨hend, hend⟩
  | @token n skipped chars rest t later _ _ _ _ ih =>
    rintro front rfl
    have hstart : IsBoundary (front ++ (skipped ++ (chars ++ rest))) (byteLength front + byteLength skipped) :=
      ⟨front ++ skipped, chars ++ rest, by simp only [List.append_assoc], byteLength_append _ _⟩
    have hstop : IsBoundary (front ++ (skipped ++ (chars ++ rest)))
        (byteLength front + byteLength skipped + byteLength chars) :=
      ⟨front ++ skipped ++ chars, rest, by simp only [List.append_assoc], by simp only [byteLength_append]⟩
    have hlater := ih (front ++ skipped ++ chars) (by simp only [byteLength_append])
    simp only [List.append_assoc] at hlater
    exact List.forall_mem_cons.2 ⟨⟨hstart, hstop⟩, hlater⟩

theorem spaced (h : Cut n cs ls) : ∀ front, byteLength front = n → Spaced (front ++ cs) n ls := by
  induction h with
  | @finish n skipped h =>
    rintro front rfl
    refine ⟨⟨front, skipped, [], ?_, rfl, byteLength_append _ _, h⟩, (byteLength_append _ _).symm⟩
    rw [List.append_nil]
  | @token n skipped chars rest t later hskipped _ _ _ ih =>
    rintro front rfl
    have hlater := ih (front ++ skipped ++ chars) (by simp only [byteLength_append])
    simp only [List.append_assoc] at hlater
    exact ⟨⟨front, skipped, chars ++ rest, rfl, rfl, byteLength_append _ _, hskipped⟩, hlater⟩

theorem spans (h : Cut 0 cs ls) : Spans cs ls where
  finish := by simpa only [Nat.zero_add] using h.finish_eq
  nonempty := h.nonempty
  boundary := h.boundary [] rfl
  ordered := h.ordered
  spaced := h.spaced [] rfl

end Scan.Cut

theorem spans_of_scan {text : List Char} {ls : List Lexeme} (h : scan text = .ok ls) : Spans text ls := by
  have hcut := Scan.cut_of_lexemes [] (Nat.lt_succ_self text.length)
  rw [scan] at h
  rw [byteLength_nil, h] at hcut
  exact hcut.spans

theorem located_of_scan {text : List Char} {e : Error} (h : scan text = .error e) : Located text e := by
  have hcut := Scan.cut_of_lexemes [] (Nat.lt_succ_self text.length)
  rw [scan] at h
  rw [byteLength_nil, h] at hcut
  exact hcut

/-- **The spans of its tokens part every text that is scanned**, and of every other text the error tells what stands
where: a character that starts no token, a quote that nothing closes, or a number that is none. -/
theorem spans_part_text (text : List Char) : (∀ ls, scan text = .ok ls → Spans text ls) ∧
    ∀ e, scan text = .error e → Located text e :=
  ⟨fun _ => spans_of_scan, fun _ => located_of_scan⟩

/-- Spans are counted in bytes where characters take more than one, and so are the places in errors. -/
theorem spans_of_wide_characters :
    let text := "é/* 日 ** */ <='ß' -- 日".toList
    let ls : List Lexeme := [⟨.name "é", 0, 2⟩, ⟨.mark .le, 15, 17⟩, ⟨.string "ß", 17, 21⟩, ⟨.finish, 28, 28⟩]
    scan text = .ok ls ∧ Spans text ls ∧
    scan "日 ?".toList = .error (.unexpectedCharacter '?' 4) ∧
    Located "日 ?".toList (.unexpectedCharacter '?' 4) ∧
    scan "日 'a''".toList = .error (.unterminatedText 4) ∧ Located "日 'a''".toList (.unterminatedText 4) := by
  intro text ls
  have hscan : scan text = .ok ls := Except.eq_ok_of_toOption (by decide +kernel)
  have hcharacter : scan "日 ?".toList = .error (.unexpectedCharacter '?' 4) := by decide +kernel
  have hquote : scan "日 'a''".toList = .error (.unterminatedText 4) := by decide +kernel
  exact ⟨hscan, (spans_part_text _).1 _ hscan, hcharacter, (spans_part_text _).2 _ hcharacter, hquote,
    (spans_part_text _).2 _ hquote⟩

end TableStore
