import Mathlib.Data.List.Forall2
import TableStore.Proofs.Slices

/-!
# Layout

- `Scan.scanAt` scans a text from a byte on: a token that fits is taken first (`Scan.scanAt_token`), and blanks and
  complete comments are passed over whatever follows them (`Layout`, `Scan.scanAt_layout`);
- a `Word` is a text that is scanned into a single token, and a `Separator` is a blank with more layout after it, so
  every word fits before a separator (`Word.fits`);
- words with separators between them are scanned into the tokens of the words, whatever the separators are
  (`scan_laidOut`).
-/

namespace TableStore

open Text

/-- Blanks and complete comments. -/
inductive Layout : List Char → Prop
  | nil : Layout []
  | blank {c : Char} {cs : List Char} (hc : isBlank c) (h : Layout cs) : Layout (c :: cs)
  | line {body cs : List Char} (hbody : '\n' ∉ body) (h : Layout cs) : Layout ('-' :: '-' :: (body ++ '\n' :: cs))
  | block {body cs : List Char} (hbody : ¬['*', '/'] <:+: body ++ ['*']) (h : Layout cs) :
      Layout ('/' :: '*' :: (body ++ '*' :: '/' :: cs))

theorem layout_of_blanks {cs : List Char} (h : cs.all isBlank) : Layout cs := by
  induction cs with
  | nil => exact .nil
  | cons c cs ih =>
    rw [List.all_cons, Bool.and_eq_true] at h
    exact .blank h.1 (ih h.2)

namespace Scan

variable {c : Char} {cs chars rest sep body : List Char} {t : Token} {position fuel fuel' : Nat}

/-! ## Gaps -/

theorem gap_blank (hc : isBlank c) (cs : List Char) : gap .blank (c :: cs) = c :: gap .blank cs := by
  have hne : c ≠ '-' ∧ c ≠ '/' := by
    constructor <;> rintro rfl <;> revert hc <;> decide
  simp [gap, hne, hc]

theorem gap_line (hbody : '\n' ∉ body) (cs : List Char) :
    gap .lineComment (body ++ '\n' :: cs) = body ++ '\n' :: gap .blank cs := by
  induction body with
  | nil => simp [gap]
  | cons c body ih =>
    rw [List.mem_cons, not_or] at hbody
    simp [gap, Ne.symm hbody.1, ih hbody.2]

theorem gap_block (hbody : ¬['*', '/'] <:+: body ++ ['*']) (cs : List Char) :
    gap .blockComment (body ++ '*' :: '/' :: cs) = body ++ '*' :: '/' :: gap .blank cs := by
  induction body with
  | nil => simp [gap]
  | cons c body ih =>
    have htail : ¬['*', '/'] <:+: body ++ ['*'] := fun h => hbody (h.trans (List.suffix_cons c _).isInfix)
    -- the comment does not end at its first character
    have hstep : ∀ ds, c = '*' → body ++ '*' :: '/' :: cs = '/' :: ds → False := by
      rintro ds rfl he
      cases body with
      | nil => cases he
      | cons d body =>
        obtain ⟨rfl, -⟩ := List.cons.inj he
        exact hbody ⟨[], body ++ ['*'], rfl⟩
    rw [List.cons_append, gap, ih htail, List.cons_append]
    exact hstep

/-- **Layout is passed over whatever follows it.** -/
theorem gap_layout (h : Layout sep) (rest : List Char) : gap .blank (sep ++ rest) = sep ++ gap .blank rest := by
  induction h with
  | nil => rfl
  | blank hc _ ih => rw [List.cons_append, gap_blank hc, ih, List.cons_append]
  | @line body cs hbody _ ih =>
    have hgap := gap_line hbody (cs ++ rest)
    simp only [List.cons_append, List.append_assoc]
    rw [gap, hgap, ih]
  | @block body cs hbody _ ih =>
    have hgap := gap_block hbody (cs ++ rest)
    simp only [List.cons_append, List.append_assoc]
    rw [gap, hgap, ih]

/-! ## Scanning from a byte on -/

/-- More rounds than characters are enough. -/
theorem lexemes_congr (h : cs.length < fuel) (h' : cs.length < fuel') :
    lexemes fuel position cs = lexemes fuel' position cs := by
  induction fuel generalizing fuel' position cs with
  | zero => omega
  | succ fuel ih =>
    obtain ⟨fuel', rfl⟩ : ∃ n, fuel' = n + 1 := ⟨fuel' - 1, by omega⟩
    simp only [lexemes]
    cases hread : readToken (position + byteLength (gap .blank cs)) (cs.drop (gap .blank cs).length) with
    | error e => rfl
    | ok found =>
      obtain ⟨t, chars⟩ := found
      by_cases ht : t = .finish
      · simp [bind, Except.bind, ht]
      · have hpos := List.length_pos_iff.2 ((reads_of_readToken hread).ne_nil_iff.1 ht)
        have hle := (starts_readToken hread).length_le
        rw [List.length_drop] at hle
        have hlater : lexemes fuel (position + byteLength (gap .blank cs) + byteLength chars)
            ((cs.drop (gap .blank cs).length).drop chars.length) =
              lexemes fuel' (position + byteLength (gap .blank cs) + byteLength chars)
                ((cs.drop (gap .blank cs).length).drop chars.length) :=
          ih (by simp only [List.length_drop]; omega) (by simp only [List.length_drop]; omega)
        simp only [bind, Except.bind, ht, if_false, hlater]

/-- The tokens of a text that starts at a byte. -/
def scanAt (position : Nat) (cs : List Char) : Except Error (List Lexeme) := lexemes (cs.length + 1) position cs

theorem scan_eq (cs : List Char) : scan cs = scanAt 0 cs := rfl

theorem scanAt_nil (position : Nat) : scanAt position [] = .ok [⟨.finish, position, position⟩] := rfl

theorem scanAt_token (h : (Piece.token t chars).Fits rest) (position : Nat) : scanAt position (chars ++ rest) =
    (scanAt (position + byteLength chars) rest).map (⟨t, position, position + byteLength chars⟩ :: ·) := by
  have hpos := List.length_pos_iff.2 h.2.1
  have hlater : lexemes (chars ++ rest).length (position + byteLength chars) rest =
      scanAt (position + byteLength chars) rest :=
    lexemes_congr (by simp only [List.length_append]; omega) (by omega)
  rw [scanAt, Piece.lexemes_token h, hlater]

theorem scanAt_layout (h : Layout sep) (position : Nat) (rest : List Char) :
    scanAt position (sep ++ rest) = scanAt (position + byteLength sep) rest := by
  have hmore : scanAt (position + byteLength sep) rest =
      lexemes ((sep ++ rest).length + 1) (position + byteLength sep) rest :=
    lexemes_congr (by omega) (by simp only [List.length_append]; omega)
  have hdrop : (sep ++ rest).drop (sep ++ gap .blank rest).length = rest.drop (gap .blank rest).length := by
    rw [List.length_append, List.drop_append, List.drop_eq_nil_of_le (Nat.le_add_right _ _)]
    simp
  rw [hmore, scanAt, lexemes, lexemes, gap_layout h, hdrop, byteLength_append, Nat.add_assoc]

end Scan

/-! ## Words and separators -/

/-- A text that is scanned into a single token, which takes all of it. -/
structure Word where
  token : Token
  chars : List Char
  scanned : scan chars = .ok [⟨token, 0, byteLength chars⟩, ⟨.finish, byteLength chars, byteLength chars⟩]

/-- A blank, with more blanks and complete comments after it. -/
structure Separator where
  chars : List Char
  spaced : ∃ c cs, chars = c :: cs ∧ isBlank c ∧ Layout cs

theorem eq_nil_of_byteLength {cs : List Char} (h : byteLength cs = 0) : cs = [] := by
  by_contra hne
  have hpos := byteLength_pos hne
  omega

namespace Word

variable {rest : List Char}

theorem reads (w : Word) : Scan.Reads w.chars w.token w.chars ∧ w.token ≠ .finish := by
  obtain ⟨skipped, t, chars, rest, later, hcs, hread, hls, -⟩ := Scan.exists_of_lexemes w.scanned
  obtain ⟨hl, hlater⟩ := List.cons.inj hls
  simp only [Lexeme.mk.injEq, Nat.zero_add] at hl
  obtain ⟨ht, hstart, hstop⟩ := hl
  -- nothing is passed over before the token, and nothing is left after it
  have hskipped : skipped = [] := eq_nil_of_byteLength hstart.symm
  have hlength := congrArg byteLength hcs
  simp only [byteLength_append] at hlength
  have hrest : rest = [] := eq_nil_of_byteLength (by omega)
  rw [hskipped, hrest, List.append_nil, List.nil_append] at hcs
  rw [hrest, List.append_nil] at hread
  have hreads := Scan.reads_of_readToken hread
  rw [← ht, ← hcs] at hreads
  refine ⟨hreads, fun hfinish => ?_⟩
  have hnil := (hfinish ▸ hreads).eq_nil
  have hscanned := w.scanned
  rw [hnil] at hscanned
  exact nomatch (List.cons.inj (Except.ok.inj hscanned)).2

theorem fits (w : Word) (h : Scan.Breaks rest) : (Piece.token w.token w.chars).Fits rest :=
  w.reads.1.fits_of_breaks w.reads.2 h

end Word

namespace Separator

theorem layout (s : Separator) : Layout s.chars := by
  obtain ⟨c, cs, h, hc, hcs⟩ := s.spaced
  rw [h]
  exact .blank hc hcs

theorem breaks (s : Separator) (rest : List Char) : Scan.Breaks (s.chars ++ rest) := by
  obtain ⟨c, cs, h, hc, -⟩ := s.spaced
  rw [h]
  exact Scan.breaks_blank hc _

end Separator

/-- Words with a separator after each of them but the last. -/
def laidOut (sep : Nat → Separator) : Nat → List Word → List Char
  | _, [] => []
  | _, [w] => w.chars
  | i, w :: v :: ws => w.chars ++ ((sep i).chars ++ laidOut sep (i + 1) (v :: ws))

/-- The tokens of words with separators between them, from a byte on: each takes the bytes of its word. -/
def placed (sep : Nat → Separator) : Nat → Nat → List Word → List Lexeme
  | _, _, [] => []
  | i, n, w :: ws =>
    ⟨w.token, n, n + byteLength w.chars⟩ ::
      placed sep (i + 1) (n + byteLength w.chars + byteLength (sep i).chars) ws

theorem scanAt_laidOut (sep : Nat → Separator) (i n : Nat) (ws : List Word) : Scan.scanAt n (laidOut sep i ws) =
    .ok (placed sep i n ws ++ [⟨.finish, n + byteLength (laidOut sep i ws), n + byteLength (laidOut sep i ws)⟩]) := by
  fun_induction laidOut sep i ws generalizing n with
  -- no word
  | case1 i => rfl
  -- the last word
  | case2 i w =>
    have htoken := Scan.scanAt_token (w.fits Scan.breaks_nil) n
    rw [List.append_nil] at htoken
    rw [htoken]
    rfl
  -- a word, a separator and more words
  | case3 i w v ws ih =>
    rw [Scan.scanAt_token (w.fits ((sep i).breaks _)), Scan.scanAt_layout (sep i).layout, ih]
    simp only [Except.map, placed, byteLength_append, Nat.add_assoc, List.cons_append]

/-- The token of every word takes the bytes at which the word stands. -/
theorem slices_placed (sep : Nat → Separator) (i : Nat) (ws : List Word) (front : List Char) :
    List.Forall₂ (fun l w => l.token = w.token ∧ slice? (front ++ laidOut sep i ws) l.start l.stop = some w.chars)
      (placed sep i (byteLength front) ws) ws := by
  fun_induction laidOut sep i ws generalizing front with
  -- no word
  | case1 i => exact .nil
  -- the last word
  | case2 i w =>
    have hslice := slice?_middle front w.chars []
    rw [List.append_nil] at hslice
    exact .cons ⟨rfl, hslice⟩ .nil
  -- a word, a separator and more words
  | case3 i w v ws ih =>
    have hlater := ih (front ++ (w.chars ++ (sep i).chars))
    simp only [List.append_assoc, byteLength_append, ← Nat.add_assoc] at hlater
    exact .cons ⟨rfl, slice?_middle front w.chars _⟩ hlater

/-- **The scanner is blind to layout.** Words with separators between them are scanned into the tokens of the words,
each at the bytes of its word, so the tokens do not depend on the separators. -/
theorem scan_laidOut (ws : List Word) (sep : Nat → Separator) :
    let text := laidOut sep 0 ws
    let ls := placed sep 0 0 ws
    scan text = .ok (ls ++ [⟨.finish, byteLength text, byteLength text⟩]) ∧
    List.Forall₂ (fun l w => l.token = w.token ∧ slice? text l.start l.stop = some w.chars) ls ws ∧
    (scan text).map (·.map Lexeme.token) = .ok (ws.map Word.token ++ [.finish]) := by
  intro text ls
  have hscan : scan text = .ok (ls ++ [⟨.finish, byteLength text, byteLength text⟩]) := by
    rw [Scan.scan_eq, scanAt_laidOut, Nat.zero_add]
  have hslices : List.Forall₂ (fun l w => l.token = w.token ∧ slice? text l.start l.stop = some w.chars) ls ws :=
    slices_placed sep 0 ws []
  have htokens : ls.map Lexeme.token = ws.map Word.token := by
    rw [← List.forall₂_eq_eq_eq, List.forall₂_map_left_iff, List.forall₂_map_right_iff]
    exact hslices.imp fun _ _ h => h.1
  refine ⟨hscan, hslices, ?_⟩
  rw [hscan]
  simp only [Except.map, List.map_append, List.map_cons, List.map_nil, htokens]

/-- A minus sign and a number are two tokens with a comment between them, and comments may hold quotes and openings of
other comments. -/
theorem scan_around_comments : ∃ (ws : List Word) (sep : Nat → Separator),
    laidOut sep 0 ws = "-\n--'/*\n1.5\t/*'--**//**/'a -- b'".toList ∧
    scan (laidOut sep 0 ws) =
      .ok [⟨.mark .minus, 0, 1⟩, ⟨.number "1.5", 8, 11⟩, ⟨.string "a -- b", 24, 32⟩, ⟨.finish, 32, 32⟩] := by
  let ws : List Word := [⟨.mark .minus, "-".toList, Except.eq_ok_of_toOption (by decide +kernel)⟩,
    ⟨.number "1.5", "1.5".toList, Except.eq_ok_of_toOption (by decide +kernel)⟩,
    ⟨.string "a -- b", "'a -- b'".toList, Except.eq_ok_of_toOption (by decide +kernel)⟩]
  let sep : Nat → Separator
    | 0 => ⟨'\n' :: '-' :: '-' :: (['\'', '/', '*'] ++ ['\n']), '\n', _, rfl, by decide, .line (by decide) .nil⟩
    | _ => ⟨'\t' :: '/' :: '*' :: (['\'', '-', '-', '*'] ++ '*' :: '/' :: '/' :: '*' :: ([] ++ ['*', '/'])), '\t', _,
      rfl, by decide, .block (by decide) (.block (by decide) .nil)⟩
  exact ⟨ws, sep, by decide +kernel, (scan_laidOut ws sep).1.trans (congrArg Except.ok (by decide +kernel))⟩

end TableStore
