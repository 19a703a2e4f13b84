import TableStore.Proofs.Conditions
import TableStore.Proofs.Layout
import TableStore.Proofs.Spelling

/-!
# Names survive their quotes

- a name is written bare exactly when its own characters are scanned into it (`isBareName_iff_scan`): what would be
  taken for a keyword, a number or several tokens has quotes, and nothing else has;
- a written name is a `Word`, the token of which tells the name (`writtenName`), so no two names are written alike
  (`writeName_injective`);
- the tokens that tell a name are those that are read as it wherever a table, a column or an item is named
  (`Token.Names`, `Token.names_iff`), and the column of a condition alone must not have double quotes
  (`Parse.condition?_name`);
- so a written name is read back everywhere but there, and there exactly when it is bare (`names_survive_quotes`).
-/

namespace TableStore

open Text Piece

/-! ## Bare names -/

/-- **A name is bare exactly when its characters are scanned into it**: the test for bare names and the scanner draw
the line between words, keywords, numbers and the rest in the same place. -/
theorem isBareName_iff_scan (n : String) : isBareName n.toList ↔
    scan n.toList = .ok [⟨.name n, 0, byteLength n.toList⟩,
      ⟨.finish, byteLength n.toList, byteLength n.toList⟩] := by
  refine ⟨fun h => Scan.scan_of_fits (fits_bareName h Scan.breaks_nil), fun h => ?_⟩
  by_contra hbare
  -- a name that is not bare is told by backticks only, and these would stand among its own characters
  have hquote : (Token.name n).quote? = some '`' := if_neg hbare
  have hread := ((Word.mk (.name n) n.toList h).fits Scan.breaks_nil).2.2.2 0
  have hchars : n.toList = enclose '`' n.toList := (Scan.spelled_of_readToken hread).2 _ hquote
  have hcount := count_enclose '`' n.toList
  rw [← hchars] at hcount
  omega

/-! ## Written names -/

/-- A written name is a single token. -/
def writtenName (n : String) : Word := ⟨nameToken n, writeName n, Scan.scan_of_fits (fits_name n Scan.ends_nil)⟩

theorem nameToken_injective : Function.Injective nameToken := fun m n h => by
  have hname := Parse.name?_nameToken m
  rw [h, Parse.name?_nameToken] at hname
  exact (Option.some.inj hname).symm

/-- **No two names are written alike**: the text of a name has one scan, and its token tells the name. -/
theorem writeName_injective : Function.Injective writeName := fun m n h => by
  have hm : scan (writeName m) = .ok [⟨nameToken m, 0, _⟩, _] := (writtenName m).scanned
  have hn : scan (writeName n) = .ok [⟨nameToken n, 0, _⟩, _] := (writtenName n).scanned
  rw [h] at hm
  have hlexeme := (List.cons.inj (Except.ok.inj (hm.symm.trans hn))).1
  exact nameToken_injective (congrArg Lexeme.token hlexeme)

/-! ## Tokens that tell names -/

namespace Token

variable {t : Token} {n : String}

theorem name?_eq_some_iff : t.name? = some n ↔ t = .name n ∨ t = .quoted n := by
  cases t <;> simp [name?]

/-- A token is read as a name wherever a statement names a table, a column or an item, the column of its condition
apart. -/
structure Names (t : Token) (n : String) : Prop where
  /-- A table that is created, shown, inserted into or emptied, and a column in a list of columns that are shown. -/
  name : ∀ text start stop ls, Parse.name text (⟨t, start, stop⟩ :: ls) = .ok (n, ls)
  /-- A table that is dropped; a table `if` is not taken for the start of `IF EXISTS`. -/
  dropped : ∀ text start stop l ls, l.token.name? = none →
    Parse.dropTable text (⟨t, start, stop⟩ :: l :: ls) = .ok (.drop n, l :: ls)
  /-- The first column that is shown; a column `*` is not taken for all of them. -/
  shown : ∀ text start stop ls, Parse.projection text (⟨t, start, stop⟩ :: ls) =
    (Parse.commaList (Parse.name text) (⟨t, start, stop⟩ :: ls)).map fun r => (.columns r.1, r.2)
  /-- A column that is defined or inserted into. -/
  column : ∀ text start stop ls, Parse.columnName text (⟨t, start, stop⟩ :: ls) = .ok (n, ls)
  /-- An item of a literal row. -/
  item : ∀ front as start stop, front ≠ [] → as.token = .keyword .as →
    Parse.splitAlias (front ++ [as, ⟨t, start, stop⟩]) = (front, some n)

/-- **The tokens that tell a name are those that are read as it everywhere.** -/
theorem names_iff : t.Names n ↔ t.name? = some n where
  mp h := by
    obtain ⟨l, hl, hn⟩ := Parse.exists_of_name (h.name [] 0 0 [])
    cases hl
    exact hn
  mpr h :=
    { name := Parse.name_of_name? h
      dropped := fun text start stop _ ls hl => Parse.dropTable_of_name? h hl text start stop ls
      shown := Parse.projection_of_name? h
      column := Parse.columnName_of_name? h
      item := fun _ _ start stop hfront has => Parse.splitAlias_of_name? h hfront has start stop }

end Token

/-! ## Every name -/

/-- **Names survive their quotes.** The text of a name, whatever characters the name has and whether or not its upper
case is a keyword, is scanned into one token, which takes all of it; it is this token as well wherever a name is
written, before the end, a blank, a comma, a semicolon or a parenthesis. The token is read as the name wherever a
statement names a table, a column or an item, but for the column of a condition, which it is read as exactly when the
name is bare. So no two names have the same text. -/
theorem names_survive_quotes (n : String) :
    (nameToken n = .name n ∨ nameToken n = .quoted n) ∧
    scan (writeName n) = .ok [⟨nameToken n, 0, byteLength (writeName n)⟩,
      ⟨.finish, byteLength (writeName n), byteLength (writeName n)⟩] ∧
    (∀ position rest, Scan.Breaks rest → Scan.scanAt position (writeName n ++ rest) =
      (Scan.scanAt (position + byteLength (writeName n)) rest).map
        (⟨nameToken n, position, position + byteLength (writeName n)⟩ :: ·)) ∧
    (nameToken n).Names n ∧
    (∀ text start stop e v s, e.token = .mark .eq → Scan.Operand v.token → Parse.source text [v] = .ok s →
      Parse.condition? text [⟨nameToken n, start, stop⟩, e, v] =
        .ok (if isBareName n.toList then some ⟨n, Literal.read s⟩ else none)) ∧
    ∀ m, writeName m = writeName n → m = n := by
  have hname := Parse.name?_nameToken n
  exact ⟨Token.name?_eq_some_iff.1 hname, (writtenName n).scanned,
    fun position _ hrest => Scan.scanAt_token ((writtenName n).fits hrest) position, Token.names_iff.2 hname,
    fun _ _ _ _ _ _ he hv hs => Parse.condition?_name n he hv hs, fun _ h => writeName_injective h⟩

/-- A name with a blank in it is shown as a column and lost as the column of the condition of the same statement; one
that is a keyword in upper case is told from the keyword by its quotes. -/
theorem spaced_name_is_lost_in_condition :
    let text := "SELECT \"first name\" FROM people WHERE \"first name\" = 'Ann'"
    Statement.parse text = .ok (.select (.columns ["first name"]) "people" none) ∧
    Parse.name text.toList [⟨.quoted "first name", 7, 19⟩] = .ok ("first name", []) ∧
    Scan.scanAt 38 "\"first name\" = 'Ann'".toList = .ok [⟨.quoted "first name", 38, 50⟩, ⟨.mark .eq, 51, 52⟩,
      ⟨.string "Ann", 53, 58⟩, ⟨.finish, 58, 58⟩] ∧
    Parse.condition? text.toList [⟨.quoted "first name", 38, 50⟩, ⟨.mark .eq, 51, 52⟩, ⟨.string "Ann", 53, 58⟩] =
      .ok none ∧
    scan "\"ſelect\"".toList = .ok [⟨.quoted "ſelect", 0, 9⟩, ⟨.finish, 9, 9⟩] ∧
    scan "ſelect".toList = .ok [⟨.keyword .select, 0, 7⟩, ⟨.finish, 7, 7⟩] := by
  intro text
  obtain ⟨-, -, hplace, hnames, hcondition, -⟩ := names_survive_quotes "first name"
  have htail : Scan.scanAt 50 " = 'Ann'".toList =
      .ok [⟨.mark .eq, 51, 52⟩, ⟨.string "Ann", 53, 58⟩, ⟨.finish, 58, 58⟩] :=
    Except.eq_ok_of_toOption (by decide +kernel)
  have hvalue : Parse.source text.toList [⟨.string "Ann", 53, 58⟩] = .ok "'Ann'".toList :=
    Except.eq_ok_of_toOption (by decide +kernel)
  have hscanned := hplace 38 " = 'Ann'".toList (Scan.breaks_blank (by decide) _)
  refine ⟨Except.eq_ok_of_toOption (by decide +kernel), hnames.name _ _ _ _, ?_,
    hcondition text.toList 38 50 ⟨.mark .eq, 51, 52⟩ _ _ rfl trivial hvalue, (names_survive_quotes "ſelect").2.1,
    Except.eq_ok_of_toOption (by decide +kernel)⟩
  exact hscanned.trans (congrArg _ htail)

end TableStore
