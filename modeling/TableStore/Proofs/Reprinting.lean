import TableStore.Proofs.Readers

/-!
# Statements read back

- the text of a statement without a condition is made of pieces (`Statement.textOf_pieces`) that fit, so the scanner
  finds its tokens, and every reader takes from them what they were written for;
- a statement that a text can be read as, with values that have literals, is read back from its own text, but for the
  texts of the items of literal rows, which become the literals (`Statement.parse_write`);
- so a statement that was read from any text is read back from its own (`Statement.parse_of_parse`).
-/

namespace TableStore

open Parse Piece

/-! ## The pieces of statements -/

namespace Statement

/-- The pieces of literal rows. -/
def rowPieces : List (List Item) → List Piece
  | [] => []
  | [r] => keyword .select :: blank :: joined (r.map Item.pieces)
  | r :: rs => keyword .select :: blank :: (joined (r.map Item.pieces) ++
      blank :: keyword .union :: blank :: keyword .all :: blank :: rowPieces rs)

/-- The pieces of the columns of a selection. -/
def projectionPieces : Projection → List Piece
  | .all => [mark .asterisk]
  | .columns names => joined (names.map fun n => [name n])

/-- The pieces of the columns that rows are inserted into. -/
def targetPieces : Option (List String) → List Piece
  | none => []
  | some names => blank :: enclosed (names.map fun n => [name n])

/-- The pieces of a row of values. -/
def valuesPieces (r : List Value) : List Piece := enclosed (r.map fun v => [literal v])

/-- The pieces of a statement without columns of its own and without a condition. -/
def pieces : Statement → List Piece
  | createAs table rows =>
    keyword .create :: blank :: keyword .table :: blank :: name table :: blank :: keyword .as :: blank :: rowPieces rows
  | drop table => keyword .drop :: blank :: keyword .table :: blank :: [name table]
  | select projection table _ =>
    keyword .select :: blank :: (projectionPieces projection ++ blank :: keyword .from :: blank :: [name table])
  | insert table columns rows =>
    keyword .insert :: blank :: keyword .into :: blank :: name table :: (targetPieces columns ++
      blank :: keyword .values :: blank :: joined (rows.map valuesPieces))
  | _ => []

/-- A statement that can be read back: nothing that has to be there is missing, its values have literals, and it has
no condition. -/
def Readable : Statement → Prop
  | createAs _ rows => rows ≠ [] ∧ ∀ r ∈ rows, r ≠ [] ∧ ∀ i ∈ r, i.value.Writable
  | drop _ => True
  | select projection _ condition => projection ≠ .columns [] ∧ condition = none
  | insert _ columns rows => columns ≠ some [] ∧ rows ≠ [] ∧ ∀ r ∈ rows, r ≠ [] ∧ ∀ v ∈ r, v.Writable
  | _ => False

/-- A statement as it is read back: the texts of items are the literals. -/
def rewritten : Statement → Statement
  | createAs table rows => createAs table (rows.map (·.map Item.rewritten))
  | s => s

/-! ### Texts -/

/-- The keywords of statements with the blanks around them. -/
theorem spaced_keywords :
    "SELECT ".toList = Keyword.select.text.toList ++ [' '] ∧
    " AS ".toList = [' '] ++ (Keyword.as.text.toList ++ [' ']) ∧
    " UNION ALL ".toList = [' '] ++ (Keyword.union.text.toList ++ ([' '] ++ (Keyword.all.text.toList ++ [' ']))) ∧
    " FROM ".toList = [' '] ++ (Keyword.from.text.toList ++ [' ']) ∧
    " VALUES ".toList = [' '] ++ (Keyword.values.text.toList ++ [' ']) ∧
    "CREATE TABLE ".toList = Keyword.create.text.toList ++ ([' '] ++ (Keyword.table.text.toList ++ [' '])) ∧
    "DROP TABLE ".toList = Keyword.drop.text.toList ++ ([' '] ++ (Keyword.table.text.toList ++ [' '])) ∧
    "INSERT INTO ".toList = Keyword.insert.text.toList ++ ([' '] ++ (Keyword.into.text.toList ++ [' '])) := by decide

theorem textOf_item (i : Item) : textOf i.pieces = writeItem i := by
  obtain ⟨_, v, _ | n⟩ := i
  · exact List.append_nil _
  · obtain ⟨-, has, -⟩ := spaced_keywords
    simp only [Item.pieces, writeItem, has, textOf_cons, textOf_nil, text_literal, text_blank, text_keyword, text_name,
      List.append_assoc, List.append_nil]

theorem textOf_comp_items : textOf ∘ Item.pieces = writeItem := funext textOf_item

theorem textOf_rowPieces : ∀ rows : List (List Item), textOf (rowPieces rows) = writeRows rows
  | [] => rfl
  | [r] => by
    change textOf (keyword .select :: blank :: joined (r.map Item.pieces)) =
      "SELECT ".toList ++ listed (r.map writeItem)
    rw [spaced_keywords.1]
    simp only [textOf_cons, text_keyword, text_blank, textOf_joined, List.map_map, textOf_comp_items, List.append_assoc]
  | r :: r' :: rows => by
    have ih := textOf_rowPieces (r' :: rows)
    obtain ⟨hselect, -, hunion, -⟩ := spaced_keywords
    change textOf (keyword .select :: blank :: (joined (r.map Item.pieces) ++ blank :: keyword .union :: blank ::
      keyword .all :: blank :: rowPieces (r' :: rows))) =
      "SELECT ".toList ++ listed (r.map writeItem) ++ " UNION ALL ".toList ++ writeRows (r' :: rows)
    rw [hselect, hunion, ← ih]
    simp only [textOf_cons, textOf_append, text_keyword, text_blank, textOf_joined, List.map_map, textOf_comp_items,
      List.append_assoc]

theorem textOf_names (names : List String) : (names.map fun n => [Piece.name n]).map textOf = names.map writeName := by
  rw [List.map_map]
  exact List.map_congr_left fun n _ => List.append_nil _

theorem textOf_projection (p : Projection) : textOf (projectionPieces p) = writeProjection p := by
  cases p with
  | all => rfl
  | columns names => rw [projectionPieces, textOf_joined, textOf_names, writeProjection]

theorem textOf_target (columns : Option (List String)) : textOf (targetPieces columns) = match columns with
    | some names => ' ' :: inParens (names.map writeName)
    | none => [] := by
  cases columns with
  | none => rfl
  | some names =>
    rw [targetPieces, textOf_cons, textOf_enclosed, textOf_names]
    rfl

theorem textOf_values (r : List Value) : textOf (valuesPieces r) = inParens (r.map Literal.write) := by
  rw [valuesPieces, textOf_enclosed, List.map_map]
  exact congrArg inParens (List.map_congr_left fun v _ => List.append_nil _)

/-- **A statement without a condition is written in its pieces.** -/
theorem textOf_pieces {s : Statement} (h : s.Readable) : textOf s.pieces = s.write := by
  obtain ⟨hselect, has, -, hfrom, hvalues, hcreate, hdrop, hinsert⟩ := spaced_keywords
  cases s with
  | create | delete => exact h.elim
  | createAs table rows =>
    change _ = "CREATE TABLE ".toList ++ writeName table ++ " AS ".toList ++ writeRows rows
    rw [hcreate, has, ← textOf_rowPieces]
    simp only [pieces, textOf_cons, text_keyword, text_blank, text_name, List.append_assoc]
  | drop table =>
    change _ = "DROP TABLE ".toList ++ writeName table
    rw [hdrop]
    simp only [pieces, textOf_cons, textOf_nil, text_keyword, text_blank, text_name, List.append_assoc, List.append_nil]
  | select projection table condition =>
    obtain rfl := h.2
    change _ = "SELECT ".toList ++ writeProjection projection ++ " FROM ".toList ++ writeName table ++ []
    rw [hselect, hfrom, ← textOf_projection]
    simp only [pieces, textOf_cons, textOf_nil, textOf_append, text_keyword, text_blank, text_name, List.append_assoc,
      List.append_nil]
  | insert table columns rows =>
    clear h
    have hrows : (rows.map valuesPieces).map textOf = rows.map fun r => inParens (r.map Literal.write) := by
      rw [List.map_map]
      exact List.map_congr_left fun r _ => textOf_values r
    change _ = "INSERT INTO ".toList ++ writeName table ++
      (match columns with
        | some names => ' ' :: inParens (names.map writeName)
        | none => []) ++
      " VALUES ".toList ++ listed (rows.map fun r => inParens (r.map Literal.write))
    rw [hinsert, hvalues, ← textOf_target]
    simp only [pieces, textOf_cons, textOf_append, text_keyword, text_blank, text_name, textOf_joined, hrows,
      List.append_assoc]

/-! ### Fits -/

theorem firm_name (n : String) : Firm [Piece.name n] := firm_singleton (fits_name n)

theorem firm_names (names : List String) : ∀ ps ∈ names.map fun n => [Piece.name n], Firm ps := by
  intro ps hps
  obtain ⟨n, -, rfl⟩ := List.mem_map.1 hps
  exact firm_name n

theorem firm_literal {v : Value} (hv : v.Writable) : Firm [literal v] := firm_singleton (fits_literal hv)

/-- A keyword, a blank and what follows. -/
theorem firm_keyword (k : Keyword) {ps : List Piece} (h : Firm ps) : Firm (keyword k :: blank :: ps) := by
  have hk : Firm [keyword k] := firm_singleton (fits_keyword k)
  exact hk.append_blank h

theorem firm_item {i : Item} (hv : i.value.Writable) : Firm i.pieces := by
  obtain ⟨_, v, _ | n⟩ := i
  · exact firm_literal hv
  · exact (firm_literal hv).append_blank (firm_keyword .as (firm_name n))

theorem firm_items {r : List Item} (h : ∀ i ∈ r, i.value.Writable) : Firm (joined (r.map Item.pieces)) := by
  refine firm_joined fun ps hps => ?_
  obtain ⟨i, hi, rfl⟩ := List.mem_map.1 hps
  exact firm_item (h i hi)

theorem firm_rowPieces : ∀ {rows : List (List Item)}, (∀ r ∈ rows, ∀ i ∈ r, i.value.Writable) → Firm (rowPieces rows)
  | [], _ => firm_nil
  | [r], h => firm_keyword .select (firm_items (h r List.mem_cons_self))
  | r :: r' :: rows, h => by
    obtain ⟨hr, hrows⟩ := List.forall_mem_cons.1 h
    exact firm_keyword .select ((firm_items hr).append_blank
      (firm_keyword .union (firm_keyword .all (firm_rowPieces hrows))))

theorem firm_values {r : List Value} (h : ∀ v ∈ r, v.Writable) : Firm (valuesPieces r) := by
  refine firm_enclosed fun ps hps => ?_
  obtain ⟨v, hv, rfl⟩ := List.mem_map.1 hps
  exact firm_literal (h v hv)

theorem firm_projection (p : Projection) : Firm (projectionPieces p) := by
  cases p with
  | all => exact fun _ _ => ⟨fun _ _ => fits_mark (by decide) _, trivial⟩
  | columns names => exact firm_joined (firm_names names)

/-- **The pieces of a statement fit.** -/
theorem firm_pieces {s : Statement} (h : s.Readable) : Firm s.pieces := by
  cases s with
  | create | delete => exact h.elim
  | createAs table rows =>
    exact firm_keyword .create (firm_keyword .table ((firm_name table).append_blank
      (firm_keyword .as (firm_rowPieces fun r hr => (h.2 r hr).2))))
  | drop table => exact firm_keyword .drop (firm_keyword .table (firm_name table))
  | select projection table condition =>
    exact firm_keyword .select ((firm_projection projection).append_blank (firm_keyword .from (firm_name table)))
  | insert table columns rows =>
    have hvalues : Firm (keyword .values :: blank :: joined (rows.map valuesPieces)) := by
      refine firm_keyword .values (firm_joined fun ps hps => ?_)
      obtain ⟨r, hr, rfl⟩ := List.mem_map.1 hps
      exact firm_values (h.2.2 r hr).2
    refine firm_keyword .insert (firm_keyword .into ?_)
    cases columns with
    | none => exact (firm_name table).append_blank hvalues
    | some names =>
      exact (firm_name table).append_blank ((firm_enclosed (firm_names names)).append_blank hvalues)

end Statement

/-! ## Readers of statements -/

namespace Parse

variable {text : List Char} {ls rest : List Lexeme} {l : Lexeme}

theorem takes_row {r : List Value} (hne : r ≠ []) (hv : ∀ v ∈ r, v.Writable) :
    Takes text (row text) (Statement.valuesPieces r) r fun _ => True := by
  intro ls l rest h _
  obtain ⟨start, stop, ls, rfl, -, h⟩ := h.of_token
  obtain ⟨ls, ls', rfl, hs, h'⟩ := h.of_append
  obtain ⟨start', stop', ls', rfl, -, h'⟩ := h'.of_token
  obtain rfl := h'.eq_nil
  have hvalues : Takes text (commaList (value text)) (joined (r.map fun v => [literal v])) (r.map id)
      fun t => t = .mark .closeParen :=
    takes_commaList (fun h => by cases h) hne fun v hmem => (takes_value (hv v hmem)).imp fun t ht => by
      rcases ht with rfl | rfl <;> simp
  have htaken := hvalues ls ⟨.mark .closeParen, start', stop'⟩ (l :: rest) hs rfl
  rw [List.map_id] at htaken
  rw [List.cons_append, List.append_assoc]
  simp only [row, expect_self, List.cons_append, List.nil_append, htaken, bind, Except.bind]

theorem takes_targetColumns {columns : Option (List String)} (hne : columns ≠ some []) :
    Takes text (targetColumns text) (Statement.targetPieces columns) columns fun t => t ≠ .mark .openParen := by
  intro ls l rest h hl
  cases columns with
  | none =>
    obtain rfl := h.eq_nil
    obtain ⟨t, start, stop⟩ := l
    rw [List.nil_append, targetColumns]
    intro _ _ _ he
    cases he
    exact hl rfl
  | some names =>
    have hnames : names ≠ [] := fun he => hne (by rw [he])
    obtain ⟨start, stop, ls, rfl, -, h⟩ := h.of_blank.of_token
    obtain ⟨ls, ls', rfl, hs, h'⟩ := h.of_append
    obtain ⟨start', stop', ls', rfl, -, h'⟩ := h'.of_token
    obtain rfl := h'.eq_nil
    have hcolumns : Takes text (commaList (columnName text)) (joined (names.map fun n => [Piece.name n]))
        (names.map id) fun t => t = .mark .closeParen :=
      takes_commaList (fun h => by cases h) hnames fun n _ => (takes_columnName n).imp fun _ _ => trivial
    have htaken := hcolumns ls ⟨.mark .closeParen, start', stop'⟩ (l :: rest) hs rfl
    rw [List.map_id] at htaken
    rw [List.cons_append, List.append_assoc]
    simp only [targetColumns, expect_self, List.cons_append, List.nil_append, htaken, bind, Except.bind]

/-! ### Statements -/

theorem takes_insert {table : String} {columns : Option (List String)} {rows : List (List Value)}
    (h : (Statement.insert table columns rows).Readable) : Takes text (insert text)
      (Piece.name table :: (Statement.targetPieces columns ++ blank :: keyword .values :: blank ::
        joined (rows.map Statement.valuesPieces))) (.insert table columns rows) fun t => t ≠ .mark .comma := by
  intro ls l rest hs hl
  obtain ⟨hcolumns, hrows, hvalues⟩ := h
  obtain ⟨start, stop, ls, rfl, -, hs⟩ := hs.of_token
  obtain ⟨ls, ls', rfl, htarget, hs⟩ := hs.of_append
  obtain ⟨start', stop', ls', rfl, -, hs⟩ := hs.of_blank.of_token
  have hlist : Takes text (commaList (row text)) (joined (rows.map Statement.valuesPieces)) (rows.map id)
      fun t => t ≠ .mark .comma :=
    takes_commaList (fun h => h rfl) hrows fun r hr =>
      (takes_row (hvalues r hr).1 (hvalues r hr).2).imp fun _ _ => trivial
  have htaken := hlist ls' l rest hs.of_blank hl
  have htarget := takes_targetColumns hcolumns ls ⟨.keyword .values, start', stop'⟩ (ls' ++ l :: rest) htarget
    fun h => by cases h
  rw [List.map_id] at htaken
  simp only [insert, List.cons_append, List.append_assoc, name_self, htarget, expect_self, htaken, bind, Except.bind]

/-- The name of a table that is dropped is not taken for `IF EXISTS` if no other name comes after it. -/
theorem dropTable_of_name? {t : Token} {n : String} (h : t.name? = some n) (hl : l.token.name? = none)
    (text : List Char) (start stop : Nat) (rest : List Lexeme) :
    dropTable text (⟨t, start, stop⟩ :: l :: rest) = .ok (.drop n, l :: rest) := by
  have hskip : skipIfExists (⟨t, start, stop⟩ :: l :: rest) = ⟨t, start, stop⟩ :: l :: rest := by
    rw [skipIfExists]
    rintro _ _ _ _ _ _ _ ⟨⟩
    cases hl
  simp only [dropTable, hskip, name_of_name? h, bind, Except.bind]

theorem takes_dropTable (table : String) : Takes text (dropTable text) [Piece.name table] (.drop table) fun t =>
    t = .finish := by
  intro ls l rest hs hl
  obtain ⟨start, stop, ls, rfl, -, hs⟩ := hs.of_token
  obtain rfl := hs.eq_nil
  exact dropTable_of_name? (name?_nameToken table) (by rw [hl]; rfl) text start stop rest

/-- What starts with a name is a list of columns, not an asterisk. -/
theorem projection_of_name? {t : Token} {n : String} (h : t.name? = some n) (text : List Char) (start stop : Nat)
    (ls : List Lexeme) : projection text (⟨t, start, stop⟩ :: ls) =
      (commaList (name text) (⟨t, start, stop⟩ :: ls)).map fun r => (.columns r.1, r.2) := by
  rw [projection]
  · cases commaList (name text) (⟨t, start, stop⟩ :: ls) <;> rfl
  · rintro _ _ _ ⟨⟩
    cases h

/-- The columns of a selection start with a name. -/
theorem exists_nameToken_of_shown {names : List String} {ls : List Lexeme} (hne : names ≠ [])
    (h : Shown text ls (joined (names.map fun n => [Piece.name n]))) :
    ∃ n start stop ls', ls = ⟨nameToken n, start, stop⟩ :: ls' := by
  match names, hne with
  | [n], _ =>
    obtain ⟨start, stop, ls', rfl, -, -⟩ := h.of_token
    exact ⟨n, start, stop, ls', rfl⟩
  | n :: m :: names, _ =>
    obtain ⟨start, stop, ls', rfl, -, -⟩ := h.of_token
    exact ⟨n, start, stop, ls', rfl⟩

theorem takes_projection {p : Projection} (hne : p ≠ .columns []) :
    Takes text (projection text) (Statement.projectionPieces p) p fun t => t ≠ .mark .comma := by
  intro ls l rest hs hl
  cases p with
  | all =>
    obtain ⟨start, stop, ls, rfl, -, hs⟩ := hs.of_token
    obtain rfl := hs.eq_nil
    rfl
  | columns names =>
    have hnames : names ≠ [] := fun he => hne (by rw [he])
    have hlist : Takes text (commaList (name text)) (joined (names.map fun n => [Piece.name n])) (names.map id)
        fun t => t ≠ .mark .comma :=
      takes_commaList (fun h => h rfl) hnames fun n _ => (takes_name n).imp fun _ _ => trivial
    have htaken := hlist ls l rest hs hl
    rw [List.map_id] at htaken
    obtain ⟨n, start, stop, ls, rfl⟩ := exists_nameToken_of_shown hnames hs
    rw [List.cons_append] at htaken ⊢
    rw [projection_of_name? (name?_nameToken n), htaken]
    rfl

theorem takes_select {p : Projection} {table : String} (hne : p ≠ .columns []) : Takes text (select text)
    (Statement.projectionPieces p ++ blank :: keyword .from :: blank :: [Piece.name table]) (.select p table none)
      fun t => t ≠ .keyword .where := by
  intro ls l rest hs hl
  obtain ⟨ls, ls', rfl, hp, hs⟩ := hs.of_append
  obtain ⟨start, stop, ls', rfl, -, hs⟩ := hs.of_blank.of_token
  obtain ⟨start', stop', ls', rfl, -, hs⟩ := hs.of_blank.of_token
  obtain rfl := hs.eq_nil
  have htaken := takes_projection hne ls ⟨.keyword .from, start, stop⟩
    (⟨nameToken table, start', stop'⟩ :: l :: rest) hp fun h => by cases h
  have hcondition : optionalCondition text (l :: rest) = .ok (none, l :: rest) := by
    obtain ⟨t, start, stop⟩ := l
    rw [optionalCondition]
    intro _ _ _ he
    cases he
    exact hl rfl
  simp only [select, List.append_assoc, List.cons_append, List.nil_append, htaken, expect_self, name_self, hcondition,
    bind, Except.bind]

/-! ### Literal rows -/

theorem takes_literalRow {r : List Item} (hne : r ≠ []) (hv : ∀ i ∈ r, i.value.Writable) :
    Takes text (literalRow text) (keyword .select :: blank :: joined (r.map Item.pieces)) (r.map Item.rewritten)
      fun t => t = .finish ∨ t = .keyword .union := by
  intro ls l rest hs hl
  obtain ⟨start, stop, ls, rfl, -, hs⟩ := hs.of_token
  have hlist : Takes text (commaList (rowItem text)) (joined (r.map Item.pieces)) (r.map Item.rewritten)
      fun t => t = .finish ∨ t = .keyword .union :=
    takes_commaList (by simp) hne fun i hi => (takes_rowItem (hv i hi)).imp fun t ht => by
      rcases ht with rfl | rfl | rfl <;> simp
  simp only [literalRow, List.cons_append, expect_self, hlist ls l rest hs.of_blank hl, bind, Except.bind]

/-- Literal rows are taken up to the end. -/
theorem takes_moreLiteralRows : ∀ {rows : List (List Item)} {fuel : Nat} {ls : List Lexeme} {l : Lexeme}
    {rest : List Lexeme}, rows ≠ [] → (∀ r ∈ rows, r ≠ [] ∧ ∀ i ∈ r, i.value.Writable) →
      Shown text ls (Statement.rowPieces rows) → l.token = .finish → (ls ++ l :: rest).length ≤ fuel →
      moreLiteralRows text fuel (ls ++ l :: rest) = .ok (rows.map (·.map Item.rewritten), l :: rest)
  | [r], fuel, ls, l, rest, _, hrows, hs, hl, hfuel => by
    obtain ⟨hne, hv⟩ := hrows r List.mem_cons_self
    cases fuel with
    | zero => simp at hfuel
    | succ fuel =>
      have hrow := takes_literalRow hne hv ls l rest hs (.inl hl)
      obtain ⟨t, start, stop⟩ := l
      obtain rfl : t = .finish := hl
      simp only [moreLiteralRows, hrow, bind, Except.bind]
      rfl
  | r :: r' :: rows, fuel, ls, l, rest, _, hrows, hs, hl, hfuel => by
    obtain ⟨⟨hne, hv⟩, hlater⟩ := List.forall_mem_cons.1 hrows
    have hs' : Shown text ls ((keyword .select :: blank :: joined (r.map Item.pieces)) ++
        blank :: keyword .union :: blank :: keyword .all :: blank :: Statement.rowPieces (r' :: rows)) := hs
    obtain ⟨ls, ls', rfl, hrow, hs⟩ := hs'.of_append
    obtain ⟨start, stop, ls', rfl, -, hs⟩ := hs.of_blank.of_token
    obtain ⟨start', stop', ls', rfl, -, hs⟩ := hs.of_blank.of_token
    cases fuel with
    | zero => simp at hfuel
    | succ fuel =>
      have hrow := takes_literalRow hne hv ls ⟨.keyword .union, start, stop⟩
        (⟨.keyword .all, start', stop'⟩ :: (ls' ++ l :: rest)) hrow (.inr rfl)
      have hlength : (ls' ++ l :: rest).length ≤ fuel := by
        simp only [List.length_append, List.length_cons] at hfuel ⊢
        omega
      have ih := takes_moreLiteralRows (List.cons_ne_nil r' rows) hlater hs.of_blank hl hlength
      simp only [moreLiteralRows, List.append_assoc, List.cons_append, hrow, expect_self, ih, bind, Except.bind,
        List.map_cons]

theorem takes_createAs {table : String} {rows : List (List Item)} (h : (Statement.createAs table rows).Readable) :
    Takes text (createTable text) (Piece.name table :: blank :: keyword .as :: blank :: Statement.rowPieces rows)
      (Statement.createAs table rows).rewritten fun t => t = .finish := by
  intro ls l rest hs hl
  obtain ⟨start, stop, ls, rfl, -, hs⟩ := hs.of_token
  obtain ⟨start', stop', ls, rfl, -, hs⟩ := hs.of_blank.of_token
  have hrows := takes_moreLiteralRows h.1 h.2 hs.of_blank hl (Nat.le_refl (ls ++ l :: rest).length)
  simp only [createTable, List.cons_append, name_self, hrows, bind, Except.bind, Statement.rewritten]

/-! ### Whole statements -/

/-- An insertion is taken up to anything but another row. -/
theorem takes_insertion {table : String} {columns : Option (List String)} {rows : List (List Value)}
    (h : (Statement.insert table columns rows).Readable) : Takes text (statement text)
      (Statement.insert table columns rows).pieces (.insert table columns rows) fun t => t ≠ .mark .comma := by
  intro ls l rest hs hl
  obtain ⟨start, stop, ls, rfl, -, hs⟩ := hs.of_token
  obtain ⟨start', stop', ls, rfl, -, hs⟩ := hs.of_blank.of_token
  exact takes_insert h ls l rest hs.of_blank hl

/-- The keywords that a statement starts with tell what it is. -/
theorem takes_statement {s : Statement} (h : s.Readable) :
    Takes text (statement text) s.pieces s.rewritten fun t => t = .finish := by
  intro ls l rest hs hl
  cases s with
  | create | delete => exact h.elim
  | createAs table rows =>
    obtain ⟨start, stop, ls, rfl, -, hs⟩ := hs.of_token
    obtain ⟨start', stop', ls, rfl, -, hs⟩ := hs.of_blank.of_token
    exact takes_createAs h ls l rest hs.of_blank hl
  | drop table =>
    obtain ⟨start, stop, ls, rfl, -, hs⟩ := hs.of_token
    obtain ⟨start', stop', ls, rfl, -, hs⟩ := hs.of_blank.of_token
    exact takes_dropTable table ls l rest hs.of_blank hl
  | select projection table condition =>
    obtain ⟨hne, rfl⟩ := h
    obtain ⟨start, stop, ls, rfl, -, hs⟩ := hs.of_token
    exact takes_select hne ls l rest hs.of_blank fun he => by
      rw [hl] at he
      cases he
  | insert table columns rows =>
    exact takes_insertion h ls l rest hs fun he => by
      rw [hl] at he
      cases he

end Parse

namespace Statement

/-- A text is read as the statement that is taken from its pieces. -/
theorem parse_textOf {ps : List Piece} {s : Statement} (hps : Firm ps)
    (h : ∀ text, Takes text (Parse.statement text) ps s fun t => t = .finish) :
    parse (String.ofList (textOf ps)) = .ok s := by
  obtain ⟨ls, n, hscan, hshown⟩ := scan_textOf (hps [] Scan.ends_nil)
  have htaken := h (textOf ps) ls ⟨.finish, n, n⟩ [] hshown rfl
  simp only [parse, String.toList_ofList, hscan, htaken, bind, Except.bind]
  rfl

/-- **A statement is read back from its text**, but for the texts of items. -/
theorem parse_write {s : Statement} (h : s.Readable) : parse (String.ofList s.write) = .ok s.rewritten := by
  rw [← textOf_pieces h]
  exact parse_textOf (firm_pieces h) fun text => takes_statement h

/-! ### A semicolon at the end -/

theorem textOf_semicolon (ps : List Piece) : textOf (ps ++ [mark .semicolon]) = textOf ps ++ [';'] := textOf_append _ _

theorem fitAll_semicolon {ps : List Piece} (hps : Firm ps) : FitAll (ps ++ [mark .semicolon]) [] :=
  fitAll_append.2 ⟨hps _ (Scan.ends_cons (by decide) _), fun _ _ => fits_mark (by decide) _, trivial⟩

/-- A semicolon after the pieces of a statement is passed over. -/
theorem parse_textOf_semicolon {ps : List Piece} {s : Statement} (hps : Firm ps)
    (h : ∀ text, Takes text (Parse.statement text) ps s fun t => t = .mark .semicolon) :
    parse (String.ofList (textOf ps ++ [';'])) = .ok s := by
  obtain ⟨ls, n, hscan, hshown⟩ := scan_textOf (fitAll_semicolon hps)
  rw [textOf_semicolon] at hscan hshown
  obtain ⟨ls, ls', rfl, hs, hs'⟩ := hshown.of_append
  obtain ⟨start, stop, ls', rfl, -, hs'⟩ := hs'.of_token
  obtain rfl := hs'.eq_nil
  have htaken := h (textOf ps ++ [';']) ls ⟨.mark .semicolon, start, stop⟩ [⟨.finish, n, n⟩] hs rfl
  rw [List.append_assoc] at hscan
  simp only [parse, String.toList_ofList, hscan, List.cons_append, List.nil_append, htaken, bind, Except.bind]
  rfl

/-- An insertion is read as well with a semicolon after it. -/
theorem parse_insert_semicolon {table : String} {columns : Option (List String)} {rows : List (List Value)}
    (h : (insert table columns rows).Readable) :
    parse (String.ofList ((insert table columns rows).write ++ [';'])) = .ok (insert table columns rows) := by
  rw [← textOf_pieces h]
  exact parse_textOf_semicolon (firm_pieces h) fun text => (takes_insertion h).imp fun t ht => by
    rw [ht]
    exact fun he => nomatch he

end Statement

end TableStore
