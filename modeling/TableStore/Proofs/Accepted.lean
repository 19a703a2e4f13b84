import TableStore.Proofs.Reprinting

/-!
# Statements that are read

- a reader `Gives` a property when every value that it gives has it, whatever tokens it takes; what it leaves is the
  end of the tokens;
- no list of a statement that is read is empty but for the columns of a new table, and none of its values is a boolean
  (`Statement.Formed`, `Statement.formed_of_parse`);
- a statement that is read from a text is read back from its own text: as it is, but for the texts of the items of
  literal rows, which become the literals (`Statement.parse_write_of_parse`).
-/

namespace TableStore

/-- A result that is there succeeded. -/
theorem Except.eq_ok_of_toOption {ε α : Type} {x : Except ε α} {a : α} (h : x.toOption = some a) : x = .ok a := by
  cases x with
  | error e => cases h
  | ok b => exact congrArg _ (Option.some.inj h)

namespace Value

/-- A value that is no boolean. -/
def BoolFree (v : Value) : Prop := ∀ b, v ≠ .boolean b

/-- A value that is no infinity and no NaN. -/
def Finite : Value → Prop
  | .real r => r.isFinite
  | _ => True

instance : DecidablePred Finite
  | .real r => inferInstanceAs (Decidable (r.isFinite = true))
  | .null | .boolean _ | .integer _ | .text _ => .isTrue trivial

theorem BoolFree.writable {v : Value} (h : v.BoolFree) (hf : v.Finite) : v.Writable := by
  cases v with
  | boolean b => exact h b rfl
  | real => exact hf
  | null | integer | text => trivial

end Value

/-! ## What readers give -/

namespace Parse

/-- Every value that a reader gives has a property, and what is left is the end of the tokens. -/
def Gives {α : Type} (f : List Lexeme → Except Error (α × List Lexeme)) (P : α → Prop) : Prop :=
  ∀ ls a rest, f ls = .ok (a, rest) → P a ∧ rest <:+ ls

variable {α : Type} {text : List Char} {ls rest : List Lexeme}

theorem unexpected_ne_ok {e : Expectation} {l : Lexeme} {a : α} : unexpected text e l ≠ .ok a := by
  unfold unexpected
  split
  · exact fun h => nomatch h
  · intro h
    obtain ⟨_, -, h⟩ := Except.exists_of_bind h
    cases h

theorem suffix_of_expect {t : Token} (h : expect text t ls = .ok rest) : rest <:+ ls := by
  cases ls with
  | nil => cases h
  | cons l ls =>
    rw [expect] at h
    split at h
    · cases h
      exact List.suffix_cons l _
    · exact absurd h unexpected_ne_ok

/-- A name is read from the first token. -/
theorem exists_of_name {n : String} (h : name text ls = .ok (n, rest)) :
    ∃ l, ls = l :: rest ∧ l.token.name? = some n := by
  cases ls with
  | nil => cases h
  | cons l ls =>
    rw [name] at h
    split at h
    · rename_i hn
      cases h
      exact ⟨l, rfl, hn⟩
    · exact absurd h unexpected_ne_ok

theorem gives_name : Gives (name text) fun _ => True := by
  intro ls n rest h
  obtain ⟨l, rfl, -⟩ := exists_of_name h
  exact ⟨trivial, List.suffix_cons l rest⟩

theorem gives_columnName : Gives (columnName text) fun _ => True := by
  intro ls n rest h
  unfold columnName at h
  split at h
  · cases h
    exact ⟨trivial, List.suffix_cons _ _⟩
  · exact gives_name _ _ _ h

theorem gives_separated {item : List Lexeme → Except Error (α × List Lexeme)} {P : α → Prop} (hitem : Gives item P) :
    ∀ fuel, Gives (separated item fuel) fun as => as ≠ [] ∧ ∀ a ∈ as, P a
  | 0, _, _, _, h => nomatch h
  | fuel + 1, ls, as, rest, h => by
    obtain ⟨⟨a, ls'⟩, hfirst, h⟩ := Except.exists_of_bind h
    obtain ⟨ha, hsuffix⟩ := hitem _ _ _ hfirst
    dsimp only at h
    split at h
    · obtain ⟨⟨as', ls''⟩, hlater, h⟩ := Except.exists_of_bind h
      obtain ⟨⟨-, has⟩, hsuffix'⟩ := gives_separated hitem fuel _ _ _ hlater
      cases h
      exact ⟨⟨List.cons_ne_nil _ _, List.forall_mem_cons.2 ⟨ha, has⟩⟩,
        hsuffix'.trans ((List.suffix_cons _ _).trans hsuffix)⟩
    · cases h
      exact ⟨⟨List.cons_ne_nil _ _, List.forall_mem_singleton.2 ha⟩, hsuffix⟩

theorem gives_commaList {item : List Lexeme → Except Error (α × List Lexeme)} {P : α → Prop} (hitem : Gives item P) :
    Gives (commaList item) fun as => as ≠ [] ∧ ∀ a ∈ as, P a :=
  fun ls => gives_separated hitem ls.length ls

theorem gives_item {stops : List Token} {e : Expectation} : Gives (item text stops e) fun _ => True := by
  intro ls taken rest h
  unfold item at h
  split at h
  · exact absurd h unexpected_ne_ok
  · cases h
  · cases h
    exact ⟨trivial, List.drop_suffix _ _⟩

/-! ### Values -/

theorem gives_value : Gives (value text) Value.BoolFree := by
  intro ls v rest h
  obtain ⟨⟨taken, ls'⟩, htaken, h⟩ := Except.exists_of_bind h
  obtain ⟨s, -, h⟩ := Except.exists_of_bind h
  cases h
  exact ⟨Literal.read_ne_boolean s, (gives_item _ _ _ htaken).2⟩

theorem gives_rowItem : Gives (rowItem text) fun i => i.value.BoolFree := by
  intro ls i rest h
  obtain ⟨⟨taken, ls'⟩, htaken, h⟩ := Except.exists_of_bind h
  obtain ⟨s, -, h⟩ := Except.exists_of_bind h
  cases h
  exact ⟨Literal.read_ne_boolean s, (gives_item _ _ _ htaken).2⟩

theorem gives_row : Gives (row text) fun r => r ≠ [] ∧ ∀ v ∈ r, v.BoolFree := by
  intro ls r rest h
  obtain ⟨ls₁, hopen, h⟩ := Except.exists_of_bind h
  obtain ⟨⟨values, ls₂⟩, hvalues, h⟩ := Except.exists_of_bind h
  obtain ⟨ls₃, hclose, h⟩ := Except.exists_of_bind h
  cases h
  obtain ⟨hr, hsuffix⟩ := gives_commaList gives_value _ _ _ hvalues
  exact ⟨hr, (suffix_of_expect hclose).trans (hsuffix.trans (suffix_of_expect hopen))⟩

theorem gives_literalRow : Gives (literalRow text) fun r => r ≠ [] ∧ ∀ i ∈ r, i.value.BoolFree := by
  intro ls r rest h
  obtain ⟨ls', hselect, h⟩ := Except.exists_of_bind h
  obtain ⟨hr, hsuffix⟩ := gives_commaList gives_rowItem _ _ _ h
  exact ⟨hr, hsuffix.trans (suffix_of_expect hselect)⟩

theorem gives_moreLiteralRows : ∀ fuel, Gives (moreLiteralRows text fuel) fun rows =>
    rows ≠ [] ∧ ∀ r ∈ rows, r ≠ [] ∧ ∀ i ∈ r, i.value.BoolFree
  | 0, _, _, _, h => nomatch h
  | fuel + 1, ls, rows, rest, h => by
    obtain ⟨⟨r, ls₁⟩, hfirst, h⟩ := Except.exists_of_bind h
    obtain ⟨hr, hsuffix⟩ := gives_literalRow _ _ _ hfirst
    dsimp only at h
    split at h
    · obtain ⟨ls₂, hall, h⟩ := Except.exists_of_bind h
      obtain ⟨⟨rows', ls₃⟩, hlater, h⟩ := Except.exists_of_bind h
      obtain ⟨⟨-, hrows⟩, hsuffix'⟩ := gives_moreLiteralRows fuel _ _ _ hlater
      cases h
      exact ⟨⟨List.cons_ne_nil _ _, List.forall_mem_cons.2 ⟨hr, hrows⟩⟩,
        hsuffix'.trans ((suffix_of_expect hall).trans ((List.suffix_cons _ _).trans hsuffix))⟩
    · cases h
      exact ⟨⟨List.cons_ne_nil _ _, List.forall_mem_singleton.2 hr⟩, hsuffix⟩

end Parse

/-! ## What statements are read -/

namespace Statement

/-- No list of the statement is empty but for the columns of a new table, and no value of it is a boolean. -/
def Formed : Statement → Prop
  | createAs _ rows => rows ≠ [] ∧ ∀ r ∈ rows, r ≠ [] ∧ ∀ i ∈ r, i.value.BoolFree
  | select projection _ _ => projection ≠ .columns []
  | insert _ columns rows => columns ≠ some [] ∧ rows ≠ [] ∧ ∀ r ∈ rows, r ≠ [] ∧ ∀ v ∈ r, v.BoolFree
  | _ => True

/-- The condition of a statement, if it has one. -/
def condition? : Statement → Option Condition
  | select _ _ condition | delete _ condition => condition
  | _ => none

end Statement

namespace Parse

variable {text : List Char} {ls rest : List Lexeme} {s : Statement}

theorem formed_of_createTable (h : createTable text ls = .ok (s, rest)) : s.Formed ∧ s.condition? = none := by
  obtain ⟨⟨table, ls'⟩, -, h⟩ := Except.exists_of_bind h
  dsimp only at h
  split at h
  · obtain ⟨⟨rows, ls''⟩, hrows, h⟩ := Except.exists_of_bind h
    cases h
    exact ⟨(gives_moreLiteralRows _ _ _ _ hrows).1, rfl⟩
  · obtain ⟨_, -, h⟩ := Except.exists_of_bind h
    -- with columns and without
    split at h
    all_goals
      obtain ⟨_, -, h⟩ := Except.exists_of_bind h
      obtain ⟨_, -, h⟩ := Except.exists_of_bind h
      cases h
      exact ⟨trivial, rfl⟩

theorem formed_of_dropTable (h : dropTable text ls = .ok (s, rest)) : s.Formed ∧ s.condition? = none := by
  obtain ⟨_, -, h⟩ := Except.exists_of_bind h
  cases h
  exact ⟨trivial, rfl⟩

theorem gives_targetColumns : Gives (targetColumns text) fun columns => columns ≠ some [] := by
  intro ls columns rest h
  unfold targetColumns at h
  split at h
  · obtain ⟨⟨names, ls'⟩, hnames, h⟩ := Except.exists_of_bind h
    obtain ⟨ls'', hclose, h⟩ := Except.exists_of_bind h
    cases h
    obtain ⟨⟨hne, -⟩, hsuffix⟩ := gives_commaList gives_columnName _ _ _ hnames
    refine ⟨fun he => hne (Option.some.inj he), ?_⟩
    exact (suffix_of_expect hclose).trans (hsuffix.trans (List.suffix_cons _ _))
  · cases h
    exact ⟨(fun he => nomatch he), List.suffix_refl _⟩

theorem formed_of_insert (h : insert text ls = .ok (s, rest)) : s.Formed ∧ s.condition? = none := by
  obtain ⟨_, -, h⟩ := Except.exists_of_bind h
  obtain ⟨⟨columns, ls'⟩, hcolumns, h⟩ := Except.exists_of_bind h
  obtain ⟨_, -, h⟩ := Except.exists_of_bind h
  obtain ⟨⟨rows, ls''⟩, hrows, h⟩ := Except.exists_of_bind h
  cases h
  exact ⟨⟨(gives_targetColumns _ _ _ hcolumns).1, (gives_commaList gives_row _ _ _ hrows).1⟩, rfl⟩

theorem gives_projection : Gives (projection text) fun p => p ≠ .columns [] := by
  intro ls p rest h
  unfold projection at h
  split at h
  · cases h
    exact ⟨(fun he => nomatch he), List.suffix_cons _ _⟩
  · obtain ⟨⟨names, ls'⟩, hnames, h⟩ := Except.exists_of_bind h
    cases h
    obtain ⟨⟨hne, -⟩, hsuffix⟩ := gives_commaList gives_name _ _ _ hnames
    exact ⟨fun he => hne (Projection.columns.inj he), hsuffix⟩

/-- Without its keyword there is no condition. -/
theorem eq_none_of_optionalCondition {c : Option Condition} (hls : ∀ l ∈ ls, l.token ≠ .keyword .where)
    (h : optionalCondition text ls = .ok (c, rest)) : c = none := by
  unfold optionalCondition at h
  split at h
  · exact absurd rfl (hls _ List.mem_cons_self)
  · cases h
    rfl

theorem exists_of_select (h : select text ls = .ok (s, rest)) : ∃ p table c ls', s = .select p table c ∧
    p ≠ .columns [] ∧ ls' <:+ ls ∧ optionalCondition text ls' = .ok (c, rest) := by
  obtain ⟨⟨p, ls₁⟩, hp, h⟩ := Except.exists_of_bind h
  obtain ⟨ls₂, hfrom, h⟩ := Except.exists_of_bind h
  obtain ⟨⟨table, ls₃⟩, htable, h⟩ := Except.exists_of_bind h
  obtain ⟨⟨c, ls₄⟩, hc, h⟩ := Except.exists_of_bind h
  cases h
  obtain ⟨hne, hsuffix⟩ := gives_projection _ _ _ hp
  exact ⟨p, table, c, ls₃, rfl, hne,
    (gives_name _ _ _ htable).2.trans ((suffix_of_expect hfrom).trans hsuffix), hc⟩

theorem exists_of_delete (h : delete text ls = .ok (s, rest)) : ∃ table c ls', s = .delete table c ∧ ls' <:+ ls ∧
    optionalCondition text ls' = .ok (c, rest) := by
  obtain ⟨⟨table, ls₁⟩, htable, h⟩ := Except.exists_of_bind h
  obtain ⟨⟨c, ls₂⟩, hc, h⟩ := Except.exists_of_bind h
  cases h
  exact ⟨table, c, ls₁, rfl, (gives_name _ _ _ htable).2, hc⟩

theorem formed_of_statement (h : statement text ls = .ok (s, rest)) :
    s.Formed ∧ ((∀ l ∈ ls, l.token ≠ .keyword .where) → s.condition? = none) := by
  unfold statement at h
  split at h
  · exact (formed_of_createTable h).imp_right fun hc _ => hc
  · exact (formed_of_dropTable h).imp_right fun hc _ => hc
  · obtain ⟨p, table, c, ls', rfl, hne, hsuffix, hc⟩ := exists_of_select h
    exact ⟨hne, fun hls => eq_none_of_optionalCondition
      (fun l hl => hls l (List.mem_cons_of_mem _ (hsuffix.subset hl))) hc⟩
  · exact (formed_of_insert h).imp_right fun hc _ => hc
  · obtain ⟨table, c, ls', rfl, hsuffix, hc⟩ := exists_of_delete h
    exact ⟨trivial, fun hls => eq_none_of_optionalCondition
      (fun l hl => hls l (List.mem_cons_of_mem _ (List.mem_cons_of_mem _ (hsuffix.subset hl)))) hc⟩
  · split at h
    · cases h
    · obtain ⟨_, -, h⟩ := Except.exists_of_bind h
      cases h
  · cases h

end Parse

namespace Statement

variable {text : String} {s : Statement}

/-- Whether the keyword of a condition is among the tokens of a text. -/
def hasWhere (text : String) : Bool :=
  match scan text.toList with
  | .ok ls => ls.any fun l => l.token == .keyword .where
  | .error _ => false

/-- A statement that a text is read as is taken from its tokens. -/
theorem exists_of_parse (h : parse text = .ok s) :
    ∃ ls rest, scan text.toList = .ok ls ∧ Parse.statement text.toList ls = .ok (s, rest) := by
  obtain ⟨ls, hscan, h⟩ := Except.exists_of_bind h
  obtain ⟨⟨s', rest⟩, hs, h⟩ := Except.exists_of_bind h
  obtain ⟨_, -, h⟩ := Except.exists_of_bind h
  cases h
  exact ⟨ls, rest, hscan, hs⟩

theorem formed_of_parse (h : parse text = .ok s) : s.Formed ∧ (hasWhere text = false → s.condition? = none) := by
  obtain ⟨ls, rest, hscan, hs⟩ := exists_of_parse h
  obtain ⟨hformed, hcondition⟩ := Parse.formed_of_statement hs
  refine ⟨hformed, fun hw => hcondition fun l hl he => ?_⟩
  have hall := List.any_eq_false.1 (show ls.any (fun l => l.token == .keyword .where) = false by
    rw [hasWhere, hscan] at hw
    exact hw)
  exact hall l hl (beq_iff_eq.2 he)

/-- The values of a statement that stores rows. -/
def values : Statement → List Value
  | createAs _ rows => rows.flatMap (·.map Item.value)
  | insert _ _ rows => rows.flatten
  | _ => []

/-- A statement of a text that stores rows, drops a table, or selects rows without the keyword of a condition. -/
def Unconditional (text : String) : Statement → Prop
  | createAs .. | drop _ | insert .. => True
  | select .. => hasWhere text = false
  | create _ | delete .. => False

theorem readable_of_parse (h : parse text = .ok s) (hs : s.Unconditional text) (hvalues : ∀ v ∈ s.values, v.Finite) :
    s.Readable := by
  obtain ⟨hformed, hcondition⟩ := formed_of_parse h
  cases s with
  | create | delete => exact hs.elim
  | createAs table rows =>
    refine hformed.imp_right fun hrows r hr => (hrows r hr).imp_right fun hitems i hi => ?_
    exact (hitems i hi).writable (hvalues _ (List.mem_flatMap.2 ⟨r, hr, List.mem_map_of_mem hi⟩))
  | drop => trivial
  | select => exact ⟨hformed, hcondition hs⟩
  | insert table columns rows =>
    refine hformed.imp_right fun h => h.imp_right fun hrows r hr => (hrows r hr).imp_right fun hrow v hv => ?_
    exact (hrow v hv).writable (hvalues _ (List.mem_flatten_of_mem hr hv))

theorem writeRows_rewritten : ∀ rows : List (List Item), writeRows (rows.map (·.map Item.rewritten)) = writeRows rows
  | [] => rfl
  | [r] => by
    change "SELECT ".toList ++ listed ((r.map Item.rewritten).map writeItem) =
      "SELECT ".toList ++ listed (r.map writeItem)
    rw [List.map_map]
    rfl
  | r :: r' :: rows => by
    have ih := writeRows_rewritten (r' :: rows)
    change "SELECT ".toList ++ listed ((r.map Item.rewritten).map writeItem) ++ " UNION ALL ".toList ++
      writeRows ((r' :: rows).map (·.map Item.rewritten)) =
        "SELECT ".toList ++ listed (r.map writeItem) ++ " UNION ALL ".toList ++ writeRows (r' :: rows)
    rw [ih, List.map_map]
    rfl

/-- The texts of items are not written. -/
theorem write_rewritten (s : Statement) : s.rewritten.write = s.write := by
  cases s with
  | createAs table rows =>
    exact congrArg ("CREATE TABLE ".toList ++ writeName table ++ " AS ".toList ++ ·) (writeRows_rewritten rows)
  | create | drop | select | insert | delete => rfl

/-- **A statement that is read from a text is read back from its own text**, which stays the same. -/
theorem parse_write_of_parse (h : parse text = .ok s) (hs : s.Unconditional text)
    (hvalues : ∀ v ∈ s.values, v.Finite) :
    parse (String.ofList s.write) = .ok s.rewritten ∧ s.rewritten.write = s.write :=
  ⟨parse_write (readable_of_parse h hs hvalues), write_rewritten s⟩

/-- A table whose name is a keyword, from rows with quotes in names and texts, a real without a whole part, and what is
no literal and so kept as text. -/
def keywordTable : String :=
  "create table `select` as select 'a''b' as \"x\"\"y\", -.50 as `no name` union all select null, (b - c);"

theorem parse_write_keywordTable :
    let s := createAs "select" [
      [⟨"'a''b'", .text "a'b", some "x\"y"⟩, ⟨"-.50", .real ⟨0xBFE0000000000000⟩, some "no name"⟩],
      [⟨"null", .null, none⟩, ⟨"(b - c)", .text "(b - c)", none⟩]]
    parse keywordTable = .ok s ∧ s.Unconditional keywordTable ∧ (∀ v ∈ s.values, v.Finite) ∧
      parse (String.ofList s.write) = .ok s.rewritten ∧ s.rewritten.write = s.write := by
  intro s
  have h : parse keywordTable = .ok s := Except.eq_ok_of_toOption (by decide +kernel)
  have hvalues : ∀ v ∈ s.values, v.Finite := by decide +kernel
  exact ⟨h, trivial, hvalues, parse_write_of_parse h trivial hvalues⟩

end Statement

end TableStore
