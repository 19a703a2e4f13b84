import TableStore.Proofs.Accepted
import TableStore.Proofs.ColumnTypes
import TableStore.Proofs.Spelling
import TableStore.Proofs.UpperCase

/-!
# Table definitions read back

- the definition of a table is read from the tokens of its names and types, which stand among the tokens of the text
  (`Definition`, `Definition.exists_of_parse`);
- the text of a definition has no more quotes, and no more characters that have another one in upper case, than these
  tokens need, so if it is read as the same definition then no token of a type is between quotes
  (`Definition.tight`, `Definition.bare_of_occurs`);
- so a definition is read back from its text exactly when its types are bare
  (`Statement.tables_of_bare_types_survive`).
-/

namespace TableStore

open Parse Text

/-! ## Tokens of definitions -/

namespace Token

/-- A name or a quoted text. -/
def Spells : Token → Prop
  | .name _ | .quoted _ | .string _ => True
  | _ => False

variable {t : Token}

theorem spells_of_name? {n : String} (h : t.name? = some n) : t.Spells ∧ t.spelled = n.toList := by
  cases t with
  | name | quoted =>
    cases h
    exact ⟨trivial, rfl⟩
  | _ => cases h

/-- What stands between no quotes is a bare name. -/
theorem isBareName_of_quote?_eq_none (ht : t.Spells) (h : t.quote? = none) : isBareName t.spelled := by
  cases t with
  | name s =>
    rw [quote?] at h
    split at h
    · assumption
    · cases h
  | string | quoted => cases h
  | _ => exact ht.elim

theorem quote?_mem (t : Token) : t.quote? ∈ [none, some '\'', some '"', some '`'] := by
  cases t with
  | name s =>
    rw [quote?]
    split <;> simp
  | _ => simp [quote?]

end Token

/-- The tokens that a column is read from, and the arguments of its type. -/
structure Reading where
  name : Token
  type : Token
  args : List UInt32
  name_spells : name.Spells
  type_spells : type.Spells

/-- The column. -/
def Reading.column (r : Reading) : Column := ⟨String.ofList r.name.spelled, .ofParts r.type.spelled r.args⟩

/-- The tokens that the definition of a table is read from. -/
structure Definition where
  name : Token
  columns : List Reading
  name_spells : name.Spells

namespace Definition

variable (d : Definition)

/-- The table. -/
def table : Table := ⟨String.ofList d.name.spelled, d.columns.map Reading.column⟩

/-- The tokens of the names. -/
def names : List Token := d.name :: d.columns.map Reading.name

/-- The tokens of the types. -/
def types : List Token := d.columns.map Reading.type

/-- The tokens as they stand in a text. -/
def tokens : List Token := d.name :: d.columns.flatMap fun r => [r.name, r.type]

/-- The tokens of a definition are among those of a text. -/
def Occurs (text : List Char) : Prop := ∃ ls, scan text = .ok ls ∧ d.tokens.Sublist (ls.map Lexeme.token)

end Definition

/-! ## Readers -/

namespace Parse

/-- What a reader gives is read from some tokens that stand among those that it takes. -/
def Finds {α β : Type} (f : List Lexeme → Except Error (α × List Lexeme)) (value : β → α) (tokens : β → List Token) :
    Prop :=
  ∀ ls a rest, f ls = .ok (a, rest) →
    ∃ b, value b = a ∧ (tokens b ++ rest.map Lexeme.token).Sublist (ls.map Lexeme.token)

variable {α β : Type} {text : List Char} {ls rest : List Lexeme}

theorem finds_separated {item : List Lexeme → Except Error (α × List Lexeme)} {value : β → α}
    {tokens : β → List Token} (hitem : Finds item value tokens) :
    ∀ fuel, Finds (separated item fuel) (List.map value) (List.flatMap tokens)
  | 0, _, _, _, h => nomatch h
  | fuel + 1, ls, as, rest, h => by
    obtain ⟨⟨a, ls'⟩, hfirst, h⟩ := Except.exists_of_bind h
    obtain ⟨b, rfl, hb⟩ := hitem _ _ _ hfirst
    dsimp only at h
    split at h
    · rename_i ls''
      obtain ⟨⟨as', rest'⟩, hlater, h⟩ := Except.exists_of_bind h
      obtain ⟨bs, rfl, hbs⟩ := finds_separated hitem fuel _ _ _ hlater
      cases h
      refine ⟨b :: bs, rfl, List.Sublist.trans ?_ hb⟩
      rw [List.flatMap_cons, List.append_assoc]
      exact (hbs.cons _).append_left (tokens b)
    · cases h
      refine ⟨[b], rfl, ?_⟩
      rwa [List.flatMap_singleton]

theorem finds_commaList {item : List Lexeme → Except Error (α × List Lexeme)} {value : β → α}
    {tokens : β → List Token} (hitem : Finds item value tokens) :
    Finds (commaList item) (List.map value) (List.flatMap tokens) :=
  fun ls => finds_separated hitem ls.length ls

theorem exists_of_columnName {n : String} (h : columnName text ls = .ok (n, rest)) :
    ∃ l, ls = l :: rest ∧ l.token.Spells ∧ l.token.spelled = n.toList := by
  unfold columnName at h
  split at h
  · cases h
    exact ⟨_, rfl, trivial, rfl⟩
  · obtain ⟨l, hls, hn⟩ := exists_of_name h
    exact ⟨l, hls, Token.spells_of_name? hn⟩

theorem exists_of_typeName {n : String} (h : typeName text ls = .ok (n, rest)) :
    ∃ l, ls = l :: rest ∧ l.token.Spells ∧ l.token.spelled = n.toList := by
  cases ls with
  | nil => cases h
  | cons l ls =>
    obtain ⟨t, start, stop⟩ := l
    rw [typeName] at h
    cases t with
    | name | quoted | string =>
      cases h
      exact ⟨_, rfl, trivial, rfl⟩
    | _ => exact absurd h unexpected_ne_ok

theorem gives_count : Gives (count text) fun _ => True := by
  intro ls n rest h
  cases ls with
  | nil => cases h
  | cons l ls =>
    rw [count] at h
    split at h
    · split at h
      · cases h
        exact ⟨trivial, List.suffix_cons l _⟩
      · exact absurd h unexpected_ne_ok
    · exact absurd h unexpected_ne_ok

theorem gives_typeArgs : Gives (typeArgs text) fun _ => True := by
  intro ls args rest h
  unfold typeArgs at h
  split at h
  · obtain ⟨⟨args', ls'⟩, hargs, h⟩ := Except.exists_of_bind h
    obtain ⟨ls'', hclose, h⟩ := Except.exists_of_bind h
    cases h
    have hsuffix := (gives_commaList gives_count _ _ _ hargs).2
    exact ⟨trivial, (suffix_of_expect hclose).trans (hsuffix.trans (List.suffix_cons _ _))⟩
  · cases h
    exact ⟨trivial, List.suffix_refl _⟩

theorem skipConstraints_suffix (depth : Nat) (ls : List Lexeme) : skipConstraints depth ls <:+ ls := by
  fun_induction skipConstraints depth ls with
  -- the constraints end here
  | case1 | case2 | case3 | case4 => exact List.suffix_refl _
  -- a parenthesis or another token of them
  | case5 | case6 | case7 =>
    rename_i ih
    exact ih.trans (List.suffix_cons _ _)

theorem finds_columnDef : Finds (columnDef text) Reading.column fun r => [r.name, r.type] := by
  intro ls c rest h
  obtain ⟨⟨n, ls₁⟩, hname, h⟩ := Except.exists_of_bind h
  obtain ⟨⟨type, ls₂⟩, htype, h⟩ := Except.exists_of_bind h
  obtain ⟨⟨args, ls₃⟩, hargs, h⟩ := Except.exists_of_bind h
  cases h
  obtain ⟨l, rfl, hspells, hn⟩ := exists_of_columnName hname
  obtain ⟨l', rfl, hspells', hn'⟩ := exists_of_typeName htype
  have hsuffix := (skipConstraints_suffix 0 ls₃).trans (gives_typeArgs _ _ _ hargs).2
  refine ⟨⟨l.token, l'.token, args, hspells, hspells'⟩, ?_, ?_⟩
  · rw [Reading.column, hn, hn', String.ofList_toList]
  · exact ((hsuffix.sublist.map Lexeme.token).cons_cons _).cons_cons _

theorem exists_of_createTable {t : Table} (h : createTable text ls = .ok (.create t, rest)) :
    ∃ d : Definition, d.table = t ∧ d.tokens.Sublist (ls.map Lexeme.token) := by
  obtain ⟨⟨table, ls₁⟩, hname, h⟩ := Except.exists_of_bind h
  obtain ⟨l, hls, hn⟩ := exists_of_name hname
  obtain ⟨hspells, hn⟩ := Token.spells_of_name? hn
  rw [hls]
  dsimp only at h
  split at h
  · obtain ⟨⟨rows, ls'⟩, -, h⟩ := Except.exists_of_bind h
    cases h
  obtain ⟨ls₂, hopen, h⟩ := Except.exists_of_bind h
  have hrest : (ls₂.map Lexeme.token).Sublist (ls₁.map Lexeme.token) := (suffix_of_expect hopen).sublist.map _
  split at h
  · obtain ⟨_, hnil, h⟩ := Except.exists_of_bind h
    obtain ⟨ls₃, -, h⟩ := Except.exists_of_bind h
    cases hnil
    cases h
    refine ⟨⟨l.token, [], hspells⟩, ?_, (List.nil_sublist _).cons_cons _⟩
    rw [Definition.table, hn, String.ofList_toList]
    rfl
  · obtain ⟨⟨columns, ls₃⟩, hcolumns, h⟩ := Except.exists_of_bind h
    obtain ⟨ls₄, -, h⟩ := Except.exists_of_bind h
    cases h
    obtain ⟨rs, rfl, hsublist⟩ := finds_commaList finds_columnDef _ _ _ hcolumns
    refine ⟨⟨l.token, rs, hspells⟩, ?_, ?_⟩
    · rw [Definition.table, hn, String.ofList_toList]
    · exact (((List.sublist_append_left _ _).trans hsublist).trans hrest).cons_cons _

end Parse

namespace Definition

/-- **A table is read from tokens of its text.** -/
theorem exists_of_parse {text : String} {t : Table} (h : Statement.parse text = .ok (.create t)) :
    ∃ d : Definition, d.table = t ∧ d.Occurs text.toList := by
  obtain ⟨ls, rest, hscan, hs⟩ := Statement.exists_of_parse h
  unfold statement at hs
  split at hs
  · obtain ⟨d, hd, hsublist⟩ := exists_of_createTable hs
    exact ⟨d, hd, _, hscan, (hsublist.cons _).cons _⟩
  · obtain ⟨_, -, hs⟩ := Except.exists_of_bind hs
    cases hs
  · obtain ⟨_, _, _, _, hs, -⟩ := exists_of_select hs
    cases hs
  · obtain ⟨_, -, hs⟩ := Except.exists_of_bind hs
    obtain ⟨_, -, hs⟩ := Except.exists_of_bind hs
    obtain ⟨_, -, hs⟩ := Except.exists_of_bind hs
    obtain ⟨_, -, hs⟩ := Except.exists_of_bind hs
    cases hs
  · obtain ⟨_, _, _, hs, -⟩ := exists_of_delete hs
    cases hs
  · split at hs
    · cases hs
    · obtain ⟨_, -, hs⟩ := Except.exists_of_bind hs
      cases hs
  · cases hs

/-! ## What the text of a definition holds -/

/-- Characters that neither the words and marks of a definition nor its numbers have. -/
structure Foreign (p : Char → Bool) : Prop where
  words : ∀ c ∈ "CREATE TABLE (),".toList, p c = false
  digits : ∀ c, isDigit c → p c = false

variable {p : Char → Bool}

/-- A character of another kind does not count. -/
theorem countP_cons_of_eq_false {c : Char} (hc : p c = false) (cs : List Char) : (c :: cs).countP p = cs.countP p :=
  List.countP_cons_of_neg (by rw [hc]; exact Bool.false_ne_true)

theorem Foreign.countP_cons {c : Char} (hp : Foreign p) (hc : c ∈ "CREATE TABLE (),".toList) (cs : List Char) :
    (c :: cs).countP p = cs.countP p :=
  countP_cons_of_eq_false (hp.words c hc) cs

theorem Foreign.countP_listed (hp : Foreign p) : ∀ ts : List (List Char),
    (listed ts).countP p = (ts.map (List.countP p)).sum
  | [] => rfl
  | [t] => by simp [listed]
  | t :: u :: ts => by
    have ih := hp.countP_listed (u :: ts)
    rw [listed, List.countP_append, hp.countP_cons (c := ',') (by decide), hp.countP_cons (c := ' ') (by decide), ih]
    · rfl
    · exact List.cons_ne_nil _ _

theorem Foreign.countP_inParens (hp : Foreign p) (ts : List (List Char)) :
    (inParens ts).countP p = (ts.map (List.countP p)).sum := by
  rw [inParens, hp.countP_cons (c := '(') (by decide), List.countP_append, hp.countP_listed,
    hp.countP_cons (c := ')') (by decide), List.countP_nil, Nat.add_zero]

/-- Only the name of a type counts. -/
theorem Foreign.countP_display (hp : Foreign p) (name : List Char) (args : List UInt32) :
    (ColumnType.ofParts name args).display.toList.countP p = (upper name).countP p := by
  obtain ⟨kept, hdisplay, -⟩ := ColumnType.exists_display name args
  rw [hdisplay]
  cases kept with
  | nil => rw [ColumnType.withArgs, List.isEmpty_nil, if_pos rfl, String.toList_ofList]
  | cons n ns =>
    have hdigits : ∀ ds ∈ (n :: ns).map fun n => Decimal.digits n.toNat, ds.countP p = 0 := fun ds hds => by
      obtain ⟨m, -, rfl⟩ := List.mem_map.1 hds
      refine List.countP_eq_zero.2 fun c hc => ?_
      rw [hp.digits c (List.all_eq_true.1 (Decimal.all_isDigit_digits _) c hc)]
      exact Bool.false_ne_true
    have hzero : (((n :: ns).map fun n => Decimal.digits n.toNat).map (List.countP p)).sum = 0 := by
      refine List.sum_eq_zero fun k hk => ?_
      obtain ⟨ds, hds, rfl⟩ := List.mem_map.1 hk
      exact hdigits ds hds
    rw [ColumnType.toList_withArgs _ (List.cons_ne_nil n ns), List.countP_append, hp.countP_inParens, hzero,
      Nat.add_zero, String.toList_ofList]

variable (d : Definition)

/-- **The text of a definition has the characters of its names and types**, and no others of a foreign kind. -/
theorem countP_write (hp : Foreign p) : (Statement.create d.table).write.countP p =
    (d.names.map fun t => (writeName (String.ofList t.spelled)).countP p).sum +
      (d.types.map fun t => (upper t.spelled).countP p).sum := by
  have hblank := hp.countP_cons (c := ' ') (by decide)
  have hkeywords : "CREATE TABLE ".toList.countP p = 0 := List.countP_eq_zero.2 fun c hc => by
    rw [hp.words c (List.mem_of_mem_take (i := 13) hc)]
    exact Bool.false_ne_true
  have hcolumn : ∀ r : Reading, (Statement.writeColumn r.column).countP p =
      (writeName (String.ofList r.name.spelled)).countP p + (upper r.type.spelled).countP p := fun r => by
    rw [Statement.writeColumn, List.countP_append, hblank]
    exact congrArg (_ + ·) (hp.countP_display _ _)
  have hcolumns : ((d.table.columns.map Statement.writeColumn).map (List.countP p)).sum =
      (d.columns.map fun r => (writeName (String.ofList r.name.spelled)).countP p).sum +
        (d.columns.map fun r => (upper r.type.spelled).countP p).sum := by
    rw [← List.sum_map_add, table, List.map_map, List.map_map]
    exact congrArg List.sum (List.map_congr_left fun r _ => hcolumn r)
  change ("CREATE TABLE ".toList ++ writeName d.table.name ++
    ' ' :: inParens (d.table.columns.map Statement.writeColumn)).countP p = _
  rw [List.countP_append, List.countP_append, hkeywords, hblank, hp.countP_inParens, hcolumns, names, types,
    List.map_cons, List.sum_cons, List.map_map, List.map_map, Nat.zero_add, Nat.add_assoc]
  rfl

theorem sum_tokens (w : Token → Nat) : (d.tokens.map w).sum = (d.names.map w).sum + (d.types.map w).sum := by
  have hcolumns : ∀ rs : List Reading, ((rs.flatMap fun r => [r.name, r.type]).map w).sum =
      ((rs.map Reading.name).map w).sum + ((rs.map Reading.type).map w).sum := fun rs => by
    induction rs with
    | nil => rfl
    | cons r rs ih =>
      simp only [List.flatMap_cons, List.map_append, List.sum_append, List.map_cons, List.map_nil, List.sum_cons,
        List.sum_nil, ih]
      omega
  rw [tokens, names, types, List.map_cons, List.map_cons, List.sum_cons, List.sum_cons, hcolumns, Nat.add_assoc]

/-- Numbers that are not below others are these if their sum is not above. -/
theorem eq_of_sum_le {α : Type} {l : List α} {f g : α → Nat} (hle : ∀ a ∈ l, f a ≤ g a)
    (h : (l.map g).sum ≤ (l.map f).sum) : ∀ a ∈ l, g a = f a := by
  intro a ha
  by_contra hne
  have hlt : f a < g a := Nat.lt_of_le_of_ne (hle a ha) fun he => hne he.symm
  exact absurd (List.sum_lt_sum f g hle ⟨a, ha, hlt⟩) (Nat.not_lt.2 h)

/-- **The text of a definition has no room for more than its names and types.** What their tokens need is at least what
the text holds of them; if these tokens are read from that text, it is exactly that. -/
theorem tight {w : Token → Nat} (hp : Foreign p)
    (hw : ∀ position cs t chars, Scan.readToken position cs = .ok (t, chars) → w t ≤ chars.countP p)
    (hnames : ∀ t ∈ d.names, (writeName (String.ofList t.spelled)).countP p ≤ w t)
    (htypes : ∀ t ∈ d.types, (upper t.spelled).countP p ≤ w t) (h : d.Occurs (Statement.create d.table).write) :
    (∀ t ∈ d.names, w t = (writeName (String.ofList t.spelled)).countP p) ∧
      ∀ t ∈ d.types, w t = (upper t.spelled).countP p := by
  obtain ⟨ls, hscan, hsublist⟩ := h
  have hroom := sum_le_of_scan hw hscan hsublist
  rw [d.countP_write hp, d.sum_tokens] at hroom
  have hn := List.sum_le_sum hnames
  have ht := List.sum_le_sum htypes
  exact ⟨eq_of_sum_le hnames (by omega), eq_of_sum_le htypes (by omega)⟩

/-! ## Definitions that are read back -/

/-- Whether a character has another one in upper case. -/
def hasUpper (c : Char) : Bool := upperChar c != [c]

theorem foreign_hasUpper : Foreign hasUpper where
  words := forall_mem_of_all (P := fun c => hasUpper c = false) (by decide)
  digits _ hc := forall_digit (P := fun c => hasUpper c = false) (by decide) hc

theorem foreign_quote {q : Char} (hq : q ∈ ['\'', '`', '"']) : Foreign (· == q) := by
  simp only [List.mem_cons, List.not_mem_nil, or_false] at hq
  rcases hq with rfl | rfl | rfl
  · exact ⟨forall_mem_of_all (P := fun c => (c == '\'') = false) (by decide),
      fun _ hc => forall_digit (P := fun c => (c == '\'') = false) (by decide) hc⟩
  · exact ⟨forall_mem_of_all (P := fun c => (c == '`') = false) (by decide),
      fun _ hc => forall_digit (P := fun c => (c == '`') = false) (by decide) hc⟩
  · exact ⟨forall_mem_of_all (P := fun c => (c == '"') = false) (by decide),
      fun _ hc => forall_digit (P := fun c => (c == '"') = false) (by decide) hc⟩

theorem countP_double {q : Char} (hq : p q = false) : ∀ s : List Char, (double q s).countP p = s.countP p
  | [] => rfl
  | c :: s => by
    have ih := countP_double hq s
    rw [double]
    split
    · rename_i hc
      rw [hc, countP_cons_of_eq_false hq, countP_cons_of_eq_false hq, countP_cons_of_eq_false hq, ih]
    · rw [List.countP_cons, List.countP_cons, ih]

/-- Quotes apart, a name is written with its own characters. -/
theorem countP_writeName (hq : p '"' = false) (n : String) : (writeName n).countP p = n.toList.countP p := by
  rw [writeName]
  split
  · rfl
  · rw [enclose, countP_cons_of_eq_false hq, List.countP_append, countP_double hq, countP_cons_of_eq_false hq,
      List.countP_nil, Nat.add_zero]

theorem countP_upper (s : List Char) : (upper s).countP hasUpper = 0 :=
  List.countP_eq_zero.2 fun c hc hne => by
    obtain ⟨b, -, hb⟩ := List.mem_flatMap.1 hc
    rw [hasUpper, upperChar_of_mem hb, bne_self_eq_false] at hne
    cases hne

variable {d}

/-- The types are spelled in upper case. -/
theorem upper_type (h : d.Occurs (Statement.create d.table).write) : ∀ t ∈ d.types, upper t.spelled = t.spelled := by
  have hread : ∀ position cs t chars, Scan.readToken position cs = .ok (t, chars) →
      t.spelled.countP hasUpper ≤ chars.countP hasUpper := fun _ _ _ _ hread => Scan.countP_spelled_le _ hread
  have hnames : ∀ t ∈ d.names, (writeName (String.ofList t.spelled)).countP hasUpper ≤ t.spelled.countP hasUpper :=
    fun t _ => by rw [countP_writeName (by decide), String.toList_ofList]
  have htypes : ∀ t ∈ d.types, (upper t.spelled).countP hasUpper ≤ t.spelled.countP hasUpper := fun t _ => by
    rw [countP_upper]
    exact Nat.zero_le _
  intro t ht
  have htight := (d.tight foreign_hasUpper hread hnames htypes h).2 t ht
  rw [countP_upper] at htight
  refine upper_eq_self fun c hc => ?_
  by_contra hne
  exact List.countP_eq_zero.1 htight c hc (bne_iff_ne.2 hne)

/-- If the names do not need fewer of a quote than are written for them, no type is between such quotes. -/
theorem tight_quotes {q : Char} (hq : q ∈ ['\'', '`', '"'])
    (hnames : ∀ t ∈ d.names, (writeName (String.ofList t.spelled)).count q ≤ t.quotes q)
    (h : d.Occurs (Statement.create d.table).write) :
    (∀ t ∈ d.names, t.quotes q = (writeName (String.ofList t.spelled)).count q) ∧
      ∀ t ∈ d.types, t.quote? ≠ some q := by
  have hupper := upper_type h
  have htypes : ∀ t ∈ d.types, (upper t.spelled).count q ≤ t.quotes q := fun t ht => by
    rw [hupper t ht]
    exact t.count_le_quotes q
  obtain ⟨hn, ht⟩ := d.tight (foreign_quote hq) (fun _ _ _ _ hread => Scan.quotes_le q hread) hnames htypes h
  refine ⟨hn, fun t hmem => t.quote?_ne_of_quotes_eq ?_⟩
  rw [ht t hmem, hupper t hmem]
  rfl

/-- Nothing is between single quotes or backticks. -/
theorem quote?_ne {q : Char} (hq : q ∈ ['\'', '`']) (h : d.Occurs (Statement.create d.table).write) :
    (∀ t ∈ d.names, t.quote? ≠ some q) ∧ ∀ t ∈ d.types, t.quote? ≠ some q := by
  have hother : ('"' == q) = false := forall_mem_of_all (P := fun q => ('"' == q) = false) (by decide) q hq
  have hcount : ∀ t : Token, (writeName (String.ofList t.spelled)).count q = t.spelled.count q := fun t => by
    have hp := countP_writeName (p := (· == q)) hother (String.ofList t.spelled)
    rwa [String.toList_ofList] at hp
  have hmem : q ∈ ['\'', '`', '"'] := List.mem_append_left ['"'] hq
  obtain ⟨hn, ht⟩ := tight_quotes hmem (fun t _ => (hcount t).trans_le (t.count_le_quotes q)) h
  exact ⟨fun t hmem => t.quote?_ne_of_quotes_eq ((hn t hmem).trans (hcount t)), ht⟩

/-- Names in double quotes have room for all double quotes that are written. -/
theorem count_writeName_le {t : Token} (ht : t.Spells) (hsingle : t.quote? ≠ some '\'') (hback : t.quote? ≠ some '`') :
    (writeName (String.ofList t.spelled)).count '"' ≤ t.quotes '"' := by
  have hquote := t.quote?_mem
  simp only [List.mem_cons, List.not_mem_nil, or_false, hsingle, hback, false_or] at hquote
  rw [writeName, String.toList_ofList]
  rcases hquote with hnone | hdouble
  · rw [if_pos (Token.isBareName_of_quote?_eq_none ht hnone)]
    exact t.count_le_quotes '"'
  · rw [Token.quotes, if_pos hdouble]
    split
    · omega
    · rw [count_enclose]

theorem spells_of_mem_names {t : Token} (ht : t ∈ d.names) : t.Spells := by
  rcases List.mem_cons.1 ht with rfl | ht
  · exact d.name_spells
  · obtain ⟨r, -, rfl⟩ := List.mem_map.1 ht
    exact r.name_spells

/-- **If the text of a definition is read as the same definition, its types are bare.** Their tokens are between no
quotes at all, so each of them is a bare name, and it is in upper case. -/
theorem bare_of_occurs (h : d.Occurs (Statement.create d.table).write) : ∀ c ∈ d.table.columns, c.type.Bare := by
  -- only when no name is between single quotes or backticks, the names have room for the double quotes
  obtain ⟨hsingle, hsingle'⟩ := quote?_ne (q := '\'') (by decide) h
  obtain ⟨hback, hback'⟩ := quote?_ne (q := '`') (by decide) h
  have hdouble := (tight_quotes (by decide)
    (fun t ht => count_writeName_le (spells_of_mem_names ht) (hsingle t ht) (hback t ht)) h).2
  intro c hc
  obtain ⟨r, hr, rfl⟩ := List.mem_map.1 hc
  have hmem : r.type ∈ d.types := List.mem_map_of_mem hr
  have hquote := r.type.quote?_mem
  simp only [List.mem_cons, List.not_mem_nil, or_false, hsingle' _ hmem, hback' _ hmem, hdouble _ hmem] at hquote
  exact ⟨r.type.spelled, r.args, Token.isBareName_of_quote?_eq_none r.type_spells hquote, upper_type h _ hmem, rfl⟩

end Definition

namespace ColumnType

theorem ofParts_upper (name : List Char) (args : List UInt32) : ofParts (upper name) args = ofParts name args := by
  simp only [ofParts, upper_upper]

/-- Types that are known by name are bare. -/
theorem bare_or_other (name : List Char) (args : List UInt32) :
    (ofParts name args).Bare ∨ ∃ shown, ofParts name args = .other shown := by
  by_cases hbare : isBareName (upper name)
  · exact .inl ⟨upper name, args, hbare, upper_upper name, (ofParts_upper name args).symm⟩
  have hknown : ∀ word : String, isBareName word.toList → String.ofList (upper name) ≠ word := by
    rintro word hword rfl
    rw [String.toList_ofList] at hword
    exact hbare hword
  right
  simp only [ofParts]
  split
  all_goals
    rename_i hword
    first
    | exact absurd hword (hknown _ (by decide))
    | exact ⟨_, rfl⟩

end ColumnType

namespace Statement

/-- A table is read back from its text exactly when its types are bare. -/
theorem parse_write_create_iff (t : Table) :
    parse (String.ofList (create t).write) = .ok (create t) ↔ ∀ c ∈ t.columns, c.type.Bare := by
  refine ⟨fun h => ?_, parse_write_create⟩
  obtain ⟨d, rfl, hoccurs⟩ := Definition.exists_of_parse h
  rw [String.toList_ofList] at hoccurs
  exact Definition.bare_of_occurs hoccurs

/-- **A table that is read from a text is read back from its own text exactly when its types are bare**, and the types
that are known by name are bare, whatever quotes they were read from. -/
theorem tables_of_bare_types_survive {text : String} {t : Table} (h : parse text = .ok (.create t)) :
    (parse (String.ofList (create t).write) = .ok (create t) ↔ ∀ c ∈ t.columns, c.type.Bare) ∧
    ∀ c ∈ t.columns, c.type.Bare ∨ ∃ shown, c.type = .other shown := by
  refine ⟨parse_write_create_iff t, fun c hc => ?_⟩
  obtain ⟨d, rfl, -⟩ := Definition.exists_of_parse h
  obtain ⟨r, -, rfl⟩ := List.mem_map.1 hc
  exact ColumnType.bare_or_other r.type.spelled r.args

/-- Of a type of two words in double quotes the second is lost on the way; quotes around one word are not missed. -/
theorem type_of_two_words_is_lost :
    let lost : Table := ⟨"t", [⟨"a", .other "DOUBLE PRECISION"⟩]⟩
    let kept : Table := ⟨"my table", [⟨"select", .varchar (some 7)⟩, ⟨"b", .other "MONEY(3)"⟩]⟩
    parse "CREATE TABLE t (a \"double precision\")" = .ok (create lost) ∧
    parse (String.ofList (create lost).write) = .ok (create ⟨"t", [⟨"a", .other "DOUBLE"⟩]⟩) ∧
    (¬∀ c ∈ lost.columns, c.type.Bare) ∧
    parse "CREATE TABLE `my table` ('select' \"varchar\"(7) NOT NULL, b 'money' (3))" = .ok (create kept) ∧
    parse (String.ofList (create kept).write) = .ok (create kept) := by
  intro lost kept
  have hlost : parse "CREATE TABLE t (a \"double precision\")" = .ok (create lost) :=
    Except.eq_ok_of_toOption (by decide +kernel)
  have hagain : parse (String.ofList (create lost).write) = .ok (create ⟨"t", [⟨"a", .other "DOUBLE"⟩]⟩) :=
    Except.eq_ok_of_toOption (by decide +kernel)
  have hkept : parse "CREATE TABLE `my table` ('select' \"varchar\"(7) NOT NULL, b 'money' (3))" = .ok (create kept) :=
    Except.eq_ok_of_toOption (by decide +kernel)
  refine ⟨hlost, hagain, fun hbare => ?_, hkept, (tables_of_bare_types_survive hkept).1.2 ?_⟩
  · have hsame := (tables_of_bare_types_survive hlost).1.2 hbare
    rw [hagain] at hsame
    revert hsame
    decide
  · intro c hc
    simp only [kept, List.mem_cons, List.not_mem_nil, or_false] at hc
    rcases hc with rfl | rfl
    · exact ⟨"VARCHAR".toList, [7], by decide, by decide, by decide⟩
    · exact ⟨"MONEY".toList, [3], by decide, by decide, by decide⟩

end Statement

end TableStore
