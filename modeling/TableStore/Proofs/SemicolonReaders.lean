import TableStore.Proofs.Closing

/-!
# Readers before semicolons

- a text goes on with semicolons (`Parse.Closing`): an item takes none of them in if there are none or no parenthesis is
  open before them (`Parse.Clear`, `Parse.Closing.continues_item`);
- a value, a column and a condition are followed by a token of their statement or by the end of it, so only the last
  item of a literal row can take semicolons in (`Parse.ClearFor`, `Parse.Closing.continues_statement`).
-/

namespace TableStore

open Text

/-- A statement that creates a table from literal rows. -/
def Statement.IsLiteralTable : Statement → Prop
  | .createAs .. => True
  | _ => False

namespace Parse

variable {α β : Type} {text text' s : List Char} {l fin : Lexeme} {ls front tail : List Lexeme} {t : Token}

/-! ## Items -/

/-- The end of a text, and semicolons and an end that come instead of it when the text goes on. -/
structure Closing (text text' : List Char) (fin fin' : Lexeme) (semicolons : List Lexeme) : Prop where
  starts : text <+: text'
  finish : fin.token = .finish
  finish' : fin'.token = .finish
  semicolon : ∀ l ∈ semicolons, l.token = .mark .semicolon
  after : ∀ l ∈ semicolons, byteLength text < l.stop

/-- No item goes on into semicolons: there are none, or no parenthesis is open before them. -/
def Clear (semicolons ls : List Lexeme) : Prop := semicolons = [] ∨ AllClosed ls

/-- The semicolons are clear of a statement: only the items of literal rows can take them in. -/
def ClearFor (semicolons : List Lexeme) (s : Statement) (ls : List Lexeme) : Prop :=
  s.IsLiteralTable → Clear semicolons ls

variable {fin' : Lexeme} {semicolons : List Lexeme} {stops : List Token}

theorem blind_clear (semicolons : List Lexeme) : Blind (Clear semicolons) :=
  ⟨fun _ ls hl => or_congr_right (allClosed_cons hl ls), fun _ _ => .inr rfl⟩

theorem blind_clearFor (semicolons : List Lexeme) (s : Statement) : Blind (ClearFor semicolons s) :=
  ⟨fun l ls hl => imp_congr_right fun _ => (blind_clear semicolons).cons l ls hl,
    fun ls h hs => (blind_clear semicolons).nil ls (h hs)⟩

theorem Closing.closes (h : Closing text text' fin fin' semicolons) : Closes (semicolons ++ [fin']) := by
  cases semicolons with
  | nil => exact closes_finish h.finish'
  | cons l ls => exact ⟨l, ls ++ [fin'], rfl, .inl (h.semicolon l List.mem_cons_self)⟩

theorem item_of_length {n : Nat} (text : List Char) (e : Expectation) (h : itemLength stops 0 ls = n + 1) :
    item text stops e ls = .ok (ls.take (n + 1), ls.drop (n + 1)) := by
  unfold item
  rw [h]
  rfl

theorem exists_of_item {e : Expectation} {taken rest : List Lexeme} (h : item text stops e ls = .ok (taken, rest)) :
    ∃ n, itemLength stops 0 ls = n + 1 ∧ taken = ls.take (n + 1) ∧ rest = ls.drop (n + 1) := by
  cases hn : itemLength stops 0 ls with
  | succ n =>
    rw [item_of_length text e hn] at h
    cases h
    exact ⟨n, rfl, rfl, rfl⟩
  | zero =>
    unfold item at h
    rw [hn] at h
    cases ls with
    | nil => cases h
    | cons l ls => exact absurd h unexpected_ne_ok

theorem depthFrom_append (depth : Nat) (ls ls' : List Lexeme) :
    depthFrom depth (ls ++ ls') = depthFrom (depthFrom depth ls) ls' := List.foldl_append

/-- An item stops before semicolons that it does not go on into. -/
theorem Closing.itemLength_eq_zero (h : Closing text text' fin fin' semicolons) (hstops : .mark .semicolon ∈ stops)
    (hs : Clear semicolons front) : itemLength stops (depthFrom 0 front) (semicolons ++ [fin']) = 0 := by
  cases semicolons with
  | nil => rw [List.nil_append, itemLength, if_pos h.finish']
  | cons l ls =>
    have hdepth : depthFrom 0 front = 0 := hs.resolve_left (List.cons_ne_nil l ls)
    have hl := h.semicolon l List.mem_cons_self
    rw [List.cons_append, itemLength, if_neg (by simp [hl]), if_pos (by simp [hdepth, hl, hstops])]

/-- An item takes the same tokens before the semicolons. -/
theorem Closing.continues_item (h : Closing text text' fin fin' semicolons) (hstops : .mark .semicolon ∈ stops)
    (e : Expectation) : Continues fin (semicolons ++ [fin']) (fun _ => Clear semicolons) (item text stops e)
      (item text' stops e) := by
  intro front hfront taken' rest hread
  obtain ⟨n, hn, rfl, rfl⟩ := exists_of_item hread
  obtain ⟨taken, front', rfl, ⟨hne, hdepth, hlength⟩ | ⟨rfl, hlength⟩⟩ := exists_item stops hfront 0
  · have htaken : taken.length = n + 1 := (hlength [fin]).symm.trans hn
    have hclear : Clear semicolons (taken ++ front') ↔ Clear semicolons front' := by
      rw [Clear, Clear, AllClosed, AllClosed, depthFrom_append, hdepth]
    refine ⟨front', List.suffix_append taken front', ?_, fun _ => ?_, fun _ => ?_⟩
    · rw [List.append_assoc, List.drop_left' htaken]
    · exact hclear
    · rw [item_of_length text' e ((hlength _).trans htaken), List.append_assoc, List.append_assoc,
        List.take_left' htaken, List.take_left' htaken, List.drop_left' htaken]
  · rw [List.append_nil] at *
    have htaken : taken.length = n + 1 := by
      have hfinish : itemLength stops (depthFrom 0 taken) [fin] = 0 := by rw [itemLength, if_pos h.finish]
      rw [← hn, hlength, hfinish, Nat.add_zero]
    refine ⟨[], List.nil_suffix, ?_, fun hne => absurd rfl hne, fun hs => ?_⟩
    · rw [List.drop_left' htaken, List.nil_append]
    · have hs : Clear semicolons taken := hs.resolve_left fun hne => hne rfl
      have hall : itemLength stops 0 (taken ++ (semicolons ++ [fin'])) = n + 1 := by
        rw [hlength, h.itemLength_eq_zero hstops hs, Nat.add_zero, htaken]
      rw [item_of_length text' e hall, List.take_left' htaken, List.take_left' htaken, List.drop_left' htaken,
        List.nil_append]

theorem Closing.continues_value (h : Closing text text' fin fin' semicolons) :
    Continues fin (semicolons ++ [fin']) (fun _ => Clear semicolons) (value text) (value text') := by
  have hstops : Token.mark .semicolon ∈ [.mark .comma, .mark .closeParen, .mark .semicolon] := by simp
  refine (h.continues_item hstops .value).map fun taken ls v rest hv => ?_
  obtain ⟨s, hs, hv⟩ := Except.exists_of_bind hv
  cases hv
  exact ⟨rfl, fun ls' => by simp only [source_of_starts h.starts hs, bind, Except.bind], fun _ => Iff.rfl⟩

theorem Closing.continues_rowItem (h : Closing text text' fin fin' semicolons) :
    Continues fin (semicolons ++ [fin']) (fun _ => Clear semicolons) (rowItem text) (rowItem text') := by
  have hstops : Token.mark .semicolon ∈ [.mark .comma, .keyword .union, .mark .semicolon] := by simp
  refine (h.continues_item hstops .expression).map fun taken ls i rest hi => ?_
  dsimp only at hi ⊢
  generalize splitAlias taken = shown at hi ⊢
  obtain ⟨s, hs, hi⟩ := Except.exists_of_bind hi
  cases hi
  exact ⟨rfl, fun ls' => by simp only [source_of_starts h.starts hs, bind, Except.bind], fun _ => Iff.rfl⟩

theorem Closing.continues_literalRow (h : Closing text text' fin fin' semicolons) :
    Continues fin (semicolons ++ [fin']) (fun _ => Clear semicolons) (literalRow text) (literalRow text') :=
  (h.continues_rowItem.commaList h.closes h.finish (blind_clear semicolons)).after_token h.finish
    (by simp) fun _ l ls hl => (blind_clear semicolons).cons l ls (by rw [hl]; rfl)

theorem chains_moreLiteralRows (text : List Char) (n : Nat) :
    Chains (.keyword .union) (fun ls => do let ls ← expect text (.keyword .all) ls; moreLiteralRows text n ls)
      fun (row, ls) =>
        match ls with
        | ⟨.keyword .union, _, _⟩ :: ls => do
          let ls ← expect text (.keyword .all) ls
          let (rows, ls) ← moreLiteralRows text n ls
          .ok (row :: rows, ls)
        | ls => .ok ([row], ls) := by
  refine fun row => ⟨?_, fun ls h => ?_⟩
  · rintro ⟨_, _, _⟩ ls rfl
    dsimp only
    cases expect text (.keyword .all) ls <;> rfl
  · dsimp only
    split
    · cases h
    · rfl

theorem Closing.continues_moreLiteralRows (h : Closing text text' fin fin' semicolons) : ∀ {n m : Nat}, n ≤ m →
    Continues fin (semicolons ++ [fin']) (fun _ => Clear semicolons) (moreLiteralRows text n) (moreLiteralRows text' m)
  | 0, _, _ => fun _ _ _ _ h => nomatch h
  | n + 1, m + 1, hle => by
    refine Continues.chain h.closes h.finish (by simp) (blind_clear semicolons) (chains_moreLiteralRows text n)
      (chains_moreLiteralRows text' m) h.continues_literalRow ?_
    exact (h.continues_moreLiteralRows (Nat.le_of_succ_le_succ hle)).after_token h.finish (by simp)
      fun _ l ls hl => (blind_clear semicolons).cons l ls (by rw [hl]; rfl)

/-! ## Statements -/

theorem plain_of_name {n : String} (h : t.name? = some n) : t ≠ .finish ∧ depthAfter 0 t = 0 := by
  cases t with
  | name | quoted => exact ⟨(fun h => nomatch h), rfl⟩
  | _ => cases h

theorem takesOne_name (text text' : List Char) : TakesOne (name text) (name text') := by
  intro l ls n rest h
  rw [name] at h
  split at h
  · rename_i hn
    cases h
    obtain ⟨hfinish, hdepth⟩ := plain_of_name hn
    exact ⟨rfl, hfinish, hdepth, fun ls' => by rw [name, hn]⟩
  · exact absurd h unexpected_ne_ok

theorem takesOne_columnName (text text' : List Char) : TakesOne (columnName text) (columnName text') := by
  rintro ⟨t, start, stop⟩ ls n rest h
  by_cases ht : ∃ s, t = .string s
  · obtain ⟨s, rfl⟩ := ht
    cases h
    exact ⟨rfl, (fun h => nomatch h), rfl, fun _ => rfl⟩
  · have hname : ∀ text ls, columnName text (⟨t, start, stop⟩ :: ls) = name text (⟨t, start, stop⟩ :: ls) := by
      intro text ls
      unfold columnName
      split
      · rename_i he
        cases he
        exact absurd ⟨_, rfl⟩ ht
      · rfl
    rw [hname] at h
    obtain ⟨hrest, hfinish, hdepth, h'⟩ := takesOne_name text text' _ _ _ _ h
    exact ⟨hrest, hfinish, hdepth, fun ls' => (hname text' ls').trans (h' ls')⟩

theorem takesOne_count (text text' : List Char) : TakesOne (count text) (count text') := by
  intro l ls n rest h
  rw [count] at h
  split at h
  · rename_i s ht
    split at h
    · rename_i hn
      cases h
      exact ⟨rfl, by simp [ht], by rw [ht]; rfl, fun ls' => by simp only [count, ht, hn]⟩
    · exact absurd h unexpected_ne_ok
  · exact absurd h unexpected_ne_ok

theorem takesOne_typeName (text text' : List Char) : TakesOne (typeName text) (typeName text') := by
  intro l ls n rest h
  rw [typeName] at h
  split at h
  case h_4 => exact absurd h unexpected_ne_ok
  all_goals
    rename_i ht
    cases h
    exact ⟨rfl, by simp [ht], by rw [ht]; rfl, fun ls' => by simp only [typeName, ht]⟩

theorem branches_typeArgs (text : List Char) : Branches (.mark .openParen) (typeArgs text)
    (fun ls => do
      let (args, ls) ← commaList (count text) ls
      let ls ← expect text (.mark .closeParen) ls
      .ok (args, ls))
    (fun ls => .ok ([], ls)) where
  taken := by
    rintro ⟨_, _, _⟩ ls rfl
    rfl
  left ls h := by
    unfold typeArgs
    split
    · cases h
    · rfl

theorem branches_optionalCondition (text : List Char) : Branches (.keyword .where) (optionalCondition text)
    (fun ls => do
      let c ← condition? text (ls.takeWhile inCondition)
      .ok (c, ls.dropWhile inCondition))
    (fun ls => .ok (none, ls)) where
  taken := by
    rintro ⟨_, _, _⟩ ls rfl
    rfl
  left ls h := by
    unfold optionalCondition
    split
    · cases h
    · rfl

theorem branches_projection (text : List Char) : Branches (.mark .asterisk) (projection text)
    (fun ls => .ok (.all, ls))
    (fun ls => do
      let (names, ls) ← commaList (name text) ls
      .ok (.columns names, ls)) where
  taken := by
    rintro ⟨_, _, _⟩ ls rfl
    rfl
  left ls h := by
    unfold projection
    split
    · cases h
    · rfl

theorem branches_targetColumns (text : List Char) : Branches (.mark .openParen) (targetColumns text)
    (fun ls => do
      let (names, ls) ← commaList (columnName text) ls
      let ls ← expect text (.mark .closeParen) ls
      .ok (some names, ls))
    (fun ls => .ok (none, ls)) where
  taken := by
    rintro ⟨_, _, _⟩ ls rfl
    rfl
  left ls h := by
    unfold targetColumns
    split
    · cases h
    · rfl

/-- Takes the columns of a new table. -/
def columns (text : List Char) (ls : List Lexeme) : Except Error (List Column × List Lexeme) :=
  if comesNext (.mark .closeParen) ls then .ok ([], ls) else commaList (columnDef text) ls

/-- Takes what follows the name of a table with columns. -/
def columnTable (text : List Char) (table : String) (ls : List Lexeme) : Except Error (Statement × List Lexeme) := do
  let ls ← expect text (.mark .openParen) ls
  let (columns, ls) ← columns text ls
  let ls ← expect text (.mark .closeParen) ls
  .ok (.create ⟨table, columns⟩, ls)

/-- Takes what follows the name of a table from literal rows, and `AS`. -/
def rowTable (text : List Char) (table : String) (ls : List Lexeme) : Except Error (Statement × List Lexeme) := do
  let (rows, ls) ← moreLiteralRows text ls.length ls
  .ok (.createAs table rows, ls)

theorem exists_createTable (text : List Char) : ∃ g, (createTable text = fun ls => name text ls >>= g) ∧
    ∀ table, Branches (.keyword .as) (fun ls => g (table, ls)) (rowTable text table) (columnTable text table) := by
  refine ⟨_, rfl, fun table => ⟨?_, fun ls h => ?_⟩⟩
  · rintro ⟨_, _, _⟩ ls rfl
    rfl
  · dsimp only
    split
    · cases h
    · unfold columnTable columns
      cases expect text (.mark .openParen) ls with
      | error e => rfl
      | ok ls =>
        dsimp only [bind, Except.bind]
        split <;> rfl

/-- The words that a statement starts with stand before its end. -/
theorem exists_of_words (hfin : fin.token = .finish) : ∀ (words : List Lexeme) {front ls : List Lexeme},
    (∀ w ∈ words, w.token.isKeyword) → front ++ [fin] = words ++ ls → ∃ front', front = words ++ front' ∧
      ls = front' ++ [fin]
  | [], front, _, _, h => ⟨front, rfl, h.symm⟩
  | w :: _, [], _, hwords, h => by
    have hw := hwords w List.mem_cons_self
    rw [← (List.cons.inj h).1, hfin] at hw
    cases hw
  | w :: words, x :: front, ls, hwords, h => by
    obtain ⟨rfl, htail⟩ := List.cons.inj h
    obtain ⟨front', rfl, hls⟩ := exists_of_words hfin words (fun w hw => hwords w (List.mem_cons_of_mem _ hw)) htail
    exact ⟨front', rfl, hls⟩

theorem Blind.words {P : List Lexeme → Prop} (hP : Blind P) : ∀ {words : List Lexeme},
    (∀ w ∈ words, w.token.isKeyword) → ∀ ls, P (words ++ ls) ↔ P ls
  | [], _, _ => Iff.rfl
  | w :: words, hwords, ls => by
    have hdepth : depthAfter 0 w.token = 0 := by
      have hw := hwords w List.mem_cons_self
      cases ht : w.token with
      | mark =>
        rw [ht] at hw
        cases hw
      | _ => rfl
    exact (hP.cons w _ hdepth).trans (hP.words (fun w hw => hwords w (List.mem_cons_of_mem _ hw)) ls)

/-- The words `IF EXISTS` stand before the tail, or not at all. -/
theorem exists_skipIfExists : ∀ front : List Lexeme, ∃ front', front' <:+ front ∧
    ∀ tail, Closes tail → skipIfExists (front ++ tail) = front' ++ tail
  | [] => by
    refine ⟨[], List.suffix_rfl, fun tail htail => ?_⟩
    obtain ⟨⟨t, _, _⟩, ls, rfl, hl | hl⟩ := htail <;> obtain rfl := hl <;> rfl
  | [⟨t, start, stop⟩] => by
    refine ⟨[⟨t, start, stop⟩], List.suffix_rfl, fun tail htail => ?_⟩
    obtain ⟨⟨t', _, _⟩, ls, rfl, hl | hl⟩ := htail <;> obtain rfl := hl <;> cases t <;> rfl
  | ⟨t, start, stop⟩ :: ⟨t', start', stop'⟩ :: front => by
    by_cases hnames : ∃ a b, t = .name a ∧ t' = .name b ∧
        (sameLetters a.toList "IF".toList && sameLetters b.toList "EXISTS".toList) = true
    · obtain ⟨a, b, rfl, rfl, hwords⟩ := hnames
      refine ⟨front, ⟨[_, _], rfl⟩, fun tail _ => ?_⟩
      rw [List.cons_append, List.cons_append, skipIfExists, if_pos hwords]
    · refine ⟨_, List.suffix_rfl, fun tail _ => ?_⟩
      rw [List.cons_append, List.cons_append]
      unfold skipIfExists
      split
      · rename_i he
        cases he
        exact if_neg fun hwords => hnames ⟨_, _, rfl, rfl, hwords⟩
      · rfl

/-- A reader does not take a table from literal rows. -/
def Rowless (read : Except Error (Statement × List Lexeme)) : Prop := ∀ s rest, read = .ok (s, rest) → ¬s.IsLiteralTable

theorem rowless_ok {s : Statement} (h : ¬s.IsLiteralTable) (ls : List Lexeme) : Rowless (.ok (s, ls)) := by
  intro _ _ hread
  cases hread
  exact h

theorem Rowless.bind {x : Except Error α} {g : α → Except Error (Statement × List Lexeme)} (h : ∀ a, Rowless (g a)) :
    Rowless (x >>= g) := by
  intro s rest hread
  obtain ⟨a, -, hread⟩ := Except.exists_of_bind hread
  exact h a s rest hread

theorem rowless_columnTable (text : List Char) (table : String) (ls : List Lexeme) :
    Rowless (columnTable text table ls) :=
  .bind fun _ => .bind fun _ => .bind fun _ => rowless_ok id _

theorem rowless_dropTable (text : List Char) (ls : List Lexeme) : Rowless (dropTable text ls) :=
  .bind fun _ => rowless_ok id _

theorem rowless_select (text : List Char) (ls : List Lexeme) : Rowless (select text ls) :=
  .bind fun _ => .bind fun _ => .bind fun _ => .bind fun _ => rowless_ok id _

theorem rowless_insert (text : List Char) (ls : List Lexeme) : Rowless (insert text ls) :=
  .bind fun _ => .bind fun _ => .bind fun _ => .bind fun _ => rowless_ok id _

theorem rowless_delete (text : List Char) (ls : List Lexeme) : Rowless (delete text ls) :=
  .bind fun _ => .bind fun _ => rowless_ok id _

theorem Continues.rowless {f f' : List Lexeme → Except Error (Statement × List Lexeme)}
    (hf : Continues fin tail (fun _ _ => True) f f') (hs : ∀ ls, Rowless (f ls)) :
    Continues fin tail (ClearFor semicolons) f f' := by
  intro front hfront s rest h
  obtain ⟨front', hsuffix, hrest, -, h'⟩ := hf front hfront s rest h
  have hother := hs _ s rest h
  exact ⟨front', hsuffix, hrest, fun _ => ⟨fun _ hs => absurd hs hother, fun _ hs => absurd hs hother⟩,
    fun _ => h' (.inr trivial)⟩

namespace Closing

variable (h : Closing text text' fin fin' semicolons)
include h

theorem continues_typeArgs :
    Continues fin (semicolons ++ [fin']) (fun _ _ => True) (typeArgs text) (typeArgs text') := by
  refine Continues.branch h.closes h.finish (by simp) (by simp) (branches_typeArgs text) (branches_typeArgs text') ?_
    (continues_ok [] _) fun _ _ _ _ => Iff.rfl
  have hargs := ((takesOne_count text text').continues h.finish).commaList h.closes h.finish blind_true
  exact hargs.before_token h.finish (by simp) (fun _ _ => rfl) (fun _ _ => rfl) fun args => continues_ok args _

theorem continues_columnDef :
    Continues fin (semicolons ++ [fin']) (fun _ _ => False) (columnDef text) (columnDef text') := by
  refine ((takesOne_columnName text text').continues h.finish).inner.bind blind_false fun n => ?_
  refine ((takesOne_typeName text text').continues h.finish).inner.bind blind_false fun type => ?_
  refine h.continues_typeArgs.inner.bind blind_false fun args => ?_
  intro front hfront c rest hread
  cases hread
  obtain ⟨front', hsuffix, ⟨hne, hskip⟩ | ⟨rfl, hskip⟩⟩ := exists_constraints hfront 0
  · exact ⟨front', hsuffix, hskip _, fun _ => Iff.rfl, fun _ => congrArg _ (congrArg _ (hskip _))⟩
  · exact ⟨[], hsuffix, (hskip _).trans (skipConstraints_finish h.finish _), fun _ => Iff.rfl,
      fun hor => absurd rfl (hor.resolve_right id)⟩

theorem continues_optionalCondition :
    Continues fin (semicolons ++ [fin']) (fun _ _ => True) (optionalCondition text) (optionalCondition text') := by
  refine Continues.branch h.closes h.finish (by simp) (by simp) (branches_optionalCondition text)
    (branches_optionalCondition text') ?_ (continues_ok none _) fun _ _ _ _ => Iff.rfl
  intro front hfront c rest hread
  obtain ⟨c, hc, hread⟩ := Except.exists_of_bind hread
  cases hread
  obtain ⟨htake, hdrop⟩ := whole_condition (closes_finish h.finish) front
  obtain ⟨htake', hdrop'⟩ := whole_condition h.closes front
  rw [htake] at hc
  refine ⟨_, List.dropWhile_suffix inCondition, hdrop, fun _ => Iff.rfl, fun _ => ?_⟩
  simp only [htake', hdrop', condition?_of_starts h.starts hc, bind, Except.bind]

theorem continues_projection :
    Continues fin (semicolons ++ [fin']) (fun _ _ => True) (projection text) (projection text') := by
  refine Continues.branch h.closes h.finish (by simp) (by simp) (branches_projection text) (branches_projection text')
    (continues_ok Projection.all _) ?_ fun _ _ _ _ => Iff.rfl
  have hnames := ((takesOne_name text text').continues h.finish).commaList h.closes h.finish blind_true
  exact hnames.bind blind_true fun names => continues_ok (Projection.columns names) _

theorem continues_targetColumns :
    Continues fin (semicolons ++ [fin']) (fun _ _ => True) (targetColumns text) (targetColumns text') := by
  refine Continues.branch h.closes h.finish (by simp) (by simp) (branches_targetColumns text)
    (branches_targetColumns text') ?_ (continues_ok none _) fun _ _ _ _ => Iff.rfl
  have hnames := ((takesOne_columnName text text').continues h.finish).commaList h.closes h.finish blind_true
  exact hnames.before_token h.finish (by simp) (fun _ _ => rfl) (fun _ _ => rfl) fun names =>
    continues_ok (some names) _

theorem continues_row : Continues fin (semicolons ++ [fin']) (fun _ _ => True) (row text) (row text') := by
  refine Continues.after_token h.finish (by simp) ?_ fun _ _ _ _ => Iff.rfl
  have hvalues := h.continues_value.commaList h.closes h.finish (blind_clear semicolons)
  exact hvalues.before_token h.finish (by simp) (fun _ _ => rfl) (fun _ _ => rfl) fun values => continues_ok values _

theorem continues_insert : Continues fin (semicolons ++ [fin']) (fun _ _ => True) (insert text) (insert text') := by
  refine (takesOne_name text text').bind h.finish (fun table => ?_) fun _ => blind_true
  refine h.continues_targetColumns.bind blind_true fun columns => ?_
  refine Continues.after_token h.finish (by simp) ?_ fun _ _ _ _ => Iff.rfl
  exact (h.continues_row.commaList h.closes h.finish blind_true).bind blind_true fun rows => continues_ok _ _

theorem continues_select : Continues fin (semicolons ++ [fin']) (fun _ _ => True) (select text) (select text') := by
  refine h.continues_projection.bind blind_true fun shown => ?_
  refine Continues.after_token h.finish (by simp) ?_ fun _ _ _ _ => Iff.rfl
  refine (takesOne_name text text').bind h.finish (fun table => ?_) fun _ => blind_true
  exact h.continues_optionalCondition.bind blind_true fun condition => continues_ok _ _

theorem continues_delete : Continues fin (semicolons ++ [fin']) (fun _ _ => True) (delete text) (delete text') := by
  refine (takesOne_name text text').bind h.finish (fun table => ?_) fun _ => blind_true
  exact h.continues_optionalCondition.bind blind_true fun condition => continues_ok _ _

theorem continues_dropTable :
    Continues fin (semicolons ++ [fin']) (fun _ _ => True) (dropTable text) (dropTable text') := by
  have hcontinues : Continues fin (semicolons ++ [fin']) (fun _ _ => True) (name text) (name text') :=
    (takesOne_name text text').continues h.finish
  intro front hfront s rest hread
  obtain ⟨front₁, hsuffix₁, hskip⟩ := exists_skipIfExists front
  rw [dropTable, hskip _ (closes_finish h.finish)] at hread
  obtain ⟨⟨table, ls⟩, hname, hread⟩ := Except.exists_of_bind hread
  cases hread
  obtain ⟨front', hsuffix, rfl, -, hcont⟩ := hcontinues front₁ (hfront.of_suffix hsuffix₁) table _ hname
  refine ⟨front', hsuffix.trans hsuffix₁, rfl, fun _ => Iff.rfl, fun _ => ?_⟩
  simp only [dropTable, hskip _ h.closes, hcont (.inr trivial), bind, Except.bind]

theorem continues_columns :
    Continues fin (semicolons ++ [fin']) (fun _ _ => False) (columns text) (columns text') := by
  have hclose : ∀ front {tail}, Closes tail →
      comesNext (.mark .closeParen) (front ++ tail) = comesNext (.mark .closeParen) front :=
    fun front _ htail => comesNext_append (by simp) (by simp) htail front
  intro front hfront cs rest hread
  rw [columns, hclose front (closes_finish h.finish)] at hread
  rw [columns, hclose front h.closes]
  split at hread
  · rename_i hnone
    cases hread
    exact ⟨front, List.suffix_rfl, rfl, fun _ => Iff.rfl, fun _ => by rw [if_pos hnone]⟩
  · rename_i hsome
    rw [if_neg hsome]
    exact h.continues_columnDef.commaList h.closes h.finish blind_false front hfront cs rest hread

theorem continues_rowTable (table : String) : Continues fin (semicolons ++ [fin'])
    (ClearFor semicolons) (rowTable text table) (rowTable text' table) := by
  have hrows : Continues fin (semicolons ++ [fin']) (fun _ => Clear semicolons)
      (fun ls => moreLiteralRows text ls.length ls) (fun ls => moreLiteralRows text' ls.length ls) :=
    fun front hfront => h.continues_moreLiteralRows (by simp) front hfront
  refine hrows.map fun rows ls s rest hs => ?_
  cases hs
  exact ⟨rfl, fun _ => rfl, fun _ => ⟨fun h => h trivial, fun h _ => h⟩⟩

theorem continues_columnTable (table : String) : Continues fin (semicolons ++ [fin']) (fun _ _ => True)
    (columnTable text table) (columnTable text' table) := by
  refine Continues.after_token h.finish (by simp) ?_ fun _ _ _ _ => Iff.rfl
  exact h.continues_columns.before_token h.finish (by simp) (fun _ _ => rfl) (fun _ _ => rfl) fun columns =>
    continues_ok _ _

theorem continues_createTable : Continues fin (semicolons ++ [fin'])
    (ClearFor semicolons) (createTable text) (createTable text') := by
  obtain ⟨g, hg, hbranches⟩ := exists_createTable text
  obtain ⟨g', hg', hbranches'⟩ := exists_createTable text'
  rw [hg, hg']
  refine (takesOne_name text text').bind h.finish (fun table => ?_) fun s => blind_clearFor semicolons s
  exact Continues.branch h.closes h.finish (by simp) (by simp) (hbranches table) (hbranches' table)
    (h.continues_rowTable table) ((h.continues_columnTable table).rowless (rowless_columnTable text table))
    fun s l ls hl => (blind_clearFor semicolons s).cons l ls (by rw [hl]; rfl)

/-- Readers of statements after the words that these start with. -/
theorem continues_words (words : List Lexeme) {f f' g' : List Lexeme → Except Error (Statement × List Lexeme)}
    (hf : Continues fin (semicolons ++ [fin']) (ClearFor semicolons) f f')
    {front ls rest : List Lexeme} (hwords : ∀ w ∈ words, w.token.isKeyword) (hfront : Unfinished front)
    (hls : front ++ [fin] = words ++ ls) {s : Statement} (hread : f ls = .ok (s, rest))
    (hg : ∀ ls, g' (words ++ ls) = f' ls) :
    ∃ front', front' <:+ front ∧ rest = front' ++ [fin] ∧
      (front' ≠ [] → (ClearFor semicolons s front ↔ ClearFor semicolons s front')) ∧
      (front' ≠ [] ∨ ClearFor semicolons s front →
        g' (front ++ (semicolons ++ [fin'])) = .ok (s, front' ++ (semicolons ++ [fin']))) := by
  obtain ⟨front₁, rfl, rfl⟩ := exists_of_words h.finish words hwords hls
  obtain ⟨front', hsuffix, hrest, hiff, h'⟩ := hf front₁ (hfront.of_suffix (List.suffix_append _ _)) s rest hread
  have hclear := (blind_clearFor semicolons s).words hwords front₁
  refine ⟨front', hsuffix.trans (List.suffix_append _ _), hrest, fun hne => hclear.trans (hiff hne), fun hor => ?_⟩
  rw [List.append_assoc, hg]
  exact h' (hor.imp_right hclear.1)

theorem continues_statement : Continues fin (semicolons ++ [fin'])
    (ClearFor semicolons) (statement text) (statement text') := by
  intro front hfront s rest hread
  unfold statement at hread
  split at hread
  case h_1 hls =>
    refine h.continues_words [_, _] h.continues_createTable ?_ hfront hls hread fun _ => rfl
    simp [Token.isKeyword]
  case h_2 hls =>
    refine h.continues_words [_, _] (h.continues_dropTable.rowless (rowless_dropTable text)) ?_ hfront hls hread
      fun _ => rfl
    simp [Token.isKeyword]
  case h_3 hls =>
    refine h.continues_words [_] (h.continues_select.rowless (rowless_select text)) ?_ hfront hls hread fun _ => rfl
    simp [Token.isKeyword]
  case h_4 hls =>
    refine h.continues_words [_, _] (h.continues_insert.rowless (rowless_insert text)) ?_ hfront hls hread fun _ => rfl
    simp [Token.isKeyword]
  case h_5 hls =>
    refine h.continues_words [_, _] (h.continues_delete.rowless (rowless_delete text)) ?_ hfront hls hread fun _ => rfl
    simp [Token.isKeyword]
  case h_6 =>
    split at hread
    · cases hread
    · obtain ⟨_, -, hread⟩ := Except.exists_of_bind hread
      cases hread
  case h_7 => cases hread

end Closing

end Parse

end TableStore
