import TableStore.Proofs.Reprinting

/-!
# Column types read back

- a type is shown as the upper case of the name that it is made from and the arguments that it keeps
  (`ColumnType.exists_display`);
- a type is `Bare` when it is made from a bare word in upper case; what is shown of it is that word and perhaps numbers
  in parentheses, and the readers take the type from them (`BareColumn`, `Parse.takes_columnDef`);
- so a table all of whose types are bare is read back from its text (`Statement.parse_write_create`).
-/

namespace TableStore

open Parse Piece Text

/-! ## Types as they are shown -/

namespace ColumnType

theorem showArgs_eq : ∀ args : List UInt32, showArgs args = listed (args.map fun n => Decimal.digits n.toNat)
  | [] => rfl
  | [_] => rfl
  | n :: m :: ns => congrArg (Decimal.digits n.toNat ++ ',' :: ' ' :: ·) (showArgs_eq (m :: ns))

theorem toList_withArgs (name : String) {args : List UInt32} (h : args ≠ []) :
    (withArgs name args).toList = name.toList ++ inParens (args.map fun n => Decimal.digits n.toNat) := by
  have hempty : ¬args.isEmpty = true := fun he => h (List.isEmpty_iff.1 he)
  rw [withArgs, if_neg hempty, String.toList_append, String.toList_ofList, showArgs_eq, inParens]

/-- **A type is shown as its name in upper case and the arguments that it keeps**, which make the same type. -/
theorem exists_display (name : List Char) (args : List UInt32) : ∃ kept : List UInt32,
    (ofParts name args).display = withArgs (String.ofList (upper name)) kept ∧
      ofParts name kept = ofParts name args := by
  simp only [ofParts]
  generalize String.ofList (upper name) = word
  split
  · exact ⟨[], rfl, rfl⟩
  · exact ⟨[], rfl, rfl⟩
  · exact ⟨[], rfl, rfl⟩
  · exact ⟨[], rfl, rfl⟩
  · exact ⟨[], rfl, rfl⟩
  · exact ⟨args.take 1, by cases args <;> rfl, by cases args <;> rfl⟩
  · exact ⟨args.take 1, by cases args <;> rfl, by cases args <;> rfl⟩
  · refine ⟨args.take 2, ?_, ?_⟩ <;> match args with
      | [] => rfl
      | [_] => rfl
      | _ :: _ :: _ => rfl
  · exact ⟨args, rfl, rfl⟩

/-- A type that is made from a bare word in upper case. -/
def Bare (type : ColumnType) : Prop := ∃ word args, isBareName word ∧ upper word = word ∧ type = ofParts word args

/-- A number with its digits is a whole number below 2^32. -/
theorem readCount?_digits (n : UInt32) : readCount? (Decimal.digits n.toNat) = some n := by
  have hdigits : (Decimal.digits n.toNat).all isDigit = true := Decimal.all_isDigit_digits n.toNat
  obtain ⟨d, ds, hd⟩ := List.exists_cons_of_ne_nil (Decimal.digits_ne_nil n.toNat)
  have hsign : d ≠ '+' := by
    rw [hd, List.all_cons, Bool.and_eq_true] at hdigits
    exact forall_digit (P := (· ≠ '+')) (by decide) hdigits.1
  have hvalue := Decimal.natOfDigits_digits n.toNat
  rw [hd] at hdigits hvalue ⊢
  unfold readCount?
  split
  · rename_i h
    exact absurd (List.cons.inj h).1 hsign
  · simp only [List.isEmpty_cons, hdigits, hvalue, n.toNat_lt_size, Bool.not_true, Bool.or_self, Bool.false_eq_true,
      if_false, if_true, UInt32.ofNat_toNat]

end ColumnType

/-! ## Pieces -/

namespace Piece

/-- A whole number with its digits. -/
def digits (n : Nat) : Piece := token (.number (String.ofList (Decimal.digits n))) (Decimal.digits n)

@[simp] theorem text_digits (n : Nat) : (digits n).text = Decimal.digits n := rfl

theorem signed_digits (n : Nat) : (Json.Parts.mk (Decimal.digits n) none none).signed false = Decimal.digits n := by
  simp [Json.Parts.signed, Json.Parts.text, Json.Parts.fractionText, Json.Parts.exponentText]

theorem firm_digits (n : Nat) : Firm [digits n] := firm_singleton fun hr => by
  have hfit := fits_signed (Json.proper_digits n) false hr
  rwa [signed_digits] at hfit

theorem firm_allDigits (ns : List UInt32) : ∀ ps ∈ ns.map fun n => [digits n.toNat], Firm ps := by
  intro ps hps
  obtain ⟨n, -, rfl⟩ := List.mem_map.1 hps
  exact firm_digits n.toNat

end Piece

/-- The pieces of the arguments of a type. -/
def ColumnType.argPieces : List UInt32 → List Piece
  | [] => []
  | n :: ns => enclosed ((n :: ns).map fun n => [.digits n.toNat])

/-- A column whose type is made from a bare word in upper case, with the arguments that are shown. -/
structure BareColumn where
  name : String
  word : String
  args : List UInt32
  word_bare : isBareName word.toList
  upper_word : upper word.toList = word.toList
  display_eq : (ColumnType.ofParts word.toList args).display = ColumnType.withArgs word args

namespace BareColumn

/-- The column. -/
def column (c : BareColumn) : Column := ⟨c.name, .ofParts c.word.toList c.args⟩

/-- The pieces of the column. -/
def pieces (c : BareColumn) : List Piece := .name c.name :: .blank :: .name c.word :: ColumnType.argPieces c.args

theorem exists_column {c : Column} (h : c.type.Bare) : ∃ b : BareColumn, b.column = c := by
  obtain ⟨word, args, hbare, hupper, htype⟩ := h
  obtain ⟨word, rfl⟩ : ∃ s : String, s.toList = word := ⟨String.ofList word, String.toList_ofList⟩
  obtain ⟨kept, hdisplay, hkept⟩ := ColumnType.exists_display word.toList args
  rw [hupper, String.ofList_toList, ← hkept] at hdisplay
  refine ⟨⟨c.name, word, kept, hbare, hupper, hdisplay⟩, ?_⟩
  rw [column, hkept, ← htype]

/-- Columns of bare types are bare columns, each for itself. -/
theorem exists_columns : ∀ {cs : List Column}, (∀ c ∈ cs, c.type.Bare) → ∃ bs : List BareColumn, bs.map column = cs
  | [], _ => ⟨[], rfl⟩
  | c :: cs, h => by
    obtain ⟨hc, hcs⟩ := List.forall_mem_cons.1 h
    obtain ⟨b, rfl⟩ := exists_column hc
    obtain ⟨bs, rfl⟩ := exists_columns hcs
    exact ⟨b :: bs, rfl⟩

theorem textOf_pieces (c : BareColumn) : textOf c.pieces = Statement.writeColumn c.column := by
  have hword : writeName c.word = c.word.toList := if_pos c.word_bare
  rw [Statement.writeColumn, column, c.display_eq, pieces]
  cases hargs : c.args with
  | nil =>
    change writeName c.name ++ ' ' :: (writeName c.word ++ []) = writeName c.name ++ ' ' :: c.word.toList
    rw [hword, List.append_nil]
  | cons n ns =>
    have htexts : ((n :: ns).map fun n => [Piece.digits n.toNat]).map textOf =
        (n :: ns).map fun n => Decimal.digits n.toNat := by
      rw [List.map_map]
      exact List.map_congr_left fun m _ => List.append_nil _
    rw [ColumnType.toList_withArgs c.word (List.cons_ne_nil n ns)]
    simp only [textOf_cons, text_name, text_blank, hword, ColumnType.argPieces, textOf_enclosed, htexts,
      List.cons_append, List.nil_append]

theorem firm_pieces (c : BareColumn) : Firm c.pieces := by
  have htype : Firm (.name c.word :: ColumnType.argPieces c.args) := by
    cases c.args with
    | nil => exact Statement.firm_name c.word
    | cons n ns =>
      have hclose : Firm (joined ((n :: ns).map fun n => [Piece.digits n.toNat]) ++ [mark .closeParen]) :=
        (firm_joined (firm_allDigits (n :: ns))).append_mark (by decide) firm_nil
      exact Firm.append_mark (m := .openParen) (by decide) (Statement.firm_name c.word) hclose
  exact (Statement.firm_name c.name).append_blank htype

end BareColumn

/-! ## Readers -/

namespace Parse

variable {text : List Char}

theorem takes_count (n : UInt32) : Takes text (count text) [.digits n.toNat] n fun _ => True := by
  intro ls l rest h _
  obtain ⟨start, stop, ls, rfl, -, h⟩ := h.of_token
  obtain rfl := h.eq_nil
  simp only [count, List.cons_append, List.nil_append, String.toList_ofList, ColumnType.readCount?_digits]

@[simp] theorem typeName_self (text : List Char) (n : String) (start stop : Nat) (ls : List Lexeme) :
    typeName text (⟨nameToken n, start, stop⟩ :: ls) = .ok (n, ls) := by
  unfold nameToken
  cases isBareName n.toList <;> rfl

theorem takes_typeArgs (args : List UInt32) :
    Takes text (typeArgs text) (ColumnType.argPieces args) args fun t => t ≠ .mark .openParen := by
  intro ls l rest h hl
  cases args with
  | nil =>
    obtain rfl := h.eq_nil
    obtain ⟨t, start, stop⟩ := l
    rw [List.nil_append, typeArgs]
    intro _ _ _ he
    cases he
    exact hl rfl
  | cons n ns =>
    obtain ⟨start, stop, ls, rfl, -, h⟩ := h.of_token
    obtain ⟨ls, ls', rfl, hs, h'⟩ := h.of_append
    obtain ⟨start', stop', ls', rfl, -, h'⟩ := h'.of_token
    obtain rfl := h'.eq_nil
    have hargs : Takes text (commaList (count text)) (joined ((n :: ns).map fun n => [Piece.digits n.toNat]))
        ((n :: ns).map id) fun t => t = .mark .closeParen :=
      takes_commaList (fun h => by cases h) (List.cons_ne_nil n ns) fun m _ => (takes_count m).imp fun _ _ => trivial
    have htaken := hargs ls ⟨.mark .closeParen, start', stop'⟩ (l :: rest) hs rfl
    rw [List.map_id] at htaken
    rw [List.cons_append, List.append_assoc]
    simp only [typeArgs, expect_self, List.cons_append, List.nil_append, htaken, bind, Except.bind]

/-- A column without constraints is taken up to the comma or the parenthesis after it. -/
theorem takes_columnDef (c : BareColumn) : Takes text (columnDef text) c.pieces c.column fun t =>
    t = .mark .comma ∨ t = .mark .closeParen := by
  intro ls l rest h hl
  obtain ⟨start, stop, ls, rfl, -, h⟩ := h.of_token
  obtain ⟨start', stop', ls, rfl, -, h⟩ := h.of_blank.of_token
  have hopen : l.token ≠ .mark .openParen := fun he => by
    rw [he] at hl
    rcases hl with h | h <;> cases h
  have hargs := takes_typeArgs c.args ls l rest h hopen
  have hskip : skipConstraints 0 (l :: rest) = l :: rest := by
    obtain ⟨t, start, stop⟩ := l
    rcases hl with rfl | rfl <;> rfl
  simp only [columnDef, List.cons_append, columnName_self, typeName_self, hargs, hskip, bind, Except.bind,
    BareColumn.column]

/-- Columns are taken up to the closing parenthesis, if there are any. -/
theorem takes_columns (cs : List BareColumn) : Takes text
    (fun ls => if comesNext (.mark .closeParen) ls then .ok ([], ls) else commaList (columnDef text) ls)
    (joined (cs.map BareColumn.pieces)) (cs.map BareColumn.column) fun t => t = .mark .closeParen := by
  intro ls l rest hs hl
  cases cs with
  | nil =>
    obtain rfl := hs.eq_nil
    simp only [List.nil_append, comesNext, hl, beq_self_eq_true, if_true, List.map_nil]
  | cons c cs =>
    have hlist : Takes text (commaList (columnDef text)) (joined ((c :: cs).map BareColumn.pieces))
        ((c :: cs).map BareColumn.column) fun t => t = .mark .closeParen :=
      takes_commaList (fun h => by cases h) (List.cons_ne_nil c cs) fun c _ => takes_columnDef c
    have hfirst : ∃ start stop ls', ls = ⟨nameToken c.name, start, stop⟩ :: ls' := by
      cases cs with
      | nil =>
        obtain ⟨start, stop, ls', hls, -, -⟩ := hs.of_token
        exact ⟨start, stop, ls', hls⟩
      | cons =>
        obtain ⟨start, stop, ls', hls, -, -⟩ := hs.of_token
        exact ⟨start, stop, ls', hls⟩
    have htaken := hlist ls l rest hs hl
    obtain ⟨start, stop, ls, rfl⟩ := hfirst
    have hname : (nameToken c.name == .mark .closeParen) = false := by
      unfold nameToken
      split <;> rfl
    rw [List.cons_append] at htaken ⊢
    simp only [comesNext, hname, htaken, Bool.false_eq_true, if_false]

/-- What follows `CREATE TABLE` is taken up to the closing parenthesis. -/
theorem takes_createTable (table : String) (cs : List BareColumn) : Takes text (createTable text)
    (Piece.name table :: blank :: enclosed (cs.map BareColumn.pieces)) (.create ⟨table, cs.map BareColumn.column⟩)
    fun _ => True := by
  intro ls l rest hs _
  obtain ⟨start, stop, ls, rfl, -, hs⟩ := hs.of_token
  obtain ⟨start₁, stop₁, ls, rfl, -, hs⟩ := hs.of_blank.of_token
  obtain ⟨ls, ls', rfl, hcs, hs'⟩ := hs.of_append
  obtain ⟨start₂, stop₂, ls', rfl, -, hs'⟩ := hs'.of_token
  obtain rfl := hs'.eq_nil
  have hcolumns := takes_columns cs ls ⟨.mark .closeParen, start₂, stop₂⟩ (l :: rest) hcs rfl
  rw [List.cons_append, List.cons_append, List.append_assoc, List.singleton_append]
  simp only [createTable, name_self, expect_self, bind, Except.bind]
  dsimp only at hcolumns
  -- with columns and without
  split at hcolumns
  · rename_i hnone
    obtain ⟨hnil, hrest⟩ := Prod.mk.inj (Except.ok.inj hcolumns)
    rw [if_pos hnone, hrest, ← hnil, expect_self]
  · rename_i hsome
    rw [if_neg hsome, hcolumns]
    simp only [expect_self]

end Parse

namespace Statement

theorem textOf_create (table : String) (cs : List BareColumn) :
    textOf (keyword .create :: blank :: keyword .table :: blank :: name table :: blank ::
      enclosed (cs.map BareColumn.pieces)) = (create ⟨table, cs.map BareColumn.column⟩).write := by
  obtain ⟨-, -, -, -, -, hcreate, -⟩ := spaced_keywords
  have hcolumns : (cs.map BareColumn.pieces).map textOf = (cs.map BareColumn.column).map writeColumn := by
    rw [List.map_map, List.map_map]
    exact List.map_congr_left fun c _ => c.textOf_pieces
  change _ = "CREATE TABLE ".toList ++ writeName table ++ ' ' :: inParens ((cs.map BareColumn.column).map writeColumn)
  rw [hcreate, ← hcolumns]
  simp only [textOf_cons, text_keyword, text_blank, text_name, textOf_enclosed, List.append_assoc, List.cons_append,
    List.nil_append]

/-- **A table all of whose types are bare is read back from its text.** -/
theorem parse_write_create {t : Table} (h : ∀ c ∈ t.columns, c.type.Bare) :
    parse (String.ofList (create t).write) = .ok (create t) := by
  obtain ⟨table, columns⟩ := t
  obtain ⟨cs, rfl⟩ := BareColumn.exists_columns h
  have hcolumns : Firm (enclosed (cs.map BareColumn.pieces)) := firm_enclosed fun ps hps => by
    obtain ⟨c, -, rfl⟩ := List.mem_map.1 hps
    exact c.firm_pieces
  rw [← textOf_create]
  refine parse_textOf (firm_keyword .create (firm_keyword .table ((firm_name table).append_blank hcolumns)))
    fun text ls l rest hs hl => ?_
  obtain ⟨start, stop, ls, rfl, -, hs⟩ := hs.of_token
  obtain ⟨start', stop', ls, rfl, -, hs⟩ := hs.of_blank.of_token
  exact takes_createTable table cs ls l rest hs.of_blank trivial

end Statement

end TableStore
