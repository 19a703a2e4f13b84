import TableStore.Proofs.Accepted
import TableStore.Proofs.Scanning

/-!
# Conditions read back

- what a column is compared with in a condition that is read is a text or a number (`Condition.Comparing`), so its
  literal is again one token that a condition may end with;
- the column of a condition is read from a bare word or from backticks, but it is written between double quotes where
  it is no bare name, and there it is no column of a condition: such a condition is passed over (`Condition.reread`);
- so the text of a statement with a condition is read as the statement when the column is a bare name, and as the
  statement without its condition when it is not (`Statement.conditions_of_bare_columns_survive`).
-/

namespace TableStore

open Parse Piece

/-! ## Conditions that are read -/

namespace Condition

/-- A condition with a literal that is a text or a number. -/
def Comparing (c : Condition) : Prop := c.value.Writable ∧ c.value ≠ .null

/-- A condition as it is read back: only one with a bare column is recognized. -/
def reread (c : Condition) : Option Condition := if isBareName c.column.toList then some c else none

/-- The pieces of a condition without its keyword. -/
def pieces (c : Condition) : List Piece := name c.column :: blank :: mark .eq :: blank :: [literal c.value]

end Condition

namespace Parse

open Scan

variable {text : List Char} {ls rest : List Lexeme} {c : Condition}

/-- A condition compares its column with what stands in the text. -/
theorem comparing_of_condition? (hls : ∀ l ∈ ls, Stands text l) (h : condition? text ls = .ok (some c))
    (hf : c.value.Finite) : c.Comparing := by
  unfold condition? at h
  split at h
  · rename_i column s₁ e₁ s₂ e₂ l
    have hstands : Stands text l := hls l (by simp)
    have hcompared : Operand l.token → (source text [l] >>= fun s => .ok (some ⟨column, Literal.read s⟩)) =
        Except.ok (some c) → c.Comparing := fun ht h => by
      obtain ⟨s, hs, h⟩ := Except.exists_of_bind h
      cases h
      exact ⟨Value.BoolFree.writable (Literal.read_ne_boolean s) hf, hstands.read_ne_null ht hs⟩
    split at h
    · rename_i ht
      exact hcompared (ht ▸ trivial) h
    · rename_i ht
      exact hcompared (ht ▸ trivial) h
    · rename_i ht
      exact hcompared (ht ▸ trivial) h
    · cases h
  · cases h

theorem comparing_of_optionalCondition (hls : ∀ l ∈ ls, Stands text l)
    (h : optionalCondition text ls = .ok (some c, rest)) (hf : c.value.Finite) : c.Comparing := by
  unfold optionalCondition at h
  split at h
  · obtain ⟨c', hc, h⟩ := Except.exists_of_bind h
    cases h
    refine comparing_of_condition? (fun l hl => hls l ?_) hc hf
    exact List.mem_cons_of_mem _ ((List.takeWhile_prefix _).subset hl)
  · cases h

/-! ## Conditions that are written -/

theorem firm_condition (hc : c.Comparing) : Firm c.pieces := by
  have heq : Firm [mark .eq] := firm_singleton fun _ => fits_mark (by decide) _
  exact (Statement.firm_name c.column).append_blank (heq.append_blank (Statement.firm_literal hc.1))

/-- The literal of a text or a number is a token that a condition may end with. -/
theorem operand_literalToken (hc : c.Comparing) : Operand (literalToken c.value) := by
  obtain ⟨column, v⟩ := c
  cases v with
  | null => exact absurd rfl hc.2
  | boolean b => exact hc.1.elim
  | integer | real | text => trivial

/-- An operand does not end a condition. -/
theorem inCondition_of_operand {l : Lexeme} (h : Operand l.token) : inCondition l = true := by
  obtain ⟨t, start, stop⟩ := l
  cases t with
  | string | quoted | number => rfl
  | _ => exact h.elim

theorem inCondition_name (n : String) (start stop : Nat) : inCondition ⟨nameToken n, start, stop⟩ = true := by
  simp only [inCondition, nameToken]
  split <;> rfl

/-- A written name is the column of a condition exactly when it is written bare. -/
theorem condition?_name (n : String) {start stop : Nat} {e v : Lexeme} {s : List Char} (he : e.token = .mark .eq)
    (hv : Operand v.token) (hs : source text [v] = .ok s) : condition? text [⟨nameToken n, start, stop⟩, e, v] =
      .ok (if isBareName n.toList then some ⟨n, Literal.read s⟩ else none) := by
  obtain ⟨_, start', stop'⟩ := e
  obtain ⟨t, start'', stop''⟩ := v
  cases he
  rw [nameToken]
  split
  · cases t with
    | string | quoted | number => simp only [condition?, hs, bind, Except.bind]
    | _ => exact hv.elim
  · rfl

/-- **A written condition is recognized when its column is a bare name**, and passed over when it is not. -/
theorem condition?_of_shown (hc : c.Comparing) (h : Shown text ls c.pieces) : condition? text ls = .ok c.reread ∧
    ∀ l ∈ ls, inCondition l = true := by
  have hread : Literal.read (Literal.write c.value) = c.value := Literal.read_write hc.1
  have hoperand := operand_literalToken hc
  obtain ⟨start₁, stop₁, ls, rfl, -, h⟩ := h.of_token
  obtain ⟨start₂, stop₂, ls, rfl, -, h⟩ := h.of_blank.of_token
  obtain ⟨start₃, stop₃, ls, rfl, hs, h⟩ := h.of_blank.of_token
  obtain rfl := h.eq_nil
  refine ⟨?_, ?_⟩
  · rw [condition?_name c.column rfl hoperand hs, hread, Condition.reread]
  · simp only [List.forall_mem_cons, List.not_mem_nil, false_implies, implies_true, and_true]
    exact ⟨inCondition_name _ _ _, rfl, inCondition_of_operand hoperand⟩

theorem takes_optionalCondition (hc : c.Comparing) : Takes text (optionalCondition text)
    (keyword .where :: blank :: c.pieces) c.reread fun t => t = .finish := by
  intro ls l rest hs hl
  obtain ⟨start, stop, ls, rfl, -, hs⟩ := hs.of_token
  obtain ⟨hcondition, hin⟩ := condition?_of_shown hc hs.of_blank
  have hstop : inCondition l = false := by simp [inCondition, hl]
  have htake : (ls ++ l :: rest).takeWhile inCondition = ls := by
    rw [List.takeWhile_append_of_pos hin, List.takeWhile_cons_of_neg (by simp [hstop]), List.append_nil]
  have hdrop : (ls ++ l :: rest).dropWhile inCondition = l :: rest := by
    rw [List.dropWhile_append_of_pos hin, List.dropWhile_cons_of_neg (by simp [hstop])]
  simp only [List.cons_append, optionalCondition, htake, hdrop, hcondition, bind, Except.bind]

theorem takes_conditionalSelect {p : Projection} {table : String} (hne : p ≠ .columns []) (hc : c.Comparing) :
    Takes text (select text) (Statement.projectionPieces p ++ blank :: keyword .from :: blank :: Piece.name table ::
      blank :: keyword .where :: blank :: c.pieces) (.select p table c.reread) fun t => t = .finish := by
  intro ls l rest hs hl
  obtain ⟨ls, ls', rfl, hp, hs⟩ := hs.of_append
  obtain ⟨start, stop, ls', rfl, -, hs⟩ := hs.of_blank.of_token
  obtain ⟨start', stop', ls', rfl, -, hs⟩ := hs.of_blank.of_token
  have htaken := takes_projection hne ls ⟨.keyword .from, start, stop⟩
    (⟨nameToken table, start', stop'⟩ :: (ls' ++ l :: rest)) hp fun h => by cases h
  have hcondition := takes_optionalCondition hc ls' l rest hs.of_blank hl
  simp only [select, List.append_assoc, List.cons_append, htaken, expect_self, name_self, hcondition, bind, Except.bind]

theorem takes_conditionalDelete {table : String} (hc : c.Comparing) : Takes text (delete text)
    (Piece.name table :: blank :: keyword .where :: blank :: c.pieces) (.delete table c.reread)
    fun t => t = .finish := by
  intro ls l rest hs hl
  obtain ⟨start, stop, ls, rfl, -, hs⟩ := hs.of_token
  have hcondition := takes_optionalCondition hc ls l rest hs.of_blank hl
  simp only [delete, List.cons_append, name_self, hcondition, bind, Except.bind]

theorem comparing_of_statement {s : Statement} (hls : ∀ l ∈ ls, Stands text l)
    (h : statement text ls = .ok (s, rest)) (hc : s.condition? = some c) (hf : c.value.Finite) : c.Comparing := by
  have hnone : ∀ {s : Statement}, s.Formed ∧ s.condition? = none → s.condition? = some c → c.Comparing :=
    fun hs hc => by
      rw [hs.2] at hc
      cases hc
  unfold statement at h
  split at h
  · exact hnone (formed_of_createTable h) hc
  · exact hnone (formed_of_dropTable h) hc
  · obtain ⟨p, table, c', ls', rfl, -, hsuffix, hcondition⟩ := exists_of_select h
    obtain rfl : c' = some c := hc
    exact comparing_of_optionalCondition (fun l hl => hls l (List.mem_cons_of_mem _ (hsuffix.subset hl))) hcondition hf
  · exact hnone (formed_of_insert h) hc
  · obtain ⟨table, c', ls', rfl, hsuffix, hcondition⟩ := exists_of_delete h
    obtain rfl : c' = some c := hc
    exact comparing_of_optionalCondition
      (fun l hl => hls l (List.mem_cons_of_mem _ (List.mem_cons_of_mem _ (hsuffix.subset hl)))) hcondition hf
  · split at h
    · cases h
    · obtain ⟨_, -, h⟩ := Except.exists_of_bind h
      cases h
  · cases h

end Parse

namespace Condition

variable {c : Condition}

theorem comparing_of_parse? {text : String} (h : parse? text = some c) (hf : c.value.Finite) : c.Comparing := by
  unfold parse? at h
  dsimp only at h
  split at h
  · cases h
  rename_i ls hscan
  split at h <;> cases h
  rename_i hcondition
  refine comparing_of_condition? (fun l hl => ?_) hcondition hf
  exact Scan.stands_of_scan hscan l (List.dropLast_subset ls hl)

theorem parse?_textOf (hc : c.Comparing) : parse? (String.ofList (textOf c.pieces)) = c.reread := by
  obtain ⟨ls, n, hscan, hshown⟩ := scan_textOf (firm_condition hc [] Scan.ends_nil)
  have hcondition := (condition?_of_shown hc hshown).1
  simp only [parse?, String.toList_ofList, hscan, List.dropLast_concat, hcondition]

end Condition

/-! ## Statements with conditions -/

namespace Statement

/-- A statement without its condition. -/
def unconditioned : Statement → Statement
  | select projection table _ => select projection table none
  | delete table _ => delete table none
  | s => s

/-- The pieces of a statement with a condition. -/
def conditionalPieces (c : Condition) : Statement → List Piece
  | select projection table _ =>
    keyword .select :: blank :: (projectionPieces projection ++ blank :: keyword .from :: blank :: name table ::
      blank :: keyword .where :: blank :: c.pieces)
  | delete table _ =>
    keyword .delete :: blank :: keyword .from :: blank :: name table :: blank :: keyword .where :: blank :: c.pieces
  | _ => []

variable {s : Statement} {c : Condition}

/-- The keywords and the mark of conditions with the blanks around them. -/
theorem spaced_condition_keywords :
    "WHERE ".toList = Keyword.where.text.toList ++ [' '] ∧
    " = ".toList = [' '] ++ (Mark.eq.text.toList ++ [' ']) ∧
    "SELECT ".toList = Keyword.select.text.toList ++ [' '] ∧
    " FROM ".toList = [' '] ++ (Keyword.from.text.toList ++ [' ']) ∧
    "DELETE FROM ".toList = Keyword.delete.text.toList ++ ([' '] ++ (Keyword.from.text.toList ++ [' '])) := by decide

theorem write_condition (c : Condition) : c.write = "WHERE ".toList ++ textOf c.pieces := by
  obtain ⟨-, heq, -⟩ := spaced_condition_keywords
  unfold Condition.write Condition.pieces
  generalize "WHERE ".toList = keyword
  rw [heq]
  simp only [textOf_cons, textOf_nil, text_name, text_blank, text_mark, text_literal,
    List.append_assoc, List.append_nil]

theorem textOf_conditionalPieces (h : s.condition? = some c) : textOf (s.conditionalPieces c) = s.write := by
  obtain ⟨hwhere, -, hselect, hfrom, hdelete⟩ := spaced_condition_keywords
  cases s with
  | create | createAs | drop | insert => cases h
  | select projection table condition =>
    obtain rfl : condition = some c := h
    change _ = "SELECT ".toList ++ writeProjection projection ++ " FROM ".toList ++ writeName table ++ ' ' :: c.write
    rw [hselect, hfrom, ← textOf_projection, write_condition, hwhere]
    simp only [conditionalPieces, textOf_cons, textOf_append, text_keyword, text_blank, text_name, List.append_assoc,
      List.cons_append, List.nil_append]
  | delete table condition =>
    obtain rfl : condition = some c := h
    change _ = "DELETE FROM ".toList ++ writeName table ++ ' ' :: c.write
    rw [hdelete, write_condition, hwhere]
    simp only [conditionalPieces, textOf_cons, text_keyword, text_blank, text_name, List.append_assoc,
      List.cons_append, List.nil_append]

theorem firm_conditionalPieces (h : s.condition? = some c) (hc : c.Comparing) : Firm (s.conditionalPieces c) := by
  have htable : ∀ table, Firm (name table :: blank :: keyword .where :: blank :: c.pieces) := fun table =>
    (firm_name table).append_blank (firm_keyword .where (firm_condition hc))
  cases s with
  | create | createAs | drop | insert => cases h
  | select projection table condition =>
    exact firm_keyword .select ((firm_projection projection).append_blank (firm_keyword .from (htable table)))
  | delete table condition => exact firm_keyword .delete (firm_keyword .from (htable table))

theorem takes_conditional (hs : s.Formed) (h : s.condition? = some c) (hc : c.Comparing) (text : List Char) :
    Takes text (Parse.statement text) (s.conditionalPieces c)
      (if isBareName c.column.toList then s else s.unconditioned) fun t => t = .finish := by
  intro ls l rest hshown hl
  cases s with
  | create | createAs | drop | insert => cases h
  | select projection table condition =>
    obtain rfl : condition = some c := h
    obtain ⟨start, stop, ls, rfl, -, hshown⟩ := hshown.of_token
    have htaken := takes_conditionalSelect hs hc ls l rest hshown.of_blank hl
    have hite := apply_ite (select projection table) (isBareName c.column.toList = true) (some c) none
    exact htaken.trans (congrArg (fun s => Except.ok (s, l :: rest)) hite)
  | delete table condition =>
    obtain rfl : condition = some c := h
    obtain ⟨start, stop, ls, rfl, -, hshown⟩ := hshown.of_token
    obtain ⟨start', stop', ls, rfl, -, hshown⟩ := hshown.of_blank.of_token
    have htaken := takes_conditionalDelete hc ls l rest hshown.of_blank hl
    have hite := apply_ite (delete table) (isBareName c.column.toList = true) (some c) none
    exact htaken.trans (congrArg (fun s => Except.ok (s, l :: rest)) hite)

/-- What a condition of a statement that is read compares its column with is a text or a number. -/
theorem comparing_of_parse {text : String} (h : parse text = .ok s) (hc : s.condition? = some c) (hf : c.value.Finite) :
    c.Comparing := by
  obtain ⟨ls, rest, hscan, hs⟩ := exists_of_parse h
  exact Parse.comparing_of_statement (Scan.stands_of_scan hscan) hs hc hf

/-- **A condition is read back exactly when its column is a bare name.** For every text that is read as a
statement with a condition, the text of this statement is read as the same statement if the column is a bare name, and
as the statement without its condition if the column needs quotes; and so it is with conditions on their own. -/
theorem conditions_of_bare_columns_survive (text : String) :
    (∀ s c, parse text = .ok s → s.condition? = some c → c.value.Finite →
      parse (String.ofList s.write) = .ok (if isBareName c.column.toList then s else s.unconditioned)) ∧
    ∀ c, Condition.parse? text = some c → c.value.Finite → ∀ body, c.write = "WHERE ".toList ++ body →
      Condition.parse? (String.ofList body) = if isBareName c.column.toList then some c else none := by
  refine ⟨fun s c h hcondition hf => ?_, fun c h hf body hbody => ?_⟩
  · have hc := comparing_of_parse h hcondition hf
    rw [← textOf_conditionalPieces hcondition]
    exact parse_textOf (firm_conditionalPieces hcondition hc)
      (takes_conditional (formed_of_parse h).1 hcondition hc)
  · have hc := Condition.comparing_of_parse? h hf
    rw [write_condition] at hbody
    rw [← List.append_cancel_left hbody]
    exact Condition.parse?_textOf hc

/-- A condition on a column with a blank in its name is lost on the way, one on a word between backticks is not. -/
theorem condition_of_blank_column_is_lost :
    parse "DELETE FROM t WHERE `a b` = 1" = .ok (delete "t" (some ⟨"a b", .integer 1⟩)) ∧
    parse (String.ofList (delete "t" (some ⟨"a b", .integer 1⟩)).write) = .ok (delete "t" none) ∧
    Condition.parse? "`b` = -.5" = some ⟨"b", .real ⟨0xBFE0000000000000⟩⟩ ∧
    Condition.parse? (String.ofList "b = -0.5".toList) = some ⟨"b", .real ⟨0xBFE0000000000000⟩⟩ := by
  have hdelete : parse "DELETE FROM t WHERE `a b` = 1" = .ok (delete "t" (some ⟨"a b", .integer 1⟩)) :=
    Except.eq_ok_of_toOption (by decide +kernel)
  have hreal : Condition.parse? "`b` = -.5" = some ⟨"b", .real ⟨0xBFE0000000000000⟩⟩ := by decide +kernel
  refine ⟨hdelete, ?_, hreal, ?_⟩
  · have hlost := (conditions_of_bare_columns_survive _).1 _ _ hdelete rfl trivial
    rwa [if_neg (by decide)] at hlost
  · have hkept := (conditions_of_bare_columns_survive _).2 _ hreal rfl "b = -0.5".toList (by decide +kernel)
    rwa [if_pos (by decide)] at hkept

end Statement

end TableStore
