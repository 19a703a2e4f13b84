import TableStore.Proofs.Tokens

/-!
# Readers of tokens

- a reader `Takes` a value from pieces when it reads the value from whatever tokens show the pieces, and leaves the
  token that comes next, if that is one of those that may come;
- names, values, items of literal rows, and lists of them with commas are taken from the pieces that are written for
  them (`takes_name`, `takes_value`, `takes_rowItem`, `takes_commaList`).
-/

namespace TableStore

/-- A step of a chain that succeeds has its own result. -/
theorem Except.exists_of_bind {ε α β : Type} {x : Except ε α} {f : α → Except ε β} {b : β} (h : x >>= f = .ok b) :
    ∃ a, x = .ok a ∧ f a = .ok b := by
  cases x with
  | error e => cases h
  | ok a => exact ⟨a, rfl, h⟩

/-! ## Pieces of lists -/

namespace Piece

open Scan Text

/-- Pieces with commas between them. -/
def joined : List (List Piece) → List Piece
  | [] => []
  | [ps] => ps
  | ps :: pss => ps ++ mark .comma :: blank :: joined pss

/-- Pieces in parentheses, with commas between them. -/
def enclosed (pss : List (List Piece)) : List Piece := mark .openParen :: (joined pss ++ [mark .closeParen])

@[simp] theorem textOf_joined : ∀ pss : List (List Piece), textOf (joined pss) = TableStore.listed (pss.map textOf)
  | [] => rfl
  | [ps] => rfl
  | ps :: qs :: pss => by
    have ih := textOf_joined (qs :: pss)
    rw [List.map_cons] at ih
    simp [joined, listed, ih, Mark.text]

@[simp] theorem textOf_enclosed (pss : List (List Piece)) :
    textOf (enclosed pss) = TableStore.inParens (pss.map textOf) := by
  simp [enclosed, inParens, Mark.text]

/-- Pieces that fit before everything that ends a token. -/
def Firm (ps : List Piece) : Prop := ∀ rest, Ends rest → FitAll ps rest

variable {ps qs : List Piece} {pss : List (List Piece)}

theorem firm_nil : Firm [] := fun _ _ => trivial

theorem firm_singleton {p : Piece} (h : ∀ {rest}, Ends rest → p.Fits rest) : Firm [p] := fun _ hr =>
  ⟨fun _ he => h (hr.congr he), trivial⟩

theorem Firm.append (hp : Firm ps) (hq : Firm qs) (h : ∀ rest, Ends rest → Ends (textOf qs ++ rest)) :
    Firm (ps ++ qs) :=
  fun rest hr => fitAll_append.2 ⟨hp _ (h rest hr), hq rest hr⟩

theorem Firm.append_blank (hp : Firm ps) (hq : Firm qs) : Firm (ps ++ blank :: qs) :=
  hp.append (fun rest hr => ⟨fun _ _ => trivial, hq rest hr⟩) fun _ _ => ends_cons (by decide) _

theorem Firm.append_mark {m : Mark} (hm : m ∈ [.comma, .openParen, .closeParen]) (hp : Firm ps) (hq : Firm qs) :
    Firm (ps ++ mark m :: qs) := by
  have hends : ∀ m ∈ [Mark.comma, .openParen, .closeParen], ∀ cs, Ends (m.text.toList ++ cs) := fun m hm cs => by
    simp only [List.mem_cons, List.not_mem_nil, or_false] at hm
    rcases hm with rfl | rfl | rfl <;> exact ends_cons (by decide) cs
  have hmarks : ∀ m ∈ [Mark.comma, .openParen, .closeParen],
      m ∈ [.comma, .openParen, .closeParen, .asterisk, .eq, .semicolon] := by decide
  refine hp.append (fun rest hr => ⟨fun _ _ => fits_mark (hmarks m hm) _, hq rest hr⟩) fun rest _ => ?_
  have htext : textOf (mark m :: qs) ++ rest = m.text.toList ++ (textOf qs ++ rest) := List.append_assoc _ _ _
  rw [htext]
  exact hends m hm _

theorem firm_joined : ∀ {pss : List (List Piece)}, (∀ ps ∈ pss, Firm ps) → Firm (joined pss)
  | [], _ => firm_nil
  | [ps], h => h ps List.mem_cons_self
  | ps :: qs :: pss, h => by
    obtain ⟨hp, hrest⟩ := List.forall_mem_cons.1 h
    rw [joined]
    · exact hp.append_mark (by decide) (firm_nil.append_blank (firm_joined hrest))
    · exact List.cons_ne_nil _ _

theorem firm_enclosed (h : ∀ ps ∈ pss, Firm ps) : Firm (enclosed pss) :=
  firm_nil.append_mark (by decide) ((firm_joined h).append_mark (by decide) firm_nil)

/-! ### Tokens that show pieces -/

variable {text : List Char} {ls : List Lexeme}

theorem Shown.of_append : ∀ {ps : List Piece} {ls : List Lexeme}, Shown text ls (ps ++ qs) →
    ∃ ls₁ ls₂, ls = ls₁ ++ ls₂ ∧ Shown text ls₁ ps ∧ Shown text ls₂ qs
  | [], ls, h => ⟨[], ls, rfl, .nil, h⟩
  | .blank :: ps, _, .blank h => by
    obtain ⟨ls₁, ls₂, rfl, h₁, h₂⟩ := h.of_append
    exact ⟨ls₁, ls₂, rfl, .blank h₁, h₂⟩
  | .token t chars :: ps, _, .token ht hs h => by
    obtain ⟨ls₁, ls₂, rfl, h₁, h₂⟩ := h.of_append
    exact ⟨_ :: ls₁, ls₂, rfl, .token ht hs h₁, h₂⟩

theorem Shown.of_token {t : Token} {chars : List Char} (h : Shown text ls (Piece.token t chars :: ps)) :
    ∃ start stop ls', ls = ⟨t, start, stop⟩ :: ls' ∧ Parse.source text [⟨t, start, stop⟩] = .ok chars ∧
      Shown text ls' ps := by
  cases h with
  | @token l _ _ ls' _ ht hs h =>
    obtain ⟨t', start, stop⟩ := l
    obtain rfl : t' = t := ht
    exact ⟨start, stop, ls', rfl, hs, h⟩

theorem Shown.of_blank (h : Shown text ls (Piece.blank :: ps)) : Shown text ls ps := by
  cases h with
  | blank h => exact h

theorem Shown.eq_nil (h : Shown text ls []) : ls = [] := by
  cases h
  rfl

end Piece

namespace Item

/-- The pieces of an item of a literal row. -/
def pieces (i : Item) : List Piece :=
  match i.name with
  | some n => .literal i.value :: .blank :: .keyword .as :: .blank :: [.name n]
  | none => [.literal i.value]

/-- An item as it is written. -/
def rewritten (i : Item) : Item := { i with text := String.ofList (Literal.write i.value) }

end Item

namespace Parse

open Piece

variable {α β : Type} {text : List Char}

/-! ## Taking what is written -/

/-- A reader takes a value from pieces, if one of certain tokens comes next. -/
def Takes (text : List Char) (f : List Lexeme → Except Error (α × List Lexeme)) (ps : List Piece) (a : α)
    (next : Token → Prop) : Prop :=
  ∀ ls l rest, Shown text ls ps → next l.token → f (ls ++ l :: rest) = .ok (a, l :: rest)

theorem Takes.imp {f : List Lexeme → Except Error (α × List Lexeme)} {ps : List Piece} {a : α}
    {next next' : Token → Prop} (h : Takes text f ps a next) (hn : ∀ t, next' t → next t) : Takes text f ps a next' :=
  fun ls l rest hs hl => h ls l rest hs (hn _ hl)

@[simp] theorem expect_self (text : List Char) (t : Token) (start stop : Nat) (ls : List Lexeme) :
    expect text t (⟨t, start, stop⟩ :: ls) = .ok ls := by simp [expect]

theorem name?_nameToken (n : String) : (nameToken n).name? = some n := by
  unfold nameToken
  cases isBareName n.toList <;> rfl

theorem name_of_name? {t : Token} {n : String} (h : t.name? = some n) (text : List Char) (start stop : Nat)
    (ls : List Lexeme) : name text (⟨t, start, stop⟩ :: ls) = .ok (n, ls) := by
  simp only [name, h]

@[simp] theorem name_self (text : List Char) (n : String) (start stop : Nat) (ls : List Lexeme) :
    name text (⟨nameToken n, start, stop⟩ :: ls) = .ok (n, ls) :=
  name_of_name? (name?_nameToken n) text start stop ls

theorem columnName_of_name? {t : Token} {n : String} (h : t.name? = some n) (text : List Char) (start stop : Nat)
    (ls : List Lexeme) : columnName text (⟨t, start, stop⟩ :: ls) = .ok (n, ls) := by
  cases t with
  | name | quoted =>
    cases h
    rfl
  | _ => cases h

@[simp] theorem columnName_self (text : List Char) (n : String) (start stop : Nat) (ls : List Lexeme) :
    columnName text (⟨nameToken n, start, stop⟩ :: ls) = .ok (n, ls) :=
  columnName_of_name? (name?_nameToken n) text start stop ls

theorem takes_name (n : String) : Takes text (name text) [.name n] n fun _ => True := by
  intro ls l rest h _
  obtain ⟨start, stop, ls, rfl, -, h⟩ := h.of_token
  obtain rfl := h.eq_nil
  exact name_self text n start stop (l :: rest)

theorem takes_columnName (n : String) : Takes text (columnName text) [.name n] n fun _ => True := by
  intro ls l rest h _
  obtain ⟨start, stop, ls, rfl, -, h⟩ := h.of_token
  obtain rfl := h.eq_nil
  exact columnName_self text n start stop (l :: rest)

/-- Tokens that are one item after another, with commas between them. -/
inductive Joined (R : α → List Lexeme → Prop) : List α → List Lexeme → Prop
  | last {a : α} {ls : List Lexeme} (h : R a ls) : Joined R [a] ls
  | more {a : α} {as : List α} {ls ls' : List Lexeme} {start stop : Nat} (h : R a ls) (hlater : Joined R as ls') :
      Joined R (a :: as) (ls ++ ⟨.mark .comma, start, stop⟩ :: ls')

/-- **Items with commas are taken one after another.** -/
theorem separated_of_joined {item : List Lexeme → Except Error (β × List Lexeme)} {R : α → List Lexeme → Prop}
    {value : α → β} {as : List α} {ls rest : List Lexeme} {l : Lexeme} {fuel : Nat} (h : Joined R as ls)
    (hl : l.token ≠ .mark .comma) (hitem : ∀ a ls x rest, R a ls →
      x.token = .mark .comma ∨ x.token = l.token → item (ls ++ x :: rest) = .ok (value a, x :: rest))
    (hfuel : (ls ++ l :: rest).length ≤ fuel) :
    separated item fuel (ls ++ l :: rest) = .ok (as.map value, l :: rest) := by
  induction h generalizing fuel with
  | last h =>
    cases fuel with
    | zero => simp at hfuel
    | succ fuel =>
      simp only [separated, hitem _ _ l rest h (.inr rfl), bind, Except.bind]
      split
      · rename_i he
        cases he
        exact absurd rfl hl
      · rfl
  | @more a as ls ls' start stop h _ ih =>
    cases fuel with
    | zero => simp at hfuel
    | succ fuel =>
      have hlength : (ls' ++ l :: rest).length ≤ fuel := by
        simp only [List.length_append, List.length_cons] at hfuel ⊢
        omega
      rw [List.append_assoc, List.cons_append]
      simp only [separated, hitem _ _ ⟨.mark .comma, start, stop⟩ _ h (.inl rfl), ih hlength, bind, Except.bind]
      rfl

/-- What is written with commas is read as such. -/
theorem joined_of_shown {P : α → Prop} {spell : α → List Piece} : ∀ {as : List α} {ls : List Lexeme}, as ≠ [] →
    (∀ a ∈ as, P a) → Shown text ls (joined (as.map spell)) → Joined (fun a ls => P a ∧ Shown text ls (spell a)) as ls
  | [a], ls, _, ha, h => .last ⟨ha a List.mem_cons_self, h⟩
  | a :: b :: as, ls, _, has, h => by
    obtain ⟨ha, hlater⟩ := List.forall_mem_cons.1 has
    obtain ⟨ls, ls', rfl, hfirst, h⟩ := h.of_append
    obtain ⟨start, stop, ls', rfl, -, h⟩ := h.of_token
    exact .more ⟨ha, hfirst⟩ (joined_of_shown (List.cons_ne_nil b as) hlater h.of_blank)

/-- A list of items is taken from the items with commas between them. -/
theorem takes_commaList {item : List Lexeme → Except Error (β × List Lexeme)} {spell : α → List Piece} {value : α → β}
    {next : Token → Prop} (hnext : ¬next (.mark .comma)) {as : List α} (hne : as ≠ [])
    (hitem : ∀ a ∈ as, Takes text item (spell a) (value a) fun t => t = .mark .comma ∨ next t) :
    Takes text (commaList item) (joined (as.map spell)) (as.map value) next := by
  intro ls l rest hs hl
  have hcomma : l.token ≠ .mark .comma := fun he => hnext (he ▸ hl)
  refine separated_of_joined (joined_of_shown hne hitem hs) hcomma (fun a ls x rest h hx => ?_) (Nat.le_refl _)
  refine h.1 ls x rest h.2 (hx.imp_right fun he => ?_)
  rw [he]
  exact hl

/-! ### Items -/

/-- A token that does not end an item with certain stops, and is no parenthesis. -/
def Plain (stops : List Token) (t : Token) : Prop :=
  t ≠ .finish ∧ t ∉ stops ∧ t ≠ .mark .openParen ∧ t ≠ .mark .closeParen

theorem itemLength_append {stops : List Token} {l : Lexeme} (hl : l.token = .finish ∨ l.token ∈ stops)
    (rest : List Lexeme) : ∀ {ls : List Lexeme}, (∀ x ∈ ls, Plain stops x.token) →
      itemLength stops 0 (ls ++ l :: rest) = ls.length
  | [], _ => by
    rw [List.nil_append, itemLength]
    rcases hl with hl | hl <;> simp [hl]
  | x :: ls, h => by
    obtain ⟨⟨hfinish, hstops, hopen, hclose⟩, hls⟩ := List.forall_mem_cons.1 h
    have hdepth : depthAfter 0 x.token = 0 := by
      unfold depthAfter
      split <;> simp_all
    rw [List.cons_append, itemLength, if_neg hfinish, if_neg (by simp [hstops]), hdepth,
      itemLength_append hl rest hls, List.length_cons]

/-- Tokens without stops among them are an item. -/
theorem item_append (text : List Char) (expected : Expectation) {stops : List Token} {l : Lexeme}
    (hl : l.token = .finish ∨ l.token ∈ stops) (rest : List Lexeme) {ls : List Lexeme} (hne : ls ≠ [])
    (h : ∀ x ∈ ls, Plain stops x.token) : item text stops expected (ls ++ l :: rest) = .ok (ls, l :: rest) := by
  obtain ⟨x, ls, rfl⟩ := List.exists_cons_of_ne_nil hne
  have hlength := itemLength_append hl rest h
  rw [List.cons_append, List.length_cons] at hlength
  unfold item
  rw [List.cons_append, hlength]
  change Except.ok ((x :: (ls ++ l :: rest)).take (ls.length + 1), (x :: (ls ++ l :: rest)).drop (ls.length + 1)) = _
  rw [List.take_succ_cons, List.drop_succ_cons, List.take_left, List.drop_left]

/-- A literal is a single token that ends no item. -/
theorem plain_literal (v : Value) {stops : List Token}
    (h : stops ∈ [[.mark .comma, .mark .closeParen, .mark .semicolon],
      [.mark .comma, .keyword .union, .mark .semicolon]]) :
    Plain stops (literalToken v) := by
  simp only [List.mem_cons, List.not_mem_nil, or_false] at h
  rcases h with rfl | rfl <;> cases v <;> simp [Plain, literalToken]

theorem takes_value {v : Value} (hv : v.Writable) : Takes text (value text) [.literal v] v fun t =>
    t = .finish ∨ t ∈ [.mark .comma, .mark .closeParen, .mark .semicolon] := by
  intro ls l rest h hl
  obtain ⟨start, stop, ls, rfl, hs, h⟩ := h.of_token
  obtain rfl := h.eq_nil
  have hplain : ∀ x ∈ [(⟨literalToken v, start, stop⟩ : Lexeme)],
      Plain [.mark .comma, .mark .closeParen, .mark .semicolon] x.token := fun x hx => by
    rw [List.mem_singleton.1 hx]
    exact plain_literal v (by simp)
  simp only [value, item_append text .value hl rest (List.cons_ne_nil _ _) hplain, hs, bind, Except.bind,
    Literal.read_write hv]

/-! ### Items of literal rows -/

/-- A name ends no item, if no stop is a name. -/
theorem plain_name (n : String) {stops : List Token} (h : ∀ t ∈ stops, t.name? = none) : Plain stops (nameToken n) := by
  have hne : ∀ t : Token, t.name? = none → nameToken n ≠ t := by
    rintro t ht rfl
    rw [name?_nameToken] at ht
    cases ht
  exact ⟨hne _ rfl, fun hmem => hne _ (h _ hmem) rfl, hne _ rfl, hne _ rfl⟩

/-- The name after `AS` is the name of what stands before. -/
theorem splitAlias_of_name? {t : Token} {n : String} (h : t.name? = some n) {front : List Lexeme} {as : Lexeme}
    (hfront : front ≠ []) (has : as.token = .keyword .as) (start stop : Nat) :
    splitAlias (front ++ [as, ⟨t, start, stop⟩]) = (front, some n) := by
  obtain ⟨_, start', stop'⟩ := as
  cases has
  have hempty : front.reverse.isEmpty = false := by simp [hfront]
  simp only [splitAlias, List.reverse_append, List.reverse_cons, List.reverse_nil, List.nil_append, List.cons_append,
    hempty, h, List.reverse_reverse, Bool.false_eq_true, if_false]

theorem takes_rowItem {i : Item} (hv : i.value.Writable) : Takes text (rowItem text) i.pieces i.rewritten fun t =>
    t = .finish ∨ t ∈ [.mark .comma, .keyword .union, .mark .semicolon] := by
  intro ls l rest h hl
  have hliteral : Plain [.mark .comma, .keyword .union, .mark .semicolon] (literalToken i.value) :=
    plain_literal i.value (by simp)
  obtain ⟨shown, v, _ | n⟩ := i
  · obtain ⟨start, stop, ls, rfl, hs, h⟩ := h.of_token
    obtain rfl := h.eq_nil
    have hplain : ∀ x ∈ [(⟨literalToken v, start, stop⟩ : Lexeme)],
        Plain [.mark .comma, .keyword .union, .mark .semicolon] x.token := fun x hx => by
      rw [List.mem_singleton.1 hx]
      exact hliteral
    have hitem := item_append text .expression hl rest (List.cons_ne_nil _ _) hplain
    simp only [rowItem, hitem, bind, Except.bind, splitAlias, List.reverse_singleton, hs, Literal.read_write hv,
      Item.rewritten]
  · obtain ⟨start, stop, ls, rfl, hs, h⟩ := h.of_token
    obtain ⟨start', stop', ls, rfl, -, h⟩ := h.of_blank.of_token
    obtain ⟨start'', stop'', ls, rfl, -, h⟩ := h.of_blank.of_token
    obtain rfl := h.eq_nil
    have hplain : ∀ x ∈ [(⟨literalToken v, start, stop⟩ : Lexeme), ⟨.keyword .as, start', stop'⟩,
        ⟨nameToken n, start'', stop''⟩], Plain [.mark .comma, .keyword .union, .mark .semicolon] x.token := by
      simp only [List.forall_mem_cons, List.not_mem_nil, false_implies, implies_true, and_true]
      exact ⟨hliteral, by simp [Plain], plain_name n (by decide)⟩
    have hsplit : splitAlias [(⟨literalToken v, start, stop⟩ : Lexeme), ⟨.keyword .as, start', stop'⟩,
        ⟨nameToken n, start'', stop''⟩] = ([⟨literalToken v, start, stop⟩], some n) :=
      splitAlias_of_name? (name?_nameToken n) (List.cons_ne_nil _ []) rfl start'' stop''
    have hitem := item_append text .expression hl rest (List.cons_ne_nil _ _) hplain
    simp only [rowItem, hitem, bind, Except.bind, hsplit, hs, Literal.read_write hv, Item.rewritten]

end Parse

end TableStore
