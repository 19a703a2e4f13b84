import TableStore.Proofs.Positions

/-!
# Readers stay in bounds

- an item ends at a token of the text, and the depth of parentheses in it never falls below zero (`scanItem_eq`,
  `depthInside_eq`);
- the name of an item is looked for at tokens of the item (`splitAlias_eq`);
- every reader of a statement follows the reader of tokens, so no text makes one slip (`Cursor.parse_never_slips`).
-/

namespace TableStore

namespace Cursor

variable {α β : Type} {p k : Nat} {x : Reader α} {s : Source} {l : Lexeme} {ls : List Lexeme} {t : Token}

/-! ## Items -/

theorem depthAfter_eq (depth : Nat) (t : Token) (p : Nat) :
    depthAfter depth t p = .ok (Parse.depthAfter depth t, p) := by
  cases t with
  | mark m =>
    cases m with
    | closeParen =>
      rw [depthAfter]
      split
      · rename_i hdepth
        exact minus_eq hdepth p
      · rename_i hdepth
        obtain rfl : depth = 0 := by omega
        rfl
    | _ => rfl
  | _ => rfl

/-- **The end of an item is found without a slip.** -/
theorem scanItem_eq (stops : List Token) (fuel : Nat) : ∀ depth i p, s.tokens.length - i < fuel →
    scanItem s stops fuel depth i p = .ok (i + Parse.itemLength stops depth (s.tokens.drop i), p) := by
  induction fuel with
  | zero => exact fun depth i p h => absurd h (Nat.not_lt_zero _)
  | succ fuel ih =>
    intro depth i p h
    rw [scanItem]
    rcases Nat.lt_or_ge i s.tokens.length with hlt | hge
    · rw [List.getElem?_eq_getElem hlt, List.drop_eq_getElem_cons hlt]
      simp only [Parse.itemLength]
      split
      · rfl
      split
      · rfl
      · rw [bind_of_ok (depthAfter_eq depth _ p), ih _ _ _ (by omega)]
        simp only [Except.ok.injEq, Prod.mk.injEq, and_true]
        omega
    · rw [List.getElem?_eq_none hge, List.drop_eq_nil_of_le hge]
      rfl

theorem itemLength_lt {stops : List Token} : ∀ {ls : List Lexeme} (depth : Nat), (∃ l ∈ ls, l.token = .finish) →
    Parse.itemLength stops depth ls < ls.length
  | [], _, h => by
    obtain ⟨l, hl, -⟩ := h
    cases hl
  | l :: ls, depth, h => by
    rw [Parse.itemLength]
    split
    · exact Nat.succ_pos _
    split
    · exact Nat.succ_pos _
    · rename_i hl _
      obtain ⟨m, hm, hfinish⟩ := h
      rcases List.mem_cons.1 hm with rfl | hm
      · exact absurd hfinish hl
      · exact Nat.succ_lt_succ (itemLength_lt _ ⟨m, hm, hfinish⟩)

/-- The end of the text is always left. -/
theorem At.exists_finish (hs : s.Sound) (h : At s p ls) : ∃ l ∈ ls, l.token = .finish := by
  have hlt := h.lt
  obtain ⟨i, hi⟩ : ∃ i, p + i + 1 = s.tokens.length := ⟨s.tokens.length - p - 1, by omega⟩
  have hlast : s.tokens[p + i]? = some s.tokens[p + i] := List.getElem?_eq_getElem (by omega)
  have hmem : s.tokens[p + i] ∈ ls := by
    rw [← List.getElem?_drop, ← h.eq] at hlast
    exact List.mem_of_getElem? hlast
  exact ⟨_, hmem, (hs.finish hlast).2 hi⟩

/-- What the end of an item is: the tokens up to it are the item, and the rest comes after them. -/
def EndsItem (s : Source) (p stop q : Nat) (r : List Lexeme × List Lexeme) : Prop :=
  q = p ∧ p < stop ∧ At s stop r.2 ∧ r.1 = (s.tokens.drop p).take (stop - p)

theorem agree_itemEnd (hs : s.Sound) (stops : List Token) (e : Expectation) (h : At s p ls) :
    Agree (EndsItem s p) (itemEnd s stops e p) (Parse.item s.text stops e ls) := by
  have hlength := h.length
  have hshort : Parse.itemLength stops 0 ls < ls.length := itemLength_lt 0 (h.exists_finish hs)
  rw [itemEnd, bind_position, bind_of_ok (scanItem_eq stops _ 0 p p (Nat.lt_succ_self _)), ← h.eq]
  obtain ⟨l, ls', hls⟩ := h.exists
  cases hn : Parse.itemLength stops 0 ls with
  | zero =>
    subst hls
    simp only [Parse.item, hn, Nat.add_zero, if_true]
    exact h.unexpected hs e _
  | succ n =>
    simp only [Parse.item, hn, if_neg (show p + (n + 1) ≠ p by omega)]
    refine ⟨rfl, by omega, ⟨by omega, ?_⟩, ?_⟩
    · rw [h.eq, List.drop_drop]
    · rw [h.eq, Nat.add_sub_cancel_left]

theorem follows_value (hs : s.Sound) : Follows s 1 (value s) (Parse.value s.text) := by
  intro p ls h
  rw [value, bind_position, Parse.value]
  refine (agree_itemEnd hs _ _ h).bind ?_
  rintro stop q ⟨taken, rest⟩ ⟨rfl, hlt, hrest, rfl⟩
  obtain ⟨cs, hsource, hcs⟩ := source_eq hs hlt (Nat.le_of_lt hrest.lt)
  dsimp only at hrest ⊢
  rw [bind_of_ok (hsource q), bind_of_ok (moveTo_eq hrest.lt q), hcs]
  exact ⟨rfl, hlt, hrest⟩

/-! ### Items with a name -/

theorem splitAlias_of_short {taken : List Lexeme} (h : taken.length < 3) : Parse.splitAlias taken = (taken, none) := by
  unfold Parse.splitAlias
  split
  · rename_i last start stop front hreverse
    have hlength := congrArg List.length hreverse
    simp only [List.length_reverse, List.length_cons] at hlength
    obtain rfl : front = [] := List.eq_nil_of_length_eq_zero (by omega)
    rfl
  · rfl

theorem splitAlias_append {front : List Lexeme} (hfront : front ≠ []) (before last : Lexeme) :
    Parse.splitAlias (front ++ [before, last]) =
      if before.token = .keyword .as then
        match last.token.name? with
        | some n => (front, some n)
        | none => (front ++ [before, last], none)
      else (front ++ [before, last], none) := by
  obtain ⟨t, start, stop⟩ := before
  have hreverse : (front ++ [⟨t, start, stop⟩, last]).reverse = last :: ⟨t, start, stop⟩ :: front.reverse := by simp
  have hempty : front.reverse.isEmpty = false := by simpa using hfront
  unfold Parse.splitAlias
  rw [hreverse]
  split
  · rename_i he
    cases he
    cases last.token.name? <;> simp [hempty]
  · rename_i hne
    have has : t ≠ .keyword .as := by
      rintro rfl
      exact hne _ _ _ _ rfl
    rw [if_neg has]

/-- Tokens from an index up to another are those up to two before it and two more. -/
theorem take_two_more {ls : List Lexeme} {start stop : Nat} (h : start + 2 ≤ stop) (hstop : stop ≤ ls.length) :
    (ls.drop start).take (stop - start) =
      (ls.drop start).take (stop - 2 - start) ++ [ls[stop - 2], ls[stop - 1]] := by
  have hdrop : ls.drop (stop - 2) = ls[stop - 2] :: ls[stop - 1] :: ls.drop stop := by
    rw [List.drop_eq_getElem_cons (by omega), show stop - 2 + 1 = stop - 1 by omega,
      List.drop_eq_getElem_cons (by omega), show stop - 1 + 1 = stop by omega]
  rw [show stop - start = (stop - 2 - start) + 2 by omega, List.take_add, List.drop_drop,
    show start + (stop - 2 - start) = stop - 2 by omega, hdrop, List.take_succ_cons, List.take_succ_cons,
    List.take_zero]

/-- **The name of an item is looked for at tokens of the item.** -/
theorem splitAlias_eq {start stop : Nat} (hlt : start < stop) (hstop : stop < s.tokens.length) (p : Nat) :
    ∃ shown name, splitAlias s start stop p = .ok ((shown, name), p) ∧ start < shown ∧ shown ≤ stop ∧
      Parse.splitAlias ((s.tokens.drop start).take (stop - start)) =
        ((s.tokens.drop start).take (shown - start), name) := by
  have htaken : ((s.tokens.drop start).take (stop - start)).length = stop - start := by
    rw [List.length_take, List.length_drop]
    omega
  rw [splitAlias, bind_of_ok (minus_eq (Nat.le_of_lt hlt) p)]
  by_cases hthree : 3 ≤ stop - start
  · have hbefore : s.tokens[stop - 2]? = some s.tokens[stop - 2] := List.getElem?_eq_getElem (by omega)
    have hlast : s.tokens[stop - 1]? = some s.tokens[stop - 1] := List.getElem?_eq_getElem (by omega)
    -- the item is its front with two more tokens
    have hfront : (s.tokens.drop start).take (stop - 2 - start) ≠ [] := by
      rw [← List.length_pos_iff, List.length_take, List.length_drop]
      omega
    have hname := splitAlias_append hfront s.tokens[stop - 2] s.tokens[stop - 1]
    rw [← take_two_more (by omega) (Nat.le_of_lt hstop)] at hname
    rw [if_pos hthree, bind_of_ok (minus_eq (by omega) p), bind_of_ok (lexeme_eq hbefore p)]
    split at hname
    · rename_i has
      rw [if_pos has, bind_of_ok (minus_eq (by omega) p), bind_of_ok (lexeme_eq hlast p)]
      cases hn : s.tokens[stop - 1].token.name? with
      | some n =>
        rw [hn] at hname
        exact ⟨stop - 2, some n, bind_of_ok (minus_eq (by omega) p), by omega, by omega, hname⟩
      | none =>
        rw [hn] at hname
        exact ⟨stop, none, rfl, hlt, Nat.le_refl _, hname⟩
    · rename_i has
      rw [if_neg has]
      exact ⟨stop, none, rfl, hlt, Nat.le_refl _, hname⟩
  · rw [if_neg hthree]
    exact ⟨stop, none, rfl, hlt, Nat.le_refl _, splitAlias_of_short (by omega)⟩

theorem follows_rowItem (hs : s.Sound) : Follows s 1 (rowItem s) (Parse.rowItem s.text) := by
  intro p ls h
  rw [rowItem, bind_position, Parse.rowItem]
  refine (agree_itemEnd hs _ _ h).bind ?_
  rintro stop q ⟨taken, rest⟩ ⟨rfl, hlt, hrest, rfl⟩
  obtain ⟨shown, name, halias, hshown, hle, hsplit⟩ := splitAlias_eq hlt hrest.lt q
  obtain ⟨cs, hsource, hcs⟩ := source_eq hs hshown (Nat.le_of_lt (Nat.lt_of_le_of_lt hle hrest.lt))
  dsimp only at hrest ⊢
  rw [bind_of_ok halias, hsplit]
  dsimp only
  rw [bind_of_ok (hsource q), bind_of_ok (moveTo_eq hrest.lt q), hcs]
  exact ⟨rfl, hlt, hrest⟩

/-! ## Conditions -/

theorem condition?_eq (hs : s.Sound) (p : Nat) {ls : List Lexeme} (hls : ∀ l ∈ ls, l ∈ s.tokens) :
    ∃ c, condition? s ls p = .ok (c, p) ∧ Parse.condition? s.text ls = .ok c := by
  by_cases hshape : ∃ column s₁ e₁ s₂ e₂ l, ls = [⟨.name column, s₁, e₁⟩, ⟨.mark .eq, s₂, e₂⟩, l]
  · obtain ⟨column, s₁, e₁, s₂, e₂, l, rfl⟩ := hshape
    obtain ⟨i, hi⟩ := List.mem_iff_getElem?.1 (hls l (by simp))
    obtain ⟨cs, hcs⟩ := hs.slices (Nat.le_refl i) hi hi
    have hslice : slice s l.start l.stop p = .ok (cs, p) := by
      rw [slice, hcs]
      rfl
    have hsource : Parse.source s.text [l] = .ok cs := by
      rw [Parse.source, List.getLastD_nil, hcs]
    obtain ⟨t, start, stop⟩ := l
    cases t with
    | string | quoted | number =>
      refine ⟨some ⟨column, Literal.read cs⟩, ?_, ?_⟩
      · exact bind_of_ok hslice
      · simp only [Parse.condition?, hsource, bind, Except.bind]
    | _ => exact ⟨none, rfl, rfl⟩
  · have hcursor : condition? s ls = pure none := by
      unfold condition?
      split
      · exact absurd ⟨_, _, _, _, _, _, rfl⟩ hshape
      · rfl
    have hparse : Parse.condition? s.text ls = .ok none := by
      unfold Parse.condition?
      split
      · exact absurd ⟨_, _, _, _, _, _, rfl⟩ hshape
      · rfl
    exact ⟨none, by rw [hcursor, pure_apply], hparse⟩

theorem follows_optionalCondition (hs : s.Sound) :
    Follows s 0 (optionalCondition s) (Parse.optionalCondition s.text) := by
  intro p ls h
  unfold optionalCondition Parse.optionalCondition
  split
  · rename_i start stop ls
    have hnext := h.next hs (by simp)
    rw [h.bind_take hnext, bind_position, ← hnext.length]
    obtain ⟨q, hskip, hq, hrest, htake⟩ := skipWhile_eq (f := fun t => t != .finish && t != .mark .semicolon) hs rfl
      ls.length (p + 1) ls hnext (Nat.le_refl _)
    have hcondition : ∀ l ∈ (s.tokens.drop (p + 1)).take (q - (p + 1)), l ∈ s.tokens := fun l hl =>
      List.mem_of_mem_drop (List.mem_of_mem_take hl)
    obtain ⟨c, hc, hc'⟩ := condition?_eq hs q hcondition
    have hrange : range s (p + 1) q q = .ok ((s.tokens.drop (p + 1)).take (q - (p + 1)), q) := by
      rw [range, if_pos ⟨hq, Nat.le_of_lt hrest.lt⟩]
      rfl
    rw [bind_of_ok hskip, bind_position, bind_of_ok hrange, bind_of_ok hc]
    have htake' : ls.takeWhile Parse.inCondition = (s.tokens.drop (p + 1)).take (q - (p + 1)) := htake
    rw [htake', hc']
    cases c with
    | some c => exact ⟨rfl, Nat.le_of_succ_le hq, hrest⟩
    | none =>
      -- the text of what is passed over is there, too
      obtain ⟨cs, hcs⟩ := exists_source hs (p + 1) (Nat.le_of_lt hrest.lt)
      rw [if_pos (show (none : Option Condition).isNone = true from rfl), bind_of_ok (hcs q)]
      exact ⟨rfl, Nat.le_of_succ_le hq, hrest⟩
  · rename_i hne
    rw [h.bind_leave hne]
    exact ⟨rfl, Nat.le_refl p, h⟩

/-! ## Tables -/

/-- A list is followed up to the parenthesis that closes it. -/
theorem follows_closed {y : List Lexeme → Except Error (α × List Lexeme)} (hs : s.Sound) (hx : Follows s 1 x y)
    (g : List α → β) :
    Follows s 2 (do let as ← commaList s x; expect s (.mark .closeParen); return g as) (fun ls => do
      let (as, ls) ← Parse.commaList y ls
      let ls ← Parse.expect s.text (.mark .closeParen) ls
      .ok (g as, ls)) := by
  intro p ls h
  refine (follows_commaList hs hx p ls h).bind ?_
  rintro as q ⟨_, rest⟩ ⟨rfl, hq, hrest⟩
  dsimp only at hq hrest ⊢
  refine (agree_expect hs hrest (by decide)).bind ?_
  rintro _ q' rest' ⟨hq', hrest'⟩
  exact ⟨rfl, by omega, hrest'⟩

theorem follows_typeArgs (hs : s.Sound) : Follows s 0 (typeArgs s) (Parse.typeArgs s.text) := by
  intro p ls h
  unfold typeArgs Parse.typeArgs
  split
  · have hnext := h.next hs (by simp)
    rw [h.bind_take hnext]
    refine (follows_closed hs (follows_count hs) id _ _ hnext).imp ?_
    rintro args q ⟨_, rest⟩ ⟨rfl, hq, hrest⟩
    exact ⟨rfl, by omega, hrest⟩
  · rename_i hne
    rw [h.bind_leave hne]
    exact ⟨rfl, Nat.le_refl p, h⟩

/-- Whether the constraints of a column end at a token. -/
def EndsConstraints (depth : Nat) (t : Token) : Prop :=
  t = .finish ∨ depth = 0 ∧ (t = .mark .comma ∨ t = .mark .closeParen)

theorem skipConstraints_of_ends {depth : Nat} (h : EndsConstraints depth l.token) (ls : List Lexeme) :
    Parse.skipConstraints depth (l :: ls) = l :: ls := by
  obtain ⟨t, start, stop⟩ := l
  rcases h with rfl | ⟨rfl, rfl | rfl⟩ <;> rfl

/-- **No parenthesis is closed that was not opened**: where the depth is zero, a closing one ends the constraints. -/
theorem depthInside_eq {depth : Nat} (h : ¬EndsConstraints depth l.token) (ls : List Lexeme) :
    ∃ depth', (∀ p, depthInside depth l.token p = .ok (depth', p)) ∧
      Parse.skipConstraints depth (l :: ls) = Parse.skipConstraints depth' ls := by
  obtain ⟨t, start, stop⟩ := l
  cases t with
  | finish => exact absurd (.inl rfl) h
  | mark m =>
    cases m with
    | openParen => exact ⟨depth + 1, fun _ => rfl, rfl⟩
    | closeParen =>
      cases depth with
      | zero => exact absurd (.inr ⟨rfl, .inr rfl⟩) h
      | succ depth => exact ⟨depth, minus_eq (Nat.succ_pos depth), rfl⟩
    | comma =>
      cases depth with
      | zero => exact absurd (.inr ⟨rfl, .inl rfl⟩) h
      | succ depth => exact ⟨depth + 1, fun _ => rfl, rfl⟩
    | _ => exact ⟨depth, fun _ => rfl, rfl⟩
  | _ => exact ⟨depth, fun _ => rfl, rfl⟩

theorem skipConstraints_eq (hs : s.Sound) (fuel : Nat) : ∀ depth p ls, At s p ls → ls.length ≤ fuel →
    ∃ q, skipConstraints s fuel depth p = .ok ((), q) ∧ p ≤ q ∧ At s q (Parse.skipConstraints depth ls) := by
  induction fuel with
  | zero =>
    intro depth p ls h hfuel
    exact absurd h.length_pos (Nat.not_lt.2 hfuel)
  | succ fuel ih =>
    intro depth p ls h hfuel
    obtain ⟨l, ls, rfl⟩ := h.exists
    rw [skipConstraints, bind_current, h.tokenAt]
    by_cases hends : EndsConstraints depth l.token
    · refine ⟨p, ?_, Nat.le_refl p, by rwa [skipConstraints_of_ends hends]⟩
      rcases hends with hl | ⟨rfl, hl⟩
      · rw [hl]
        simp
      · rw [if_pos (by simpa using hl)]
        rfl
    · obtain ⟨depth', hdepth, hskip⟩ := depthInside_eq hends ls
      have hne : l.token ≠ .finish := fun he => hends (.inl he)
      have hnext := h.next hs hne
      obtain ⟨q, hq, hle, hrest⟩ := ih depth' _ _ hnext (Nat.le_of_succ_le_succ hfuel)
      refine ⟨q, ?_, Nat.le_of_succ_le hle, by rwa [hskip]⟩
      rw [if_neg (by simpa [EndsConstraints, hne] using hends), if_neg hne, bind_of_ok (hdepth p),
        bind_of_ok hnext.advance, hq]

theorem follows_columnDef (hs : s.Sound) : Follows s 1 (columnDef s) (Parse.columnDef s.text) := by
  intro p ls h
  rw [columnDef, Parse.columnDef]
  refine (follows_columnName hs p ls h).bind ?_
  rintro column q ⟨_, rest⟩ ⟨rfl, hq, h⟩
  refine (follows_typeName hs q rest h).bind ?_
  rintro type q' ⟨_, rest⟩ ⟨rfl, hq', h⟩
  refine (follows_typeArgs hs q' rest h).bind ?_
  rintro args q'' ⟨_, rest⟩ ⟨rfl, hq'', h⟩
  dsimp only at hq hq' hq'' h ⊢
  obtain ⟨r, hskip, hr, hrest⟩ := skipConstraints_eq hs rest.length 0 q'' rest h (Nat.le_refl _)
  rw [bind_position, ← h.length, bind_of_ok hskip]
  exact ⟨rfl, by omega, hrest⟩

/-! ## Literal rows -/

theorem follows_literalRow (hs : s.Sound) : Follows s 2 (literalRow s) (Parse.literalRow s.text) := by
  intro p ls h
  rw [literalRow, Parse.literalRow]
  refine (agree_expect hs h (by decide)).bind ?_
  rintro _ q rest ⟨hq, h⟩
  refine (follows_commaList hs (follows_rowItem hs) q rest h).imp ?_
  rintro items q' ⟨_, rest⟩ ⟨rfl, hq', h⟩
  exact ⟨rfl, by omega, h⟩

theorem agree_literalRows (hs : s.Sound) (fuel : Nat) : ∀ p ls, At s p ls → ls.length ≤ fuel →
    Agree (Taken s (p + 1)) (literalRows s fuel p) (Parse.moreLiteralRows s.text fuel ls) := by
  induction fuel with
  | zero =>
    intro p ls h hfuel
    exact absurd h.length_pos (Nat.not_lt.2 hfuel)
  | succ fuel ih =>
    intro p ls h hfuel
    rw [literalRows, Parse.moreLiteralRows, bind_position]
    refine (follows_literalRow hs p ls h).bind ?_
    rintro row q ⟨_, rest⟩ ⟨rfl, hq, h'⟩
    dsimp only at hq h' ⊢
    split
    · have hnext := h'.next hs (by simp)
      rw [h'.bind_take hnext]
      refine (agree_expect hs hnext (by decide)).bind ?_
      rintro _ q' rest' ⟨hq', hrest'⟩
      have hlength := hrest'.length
      have hlength' := h.length
      rw [bind_of_ok (progress_eq (show p < q' by omega))]
      refine (ih q' rest' hrest' (by omega)).bind ?_
      rintro rows q'' ⟨_, rest''⟩ ⟨rfl, hq'', hrest''⟩
      exact ⟨rfl, by omega, hrest''⟩
    · rename_i hne
      rw [h'.bind_leave hne]
      exact ⟨rfl, by omega, h'⟩

/-! ## Statements -/

theorem At.comesNext (h : At s p ls) (t : Token) : Parse.comesNext t ls = (Cursor.tokenAt s p == t) := by
  obtain ⟨l, ls, rfl⟩ := h.exists
  rw [h.tokenAt]
  rfl

theorem agree_createTable {a b c d : Nat} (hs : s.Sound)
    (h : At s p (⟨.keyword .create, a, b⟩ :: ⟨.keyword .table, c, d⟩ :: ls)) :
    Agree (Taken s p) (createTable s p) (Parse.createTable s.text ls) := by
  obtain ⟨hcreate, h₁⟩ := h.expect hs (by decide)
  obtain ⟨htable, h₂⟩ := h₁.expect hs (by decide)
  rw [createTable, bind_of_ok hcreate, bind_of_ok htable, Parse.createTable]
  refine (follows_name hs _ _ h₂).bind ?_
  rintro table q ⟨_, rest⟩ ⟨rfl, hq, h⟩
  dsimp only at hq h ⊢
  split
  · have hnext := h.next hs (by simp)
    rw [h.bind_take hnext, bind_position, ← hnext.length]
    refine (agree_literalRows hs _ _ _ hnext (Nat.le_refl _)).bind ?_
    rintro rows q' ⟨_, rest⟩ ⟨rfl, hq', hrest⟩
    exact ⟨rfl, by omega, hrest⟩
  · rename_i hne
    rw [h.bind_leave hne]
    refine (agree_expect hs h (by decide)).bind ?_
    rintro _ q' rest ⟨hq', h'⟩
    split
    · rename_i hnone
      have hcolumns : columnDefs s q' = .ok ([], q') := by
        rw [columnDefs, bind_check, ← h'.comesNext, hnone]
        rfl
      rw [bind_of_ok hcolumns]
      refine (agree_expect hs h' (by decide)).bind ?_
      rintro _ q'' rest' ⟨hq'', hrest'⟩
      exact ⟨rfl, by omega, hrest'⟩
    · rename_i hnone
      have hcolumns : columnDefs s q' = commaList s (columnDef s) q' := by
        rw [columnDefs, bind_check, ← h'.comesNext, if_neg hnone]
      have hlist := follows_commaList hs (follows_columnDef hs) q' rest h'
      rw [← hcolumns] at hlist
      refine hlist.bind ?_
      rintro columns q'' ⟨_, rest'⟩ ⟨rfl, hq'', hrest'⟩
      refine (agree_expect hs hrest' (by decide)).bind ?_
      rintro _ r rest'' ⟨hr, hrest''⟩
      exact ⟨rfl, by omega, hrest''⟩

theorem exists_of_isWord {word : String} (h : isWord word t) : ∃ n, t = .name n := by
  cases t with
  | name n => exact ⟨n, rfl⟩
  | _ => cases h

/-- `IF EXISTS` is passed over where it is there: its first word is not the end, so a token comes after it. -/
theorem skipIfExists_eq (hs : s.Sound) (h : At s p ls) :
    ∃ q, skipIfExists s p = .ok ((), q) ∧ p ≤ q ∧ At s q (Parse.skipIfExists ls) := by
  rw [skipIfExists, bind_peek, bind_current]
  by_cases hwords : (isWord "IF" (Cursor.tokenAt s p) && isWord "EXISTS" (Cursor.tokenAt s (p + 1))) = true
  · rw [if_pos hwords]
    obtain ⟨hif, hexists⟩ := Bool.and_eq_true_iff.1 hwords
    obtain ⟨⟨t, a, b⟩, ls, rfl⟩ := h.exists
    rw [h.tokenAt] at hif hwords
    obtain ⟨n, rfl⟩ := exists_of_isWord hif
    have h₁ := h.next hs (by simp)
    obtain ⟨⟨u, c, d⟩, ls, rfl⟩ := h₁.exists
    rw [h₁.tokenAt] at hexists hwords
    obtain ⟨m, rfl⟩ := exists_of_isWord hexists
    have h₂ := h₁.next hs (by simp)
    refine ⟨p + 2, ?_, by omega, ?_⟩
    · rw [bind_of_ok h₁.advance, h₂.advance]
    · rw [Parse.skipIfExists]
      exact (if_pos hwords).symm ▸ h₂
  · rw [if_neg hwords]
    have hsame : Parse.skipIfExists ls = ls := by
      unfold Parse.skipIfExists
      split
      · have h₁ := h.next hs (by simp)
        rw [h.tokenAt, h₁.tokenAt] at hwords
        exact if_neg hwords
      · rfl
    exact ⟨p, rfl, Nat.le_refl p, by rwa [hsame]⟩

theorem agree_dropTable {a b c d : Nat} (hs : s.Sound)
    (h : At s p (⟨.keyword .drop, a, b⟩ :: ⟨.keyword .table, c, d⟩ :: ls)) :
    Agree (Taken s p) (dropTable s p) (Parse.dropTable s.text ls) := by
  obtain ⟨hdrop, h₁⟩ := h.expect hs (by decide)
  obtain ⟨htable, h₂⟩ := h₁.expect hs (by decide)
  obtain ⟨q, hskip, hq, h⟩ := skipIfExists_eq hs h₂
  rw [dropTable, bind_of_ok hdrop, bind_of_ok htable, bind_of_ok hskip, Parse.dropTable]
  refine (follows_name hs _ _ h).bind ?_
  rintro table q' ⟨_, rest⟩ ⟨rfl, hq', h⟩
  exact ⟨rfl, by omega, h⟩

theorem follows_projection (hs : s.Sound) : Follows s 1 (projection s) (Parse.projection s.text) := by
  intro p ls h
  unfold projection Parse.projection
  split
  · have hnext := h.next hs (by simp)
    rw [h.bind_take hnext]
    exact ⟨rfl, Nat.le_refl _, hnext⟩
  · rename_i hne
    rw [h.bind_leave hne]
    refine (follows_commaList hs (follows_name hs) p ls h).bind ?_
    rintro names q ⟨_, rest⟩ ⟨rfl, hq, hrest⟩
    exact ⟨rfl, hq, hrest⟩

theorem agree_select {a b : Nat} (hs : s.Sound) (h : At s p (⟨.keyword .select, a, b⟩ :: ls)) :
    Agree (Taken s p) (select s p) (Parse.select s.text ls) := by
  obtain ⟨hselect, h₁⟩ := h.expect hs (by decide)
  rw [select, bind_of_ok hselect, Parse.select]
  refine (follows_projection hs _ _ h₁).bind ?_
  rintro shown q ⟨_, rest⟩ ⟨rfl, hq, h⟩
  refine (agree_expect hs h (by decide)).bind ?_
  rintro _ q' rest ⟨hq', h⟩
  refine (follows_name hs _ _ h).bind ?_
  rintro table q'' ⟨_, rest⟩ ⟨rfl, hq'', h⟩
  refine (follows_optionalCondition hs _ _ h).bind ?_
  rintro c r ⟨_, rest⟩ ⟨rfl, hr, h⟩
  exact ⟨rfl, by omega, h⟩

theorem follows_targetColumns (hs : s.Sound) : Follows s 0 (targetColumns s) (Parse.targetColumns s.text) := by
  intro p ls h
  unfold targetColumns Parse.targetColumns
  split
  · have hnext := h.next hs (by simp)
    rw [h.bind_take hnext]
    refine (follows_closed hs (follows_columnName hs) some _ _ hnext).imp ?_
    rintro names q ⟨_, rest⟩ ⟨rfl, hq, hrest⟩
    exact ⟨rfl, by omega, hrest⟩
  · rename_i hne
    rw [h.bind_leave hne]
    exact ⟨rfl, Nat.le_refl p, h⟩

theorem follows_row (hs : s.Sound) : Follows s 1 (row s) (Parse.row s.text) := by
  intro p ls h
  rw [row, Parse.row]
  refine (agree_expect hs h (by decide)).bind ?_
  rintro _ q rest ⟨hq, h⟩
  refine (follows_closed hs (follows_value hs) id q rest h).imp ?_
  rintro values q' ⟨_, rest⟩ ⟨rfl, hq', h⟩
  exact ⟨rfl, by omega, h⟩

theorem agree_insert {a b c d : Nat} (hs : s.Sound)
    (h : At s p (⟨.keyword .insert, a, b⟩ :: ⟨.keyword .into, c, d⟩ :: ls)) :
    Agree (Taken s p) (insert s p) (Parse.insert s.text ls) := by
  obtain ⟨hinsert, h₁⟩ := h.expect hs (by decide)
  obtain ⟨hinto, h₂⟩ := h₁.expect hs (by decide)
  rw [insert, bind_of_ok hinsert, bind_of_ok hinto, Parse.insert]
  refine (follows_name hs _ _ h₂).bind ?_
  rintro table q ⟨_, rest⟩ ⟨rfl, hq, h⟩
  refine (follows_targetColumns hs _ _ h).bind ?_
  rintro columns q' ⟨_, rest⟩ ⟨rfl, hq', h⟩
  refine (agree_expect hs h (by decide)).bind ?_
  rintro _ q'' rest ⟨hq'', h⟩
  refine (follows_commaList hs (follows_row hs) _ _ h).bind ?_
  rintro rows r ⟨_, rest⟩ ⟨rfl, hr, h⟩
  exact ⟨rfl, by omega, h⟩

theorem agree_delete {a b c d : Nat} (hs : s.Sound)
    (h : At s p (⟨.keyword .delete, a, b⟩ :: ⟨.keyword .from, c, d⟩ :: ls)) :
    Agree (Taken s p) (delete s p) (Parse.delete s.text ls) := by
  obtain ⟨hdelete, h₁⟩ := h.expect hs (by decide)
  obtain ⟨hfrom, h₂⟩ := h₁.expect hs (by decide)
  rw [delete, bind_of_ok hdelete, bind_of_ok hfrom, Parse.delete]
  refine (follows_name hs _ _ h₂).bind ?_
  rintro table q ⟨_, rest⟩ ⟨rfl, hq, h⟩
  refine (follows_optionalCondition hs _ _ h).bind ?_
  rintro condition q' ⟨_, rest⟩ ⟨rfl, hq', h⟩
  exact ⟨rfl, by omega, h⟩

/-- The first of some tokens; after all of them it is the end. -/
def nextToken : List Lexeme → Token
  | l :: _ => l.token
  | [] => .finish

theorem At.tokenAt_succ (h : At s p (l :: ls)) : Cursor.tokenAt s (p + 1) = nextToken ls := by
  rw [h.tail, Cursor.tokenAt, ← List.head?_drop]
  cases s.tokens.drop (p + 1) <;> rfl

/-- Tokens that open no statement are refused. -/
theorem At.unsupported (hs : s.Sound) (h : At s p (l :: ls)) :
    Agree (Taken s p)
      ((do
        let found ← Cursor.fragment s (← position)
        refuse (.unsupportedCommand (String.ofList found)) : Reader Statement) p)
      (do
        let found ← Parse.source s.text [l]
        .error (.unsupportedCommand (String.ofList found))) := by
  obtain ⟨cs, hfragment, hcs⟩ := h.fragment hs
  rw [bind_position, bind_of_ok hfragment, hcs]
  exact ⟨rfl, inText_unsupportedCommand _⟩

theorem exists_of_nextToken {k : Keyword} (h : nextToken ls = .keyword k) :
    ∃ a b ls', ls = ⟨.keyword k, a, b⟩ :: ls' := by
  cases ls with
  | nil => cases h
  | cons l ls =>
    obtain ⟨t, a, b⟩ := l
    obtain rfl : t = .keyword k := h
    exact ⟨a, b, ls, rfl⟩

/-- The first two tokens tell both readers what the statement is. -/
theorem agree_statement (hs : s.Sound) (h : At s p ls) :
    Agree (Taken s p) (statement s p) (Parse.statement s.text ls) := by
  obtain ⟨⟨t, a, b⟩, ls, rfl⟩ := h.exists
  have hother := h.unsupported hs
  rw [statement, bind_current, bind_peek, h.tokenAt, h.tokenAt_succ]
  dsimp only
  generalize hu : nextToken ls = u
  split
  · obtain ⟨c, d, ls, rfl⟩ := exists_of_nextToken hu
    exact agree_createTable hs h
  · obtain ⟨c, d, ls, rfl⟩ := exists_of_nextToken hu
    exact agree_dropTable hs h
  · exact agree_select hs h
  · obtain ⟨c, d, ls, rfl⟩ := exists_of_nextToken hu
    exact agree_insert hs h
  · obtain ⟨c, d, ls, rfl⟩ := exists_of_nextToken hu
    exact agree_delete hs h
  · exact ⟨rfl, inText_unexpectedEnd .statement⟩
  · -- neither reader knows the two tokens
    rename_i hselect hfinish hcreate hdrop hinsert hdelete
    have hpair : ∀ {k k' : Keyword}, (t = .keyword k → u = .keyword k' → False) → ∀ c d c' d' ls',
        (⟨t, a, b⟩ : Lexeme) = ⟨.keyword k, c, d⟩ → ls = ⟨.keyword k', c', d'⟩ :: ls' → False := by
      rintro k k' hne c d c' d' ls' ht rfl
      exact hne (congrArg Lexeme.token ht) hu.symm
    rw [Parse.statement, if_neg hfinish]
    · exact hother
    · exact hpair hcreate
    · exact hpair hdrop
    · exact fun c d ht => hselect (congrArg Lexeme.token ht)
    · exact hpair hinsert
    · exact hpair hdelete

theorem agree_endOfStatement (hs : s.Sound) (h : At s p ls) :
    Agree (fun _ _ _ => True) (endOfStatement s p) (Parse.endOfStatement s.text ls) := by
  obtain ⟨q, hskip, -, hrest, -⟩ := skipWhile_eq (f := fun t => t == .mark .semicolon) hs rfl ls.length p ls h
    (Nat.le_refl _)
  rw [endOfStatement, bind_position, ← h.length, bind_of_ok hskip, bind_check, Parse.endOfStatement]
  obtain ⟨l, rest, hl⟩ := hrest.exists
  rw [hl] at hrest ⊢
  simp only [hrest.tokenAt, beq_iff_eq]
  split
  · trivial
  · exact hrest.unexpected hs .endOfStatement _

/-- Readers that agree have the same answer. -/
theorem Agree.answers {y : Except Error α} (h : Agree (fun a _ b => a = b) (x p) y) :
    (∃ a, x.run' p = .ok a ∧ y = .ok a) ∨ ∃ e, x.run' p = .error (.refused e) ∧ y = .error e ∧ e.InText := by
  change (∃ a, (x p).map Prod.fst = .ok a ∧ y = .ok a) ∨
    ∃ e, (x p).map Prod.fst = .error (.refused e) ∧ y = .error e ∧ e.InText
  unfold Agree at h
  split at h
  · rename_i a q b hx
    subst h
    rw [hx]
    exact .inl ⟨a, rfl, rfl⟩
  · rename_i e e' hx
    obtain ⟨rfl, he⟩ := h
    rw [hx]
    exact .inr ⟨e, rfl, rfl, he⟩
  · exact h.elim

/-- **A text is read without a slip**: no index without a token, no slice across a character, no number below zero and
no round without a token. The answer is a statement or an error of syntax, the same as that of the reader of tokens. -/
theorem parse_never_slips (text : String) :
    (∃ st, parse text = .ok st ∧ Statement.parse text = .ok st) ∨
      ∃ e, parse text = .error (.refused e) ∧ Statement.parse text = .error e ∧ e.InText := by
  rw [parse, Statement.parse]
  cases hscan : scan text.toList with
  | error e => exact .inr ⟨e, rfl, rfl, (located_of_scan hscan).inText⟩
  | ok tokens =>
    have hs := Source.sound_of_spans (spans_of_scan hscan)
    refine Agree.answers ?_
    refine (agree_statement hs ⟨hs.nonempty, rfl⟩).bind ?_
    rintro st q ⟨_, rest⟩ ⟨rfl, -, h⟩
    refine (agree_endOfStatement hs h).bind ?_
    rintro _ q' _ -
    rfl

end Cursor

end TableStore
