import TableStore.Proofs.SemicolonReaders

/-!
# Semicolons at the end

- a semicolon that an item takes in makes it another item, because what is shown of it goes on beyond the text
  (`Parse.Closing.swallows_rowItem`), and so are the rows and the table (`Parse.Swallows.chain`);
- so a statement comes out of the same tokens before semicolons exactly if it is no table from literal rows, or if it
  leaves no parenthesis open (`Parse.Closing.statement_iff`);
- **semicolons on the next line are passed over** exactly then, or if there are none, or if the text ends in an open
  comment, which they are a part of (`Statement.semicolons_are_passed_over`).
-/

namespace TableStore

open Text

namespace Parse

variable {α : Type} {text text' s : List Char} {l fin fin' : Lexeme} {ls front tail semicolons : List Lexeme}
  {t : Token}

/-! ## Items that go on -/

/-- What a reader takes up to the end, with a parenthesis open, is not what the other one takes from the tail. -/
def Swallows (fin : Lexeme) (tail : List Lexeme) (P : List Lexeme → Prop)
    (f f' : List Lexeme → Except Error (α × List Lexeme)) : Prop :=
  ∀ front, Unfinished front → ∀ a, f (front ++ [fin]) = .ok (a, [fin]) → ¬P front →
    ∀ rest, f' (front ++ tail) ≠ .ok (a, rest)

/-- A slice starts at the first token, and ends in the text with the last one. -/
theorem stop_of_source (h : source text (l :: ls) = .ok s) :
    l.start + byteLength s = (ls.getLastD l).stop ∧ l.start + byteLength s ≤ byteLength text := by
  simp only [source] at h
  split at h <;> cases h
  rename_i hslice
  obtain ⟨front, rest, rfl, hstart, hstop⟩ := eq_of_slice hslice
  refine ⟨hstart ▸ hstop, ?_⟩
  simp only [byteLength_append]
  omega

theorem itemLength_semicolons {stops : List Token} {depth : Nat} (hdepth : depth ≠ 0) (hfin : fin.token = .finish) :
    ∀ {semicolons : List Lexeme}, (∀ l ∈ semicolons, l.token = .mark .semicolon) →
      itemLength stops depth (semicolons ++ [fin]) = semicolons.length
  | [], _ => by rw [List.nil_append, itemLength, if_pos hfin, List.length_nil]
  | l :: semicolons, h => by
    obtain ⟨hl, hsemicolons⟩ := List.forall_mem_cons.1 h
    rw [List.cons_append, itemLength, if_neg (by simp [hl]), if_neg (by simp [hdepth]), hl,
      show depthAfter depth (.mark .semicolon) = depth from rfl, itemLength_semicolons hdepth hfin hsemicolons,
      List.length_cons]

/-- What is shown of an item starts with its first token. -/
theorem exists_splitAlias (l : Lexeme) (ls : List Lexeme) : ∃ ls', (splitAlias (l :: ls)).1 = l :: ls' := by
  unfold splitAlias
  split
  · rename_i last start stop front hreverse
    split
    · exact ⟨ls, rfl⟩
    · rename_i hfront
      split
      · have htaken : l :: ls = front.reverse ++ [⟨.keyword .as, start, stop⟩, last] := by
          rw [← List.reverse_reverse (l :: ls), hreverse]
          simp
        cases hfirst : front.reverse with
        | nil => simp_all
        | cons x xs =>
          rw [hfirst] at htaken
          obtain ⟨rfl, -⟩ := List.cons.inj htaken
          exact ⟨xs, rfl⟩
      · exact ⟨ls, rfl⟩
  · exact ⟨ls, rfl⟩

/-- An item that does not end in a name has none. -/
theorem splitAlias_concat (h : l.token.name? = none) (ls : List Lexeme) :
    splitAlias (ls ++ [l]) = (ls ++ [l], none) := by
  unfold splitAlias
  rw [List.reverse_concat]
  split
  · rename_i hls
    obtain ⟨rfl, -⟩ := List.cons.inj hls
    split
    · rfl
    · rw [h]
  · rfl

/-- The stops of an item of a literal row. -/
def rowStops : List Token := [.mark .comma, .keyword .union, .mark .semicolon]

theorem exists_of_rowItem {i : Item} {rest : List Lexeme} (h : rowItem text ls = .ok (i, rest)) :
    ∃ taken s, item text rowStops .expression ls = .ok (taken, rest) ∧ source text (splitAlias taken).1 = .ok s ∧
      i.text = String.ofList s := by
  obtain ⟨⟨taken, ls'⟩, hitem, h⟩ := Except.exists_of_bind h
  refine ⟨taken, ?_⟩
  dsimp only at h
  generalize splitAlias taken = shown at h ⊢
  obtain ⟨s, hs, h⟩ := Except.exists_of_bind h
  cases h
  exact ⟨s, hitem, hs, rfl⟩

namespace Closing

variable (h : Closing text text' fin fin' semicolons)
include h

theorem swallows_rowItem :
    Swallows fin (semicolons ++ [fin']) (Clear semicolons) (rowItem text) (rowItem text') := by
  intro front hfront i hread hclear rest hread'
  obtain ⟨hne, hopen⟩ := not_or.1 hclear
  obtain ⟨_, s, hitem, hs, htext⟩ := exists_of_rowItem hread
  obtain ⟨_, s', hitem', hs', htext'⟩ := exists_of_rowItem hread'
  have hsame : s' = s := String.ofList_injective (htext'.symm.trans htext)
  obtain ⟨n, hn, rfl, hrest⟩ := exists_of_item hitem
  obtain ⟨n', hn', rfl, -⟩ := exists_of_item hitem'
  obtain ⟨taken, front', rfl, ⟨hfront', -, hlength⟩ | ⟨rfl, hlength⟩⟩ := exists_item rowStops hfront 0
  -- an item that stops leaves some tokens
  · rw [hlength] at hn
    rw [List.append_assoc, List.drop_left' hn] at hrest
    exact hfront' (List.append_left_eq_self.1 hrest.symm)
  · rw [List.append_nil] at *
    have hfinish : itemLength rowStops (depthFrom 0 taken) [fin] = 0 := by rw [itemLength, if_pos h.finish]
    rw [hlength, hfinish, Nat.add_zero] at hn
    rw [hlength, itemLength_semicolons hopen h.finish' h.semicolon, ← List.length_append] at hn'
    rw [List.take_left' hn] at hs
    rw [← List.append_assoc, List.take_left' hn'] at hs'
    obtain ⟨l, taken, rfl⟩ := List.exists_cons_of_length_eq_add_one hn
    obtain ⟨ls, last, rfl⟩ := (List.eq_nil_or_concat' semicolons).resolve_left hne
    have hlast : last.token.name? = none := by rw [h.semicolon last (by simp)]; rfl
    obtain ⟨shown, hshown⟩ := exists_splitAlias l taken
    rw [hshown] at hs
    rw [← List.append_assoc, splitAlias_concat hlast] at hs'
    -- the texts start with the same token, and one of them ends after the text
    have hstop : l.start + byteLength s' = last.stop :=
      (stop_of_source hs').1.trans (congrArg Lexeme.stop (List.getLastD_concat ..))
    have hafter := h.after last (by simp)
    have hinside := (stop_of_source hs).2
    rw [hsame] at hstop
    omega

end Closing

/-! ### Lists -/

section

variable {P : List Lexeme → Prop} {f f' : List Lexeme → Except Error (α × List Lexeme)}
  {later later' : List Lexeme → Except Error (List α × List Lexeme)}
  {F F' : α × List Lexeme → Except Error (List α × List Lexeme)}

/-- A list starts with the item that its rest is read after. -/
theorem Chains.exists_cons (hF : Chains t later F) {a : α} {as : List α} {rest : List Lexeme}
    (h : F (a, ls) = .ok (as, rest)) : ∃ as', as = a :: as' := by
  cases hnext : comesNext t ls with
  | false =>
    rw [(hF a).left ls hnext] at h
    cases h
    exact ⟨[], rfl⟩
  | true =>
    obtain ⟨l, ls, rfl, hl⟩ := exists_of_comesNext hnext
    rw [(hF a).taken l ls hl] at h
    obtain ⟨⟨as', _⟩, -, h⟩ := Except.exists_of_bind h
    cases h
    exact ⟨as', rfl⟩

/-- A list ends where its last item does, so it takes in what this takes in. -/
theorem Swallows.chain (ht : t ∈ [.mark .comma, .keyword .union]) (hP : Blind P)
    (hF : Chains t later F) (hF' : Chains t later' F') (hf : Continues fin tail (fun _ => P) f f')
    (hs : Swallows fin tail P f f') (hlater : Swallows fin tail P later later') :
    Swallows fin tail P (fun ls => f ls >>= F) (fun ls => f' ls >>= F') := by
  have hplain : ∀ t ∈ [Token.mark .comma, .keyword .union], depthAfter 0 t = 0 := by decide
  have hdepth := hplain t ht
  intro front hfront as hread hopen rest hread'
  obtain ⟨⟨a, mid⟩, hitem, hread⟩ := Except.exists_of_bind hread
  obtain ⟨⟨a', mid'⟩, hitem', hread'⟩ := Except.exists_of_bind hread'
  obtain ⟨front₁, hsuffix, rfl, hiff, hcont⟩ := hf front hfront a mid hitem
  obtain ⟨as₁, rfl⟩ := hF.exists_cons hread
  obtain ⟨as₂, has⟩ := hF'.exists_cons hread'
  obtain ⟨rfl, -⟩ := List.cons.inj has
  cases front₁ with
  | nil => exact hs front hfront a hitem hopen mid' hitem'
  | cons l front₁ =>
    have hne : l :: front₁ ≠ [] := List.cons_ne_nil l front₁
    rw [hcont (.inl hne)] at hitem'
    cases hitem'
    by_cases hl : l.token = t
    · rw [List.cons_append, (hF a).taken l _ hl] at hread
      rw [List.cons_append, (hF' a).taken l _ hl] at hread'
      obtain ⟨⟨as₁, _⟩, hread, h⟩ := Except.exists_of_bind hread
      cases h
      obtain ⟨⟨as₂, rest'⟩, hread', h⟩ := Except.exists_of_bind hread'
      cases h
      have hsuffix₁ : front₁ <:+ front := (List.suffix_cons l front₁).trans hsuffix
      refine hlater front₁ (hfront.of_suffix hsuffix₁) _ hread ?_ _ hread'
      exact fun hclosed => hopen ((hiff hne).2 ((hP.cons l front₁ (hl ▸ hdepth)).2 hclosed))
    · have hnext : comesNext t (l :: front₁ ++ [fin]) = false := beq_eq_false_iff_ne.2 hl
      rw [(hF a).left _ hnext] at hread
      exact absurd (List.append_left_eq_self.1 (Prod.mk.inj (Except.ok.inj hread)).2) hne

theorem Swallows.separated (hP : Blind P) (hf : Continues fin tail (fun _ => P) f f')
    (hs : Swallows fin tail P f f') : ∀ {n m : Nat}, n ≤ m →
      Swallows fin tail P (Parse.separated f n) (Parse.separated f' m)
  | 0, _, _ => fun _ _ _ h => nomatch h
  | n + 1, m + 1, hle => Swallows.chain (by simp) hP (chains_separated f n) (chains_separated f' m) hf hs
      (Swallows.separated hP hf hs (Nat.le_of_succ_le_succ hle))

theorem Swallows.commaList (htail : Closes tail) (hP : Blind P) (hf : Continues fin tail (fun _ => P) f f')
    (hs : Swallows fin tail P f f') :
    Swallows fin tail P (Parse.commaList f) (Parse.commaList f') := by
  intro front hfront as h
  refine Swallows.separated hP hf hs ?_ front hfront as h
  obtain ⟨l, ls, rfl, -⟩ := htail
  simp

theorem Swallows.after_token (hfin : fin.token = .finish) (ht : t ≠ .finish) (hdepth : depthAfter 0 t = 0)
    (hP : Blind P) (hs : Swallows fin tail P f f') :
    Swallows fin tail P (fun ls => do let ls ← expect text t ls; f ls)
      (fun ls => do let ls ← expect text' t ls; f' ls) := by
  intro front hfront a hread hopen rest hread'
  obtain ⟨ls, htoken, hread⟩ := Except.exists_of_bind hread
  obtain ⟨ls', htoken', hread'⟩ := Except.exists_of_bind hread'
  obtain ⟨l, front, rfl, hl, rfl⟩ := exists_of_expect hfin ht htoken
  rw [List.cons_append, expect_of_token text' hl] at htoken'
  cases htoken'
  refine hs front (hfront.of_suffix (List.suffix_cons l front)) a hread ?_ rest hread'
  rwa [← hP.cons l front (hl ▸ hdepth)]

end

theorem Closing.swallows_literalRow (h : Closing text text' fin fin' semicolons) :
    Swallows fin (semicolons ++ [fin']) (Clear semicolons) (literalRow text) (literalRow text') :=
  (h.swallows_rowItem.commaList h.closes (blind_clear semicolons) h.continues_rowItem).after_token h.finish
    (by simp) rfl (blind_clear semicolons)

theorem Closing.swallows_moreLiteralRows (h : Closing text text' fin fin' semicolons) : ∀ {n m : Nat}, n ≤ m →
    Swallows fin (semicolons ++ [fin']) (Clear semicolons) (moreLiteralRows text n) (moreLiteralRows text' m)
  | 0, _, _ => fun _ _ _ h => nomatch h
  | n + 1, m + 1, hle => by
    refine Swallows.chain (by simp) (blind_clear semicolons) (chains_moreLiteralRows text n)
      (chains_moreLiteralRows text' m) h.continues_literalRow h.swallows_literalRow ?_
    exact (h.swallows_moreLiteralRows (Nat.le_of_succ_le_succ hle)).after_token h.finish (by simp) rfl
      (blind_clear semicolons)

/-! ### Statements -/

theorem Closing.swallows_rowTable (h : Closing text text' fin fin' semicolons) (table : String) :
    Swallows fin (semicolons ++ [fin']) (Clear semicolons) (rowTable text table) (rowTable text' table) := by
  intro front hfront s hread hopen rest hread'
  obtain ⟨⟨rows, _⟩, hrows, hread⟩ := Except.exists_of_bind hread
  obtain ⟨⟨rows', _⟩, hrows', hread'⟩ := Except.exists_of_bind hread'
  cases hread
  cases hread'
  have hle : (front ++ [fin]).length ≤ (front ++ (semicolons ++ [fin'])).length := by simp
  exact h.swallows_moreLiteralRows hle front hfront rows hrows hopen rest hrows'

/-- A table from literal rows is read from its rows, whatever comes after the tokens. -/
theorem exists_rowTable (hfin : fin.token = .finish) (text' : List Char) {s : Statement} {rest : List Lexeme}
    (hs : s.IsLiteralTable) (hread : statement text (front ++ [fin]) = .ok (s, rest)) :
    ∃ table front', front' <:+ front ∧ (AllClosed front ↔ AllClosed front') ∧
      rowTable text table (front' ++ [fin]) = .ok (s, rest) ∧
      ∀ tail, statement text' (front ++ tail) = rowTable text' table (front' ++ tail) := by
  unfold statement at hread
  split at hread
  case h_1 start stop start' stop' _ hls =>
    obtain ⟨front₁, rfl, rfl⟩ := exists_of_words hfin
      [⟨.keyword .create, start, stop⟩, ⟨.keyword .table, start', stop'⟩] (by simp [Token.isKeyword]) hls
    obtain ⟨g, hg, hbranches⟩ := exists_createTable text
    obtain ⟨g', hg', hbranches'⟩ := exists_createTable text'
    rw [hg] at hread
    obtain ⟨⟨table, ls⟩, hname, hread⟩ := Except.exists_of_bind hread
    cases front₁ with
    | nil => exact absurd hfin (takesOne_name text text' _ _ _ _ hname).2.1
    | cons l front₂ =>
      obtain ⟨rfl, -, hdepth, hname'⟩ := takesOne_name text text' _ _ _ _ hname
      cases hnext : comesNext (.keyword .as) front₂ with
      | false =>
        have hleft : comesNext (.keyword .as) (front₂ ++ [fin]) = false := by
          rw [comesNext_append (by simp) (by simp) (closes_finish hfin), hnext]
        have hcolumns := ((hbranches table).left _ hleft).symm.trans hread
        exact absurd hs (rowless_columnTable text table _ _ _ hcolumns)
      | true =>
        obtain ⟨l', front', rfl, hl'⟩ := exists_of_comesNext hnext
        have hrows := ((hbranches table).taken l' (front' ++ [fin]) hl').symm.trans hread
        refine ⟨table, front', ⟨[_, _, _, _], rfl⟩, ?_, hrows, fun tail => ?_⟩
        · exact (allClosed_cons rfl _).trans ((allClosed_cons rfl _).trans
            ((allClosed_cons hdepth _).trans (allClosed_cons (by rw [hl']; rfl) front')))
        · have hcreate : createTable text' (l :: (l' :: front' ++ tail)) = rowTable text' table (front' ++ tail) := by
            rw [hg']
            simp only [hname', bind, Except.bind]
            exact (hbranches' table).taken l' _ hl'
          exact hcreate
  case h_2 => exact absurd hs (rowless_dropTable text _ _ _ hread)
  case h_3 => exact absurd hs (rowless_select text _ _ _ hread)
  case h_4 => exact absurd hs (rowless_insert text _ _ _ hread)
  case h_5 => exact absurd hs (rowless_delete text _ _ _ hread)
  case h_6 =>
    split at hread
    · cases hread
    · obtain ⟨_, -, hread⟩ := Except.exists_of_bind hread
      cases hread
  case h_7 => cases hread

/-- Only semicolons may come after a statement. -/
theorem endOfStatement_iff (hfin : fin.token = .finish) (text : List Char) : ∀ {front : List Lexeme}, Unfinished front →
    (endOfStatement text (front ++ [fin]) = .ok () ↔ ∀ l ∈ front, l.token = .mark .semicolon)
  | [], _ => by simp [endOfStatement, hfin]
  | l :: front, hfront => by
    obtain ⟨hl, hfront⟩ := List.forall_mem_cons.1 hfront
    by_cases hsemicolon : l.token = .mark .semicolon
    · have hstep : endOfStatement text (l :: front ++ [fin]) = endOfStatement text (front ++ [fin]) := by
        simp only [endOfStatement, List.cons_append, List.dropWhile_cons, hsemicolon, beq_self_eq_true, if_true]
      rw [hstep, endOfStatement_iff hfin text hfront, List.forall_mem_cons, and_iff_right hsemicolon]
    · refine ⟨fun h => ?_, fun h => absurd (h l List.mem_cons_self) hsemicolon⟩
      simp only [endOfStatement, List.cons_append, List.dropWhile_cons, beq_eq_false_iff_ne.2 hsemicolon, if_neg hl,
        Bool.false_eq_true, if_false] at h
      exact absurd h unexpected_ne_ok

theorem allClosed_of_semicolons (h : ∀ l ∈ ls, l.token = .mark .semicolon) : AllClosed ls := by
  induction ls with
  | nil => rfl
  | cons l ls ih =>
    obtain ⟨hl, hls⟩ := List.forall_mem_cons.1 h
    exact (allClosed_cons (by rw [hl]; rfl) ls).2 (ih hls)

/-- **A statement stays the same before more semicolons**, but a table from literal rows with a parenthesis open. -/
theorem Closing.statement_iff (h : Closing text text' fin fin' semicolons) (hfront : Unfinished front) {s : Statement}
    {rest : List Lexeme} (hread : statement text (front ++ [fin]) = .ok (s, rest))
    (hend : endOfStatement text rest = .ok ()) :
    (∃ rest', statement text' (front ++ (semicolons ++ [fin'])) = .ok (s, rest') ∧
      endOfStatement text' rest' = .ok ()) ↔ (s.IsLiteralTable → Clear semicolons front) := by
  obtain ⟨front', hsuffix, rfl, hiff, hcont⟩ := h.continues_statement front hfront s rest hread
  have hfront' := (endOfStatement_iff h.finish text (hfront.of_suffix hsuffix)).1 hend
  refine ⟨?_, fun hclear => ?_⟩
  · rintro ⟨rest', hread', -⟩ hs
    by_contra hopen
    -- no semicolon was left to the first reader
    have hnil : front' = [] := by
      by_contra hne
      exact hopen ((hiff hne).2 (fun _ => .inr (allClosed_of_semicolons hfront')) hs)
    subst hnil
    obtain ⟨table, front', hsuffix', hclosed, hrows, hrows'⟩ := exists_rowTable h.finish text' hs hread
    rw [hrows'] at hread'
    have hopen' : ¬Clear semicolons front' := fun h => hopen (h.imp_right hclosed.2)
    exact h.swallows_rowTable table front' (hfront.of_suffix hsuffix') s hrows hopen' rest' hread'
  · refine ⟨_, hcont (.inr hclear), ?_⟩
    have hunfinished : Unfinished (front' ++ semicolons) := List.forall_mem_append.2
      ⟨hfront.of_suffix hsuffix, fun l hl => by simp [h.semicolon l hl]⟩
    rw [← List.append_assoc, endOfStatement_iff h.finish' text' hunfinished]
    exact List.forall_mem_append.2 ⟨hfront', h.semicolon⟩

end Parse

/-! ## Texts -/

namespace Statement

open Parse

variable {s : String} {st : Statement} {ls : List Lexeme}

theorem parse_eq_ok_iff (hscan : scan s.toList = .ok ls) : parse s = .ok st ↔
    ∃ rest, statement s.toList ls = .ok (st, rest) ∧ endOfStatement s.toList rest = .ok () := by
  simp only [parse, hscan, bind, Except.bind]
  cases statement s.toList ls with
  | error e => simp
  | ok found =>
    obtain ⟨st', rest⟩ := found
    cases hend : endOfStatement s.toList rest with
    | error e => simp [hend]
    | ok => simp [hend]

theorem unfinished_of_scan {text : List Char} {front : List Lexeme} {fin : Lexeme}
    (h : scan text = .ok (front ++ [fin])) :
    Unfinished front ∧ fin.token = .finish := by
  obtain ⟨tokens, htokens, hunfinished⟩ := (spans_of_scan h).finish
  obtain ⟨rfl, hfin⟩ := List.append_inj' htokens rfl
  exact ⟨hunfinished, congrArg Lexeme.token (List.cons.inj hfin).1⟩

theorem allClosed_concat {front : List Lexeme} {fin : Lexeme} (hfin : fin.token = .finish) :
    AllClosed (front ++ [fin]) ↔ AllClosed front := by
  rw [AllClosed, AllClosed, depthFrom_append, depthFrom, List.foldl_cons, hfin]
  rfl

/-- A statement comes out of a text that goes on with semicolons, unless its parentheses take them in. -/
theorem parse_iff_of_scan {s' : String} {front semicolons : List Lexeme} {fin fin' : Lexeme} (h : parse s = .ok st)
    (hscan : scan s.toList = .ok (front ++ [fin])) (hscan' : scan s'.toList = .ok (front ++ (semicolons ++ [fin'])))
    (hstart : s.toList <+: s'.toList)
    (hsemicolons : ∀ l ∈ semicolons, l.token = .mark .semicolon ∧ byteLength s.toList < l.stop) :
    parse s' = .ok st ↔ (st.IsLiteralTable → Clear semicolons front) := by
  obtain ⟨hunfinished, hfin⟩ := unfinished_of_scan hscan
  have hfin' : fin'.token = .finish := by
    rw [← List.append_assoc] at hscan'
    exact (unfinished_of_scan hscan').2
  have hclosing : Closing s.toList s'.toList fin fin' semicolons :=
    ⟨hstart, hfin, hfin', fun l hl => (hsemicolons l hl).1, fun l hl => (hsemicolons l hl).2⟩
  obtain ⟨rest, hread, hend⟩ := (parse_eq_ok_iff hscan).1 h
  rw [parse_eq_ok_iff hscan', hclosing.statement_iff hunfinished hread hend]

/-- **Semicolons on the next line do not change a statement**, unless it is a table from literal rows that leaves a
parenthesis open: then they are a part of its last item. In an open comment at the end of the text they are a part of
the comment. -/
theorem semicolons_are_passed_over (h : parse s = .ok st) (n : Nat) :
    parse (s ++ "\n" ++ String.ofList (List.replicate n ';')) = .ok st ↔
      n = 0 ∨ EndsInComment s.toList ∨ (st.IsLiteralTable → ∀ ls, scan s.toList = .ok ls → AllClosed ls) := by
  obtain ⟨ls, -, hscan, -⟩ := exists_of_parse h
  have htext : (s ++ "\n" ++ String.ofList (List.replicate n ';')).toList =
      s.toList ++ '\n' :: List.replicate n ';' := by simp
  have hstart : s.toList <+: (s ++ "\n" ++ String.ofList (List.replicate n ';')).toList := ⟨_, htext.symm⟩
  by_cases hcomment : EndsInComment s.toList
  · obtain ⟨tokens, htokens⟩ := hcomment.scan_append
    have hscan₀ := htokens [] Scan.breaks_nil (by simp)
    have hscan₁ := htokens ('\n' :: List.replicate n ';') (Scan.breaks_blank (by decide) _) (by simp)
    rw [List.append_nil] at hscan₀
    rw [← htext] at hscan₁
    have hsame := (parse_iff_of_scan h hscan₀ hscan₁ hstart (List.forall_mem_nil _)).2 fun _ => .inl rfl
    exact iff_of_true hsame (.inr (.inl hcomment))
  · obtain ⟨tokens, rfl, hline⟩ := Scan.scanned_line hscan
    obtain ⟨semicolons, hlength, hsemicolons, hscanned⟩ := Scan.scanned_semicolons n (s.toList ++ ['\n'])
    have hscan' := ((hline.resolve_left hcomment _).append hscanned).scan
    rw [List.append_assoc, List.singleton_append, ← htext, List.append_assoc] at hscan'
    have hafter : ∀ l ∈ semicolons, l.token = .mark .semicolon ∧ byteLength s.toList < l.stop := fun l hl =>
      ⟨(hsemicolons l hl).1, Nat.lt_of_le_of_lt (by simp) (hsemicolons l hl).2⟩
    have hclosed : (∀ ls, scan s.toList = .ok ls → AllClosed ls) ↔ AllClosed tokens := by
      rw [hscan]
      simp only [Except.ok.injEq, forall_eq', allClosed_concat]
    rw [parse_iff_of_scan h hscan hscan' hstart hafter, hclosed, Clear, ← List.length_eq_zero_iff, hlength]
    tauto

/-- Semicolons are passed over after a condition with a parenthesis open, and in an open comment; after `(1 AS a` a
semicolon is a part of the item, which has no name then. -/
theorem semicolon_after_open_parenthesis_is_taken :
    let line := fun (s : String) (n : Nat) => s ++ "\n" ++ String.ofList (List.replicate n ';')
    let kept := "DELETE FROM t WHERE (a = 1 -- ("
    let commented := "CREATE TABLE t AS SELECT (1 AS a /*"
    let taken := "CREATE TABLE t AS SELECT (1 AS a"
    let table := Statement.createAs "t" [[⟨"(1", .text "(1", some "a"⟩]]
    (∀ n, parse (line kept n) = .ok (.delete "t" none)) ∧
    (∀ n, parse (line commented n) = .ok table) ∧
    (∀ n, parse (line taken n) = .ok table ↔ n = 0) ∧
    parse (line taken 1) = .ok (.createAs "t" [[⟨"(1 AS a\n;", .text "(1 AS a\n;", none⟩]]) := by
  intro line kept commented taken table
  have hkept : parse kept = .ok (.delete "t" none) := Except.eq_ok_of_toOption (by decide +kernel)
  have hcommented : parse commented = .ok table := Except.eq_ok_of_toOption (by decide +kernel)
  have hcomment : EndsInComment commented.toList := by
    have hone : parse (line commented 1) = .ok table := Except.eq_ok_of_toOption (by decide +kernel)
    have hdepth : (scan commented.toList).toOption.map (depthFrom 0) = some 1 := by decide +kernel
    have hcases := ((semicolons_are_passed_over hcommented 1).1 hone).resolve_left Nat.one_ne_zero
    refine hcases.resolve_right fun hclosed => ?_
    obtain ⟨ls, -, hscan, -⟩ := exists_of_parse hcommented
    have hopen : depthFrom 0 ls = 1 := by simpa [hscan, Except.toOption] using hdepth
    exact absurd (hopen.symm.trans (hclosed trivial ls hscan)) Nat.one_ne_zero
  have htaken : parse taken = .ok table := Except.eq_ok_of_toOption (by decide +kernel)
  have hone : parse (line taken 1) = .ok (.createAs "t" [[⟨"(1 AS a\n;", .text "(1 AS a\n;", none⟩]]) :=
    Except.eq_ok_of_toOption (by decide +kernel)
  have hother : ¬parse (line taken 1) = .ok table := by
    rw [hone]
    decide +kernel
  rw [semicolons_are_passed_over htaken 1, not_or] at hother
  exact ⟨fun n => (semicolons_are_passed_over hkept n).2 (.inr (.inr fun h => h.elim)),
    fun n => (semicolons_are_passed_over hcommented n).2 (.inr (.inl hcomment)),
    fun n => (semicolons_are_passed_over htaken n).trans (or_iff_left hother.2), hone⟩

end Statement

end TableStore
