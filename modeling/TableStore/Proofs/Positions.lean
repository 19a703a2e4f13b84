import TableStore.Proofs.Cursor
import TableStore.Proofs.Spans

/-!
# Positions and the tokens that are left

- the tokens of a scanned text have slices between them, and only the last one is the end (`Source.Sound`);
- a reader with a position agrees with a reader of tokens if it does not slip and the other one has the same answer or
  the same error (`Agree`); readers that agree step by step agree (`Agree.bind`);
- `At` says which tokens are left at a position; as none of them but the last is the end, a reader that takes another
  one stays at a token (`At.next`);
- so the readers of single tokens and of lists with commas follow those of tokens (`Follows`).
-/

namespace TableStore

open Text

/-! ## Slices -/

/-- A text has a slice between any two of its characters. -/
theorem exists_slice {text : List Char} {a b : Nat} (ha : IsBoundary text a) (hb : IsBoundary text b) (hab : a ≤ b) :
    ∃ cs, slice? text a b = some cs := by
  obtain ⟨front, rest, htext, rfl⟩ := ha
  obtain ⟨front', rest', htext', rfl⟩ := hb
  rcases List.prefix_or_prefix_of_prefix ⟨rest, htext.symm⟩ ⟨rest', htext'.symm⟩ with ⟨cs, hcs⟩ | ⟨cs, hcs⟩
  · refine ⟨cs, ?_⟩
    rw [htext', ← hcs, List.append_assoc, byteLength_append, slice?_middle]
  · have hnil : cs = [] := by
      by_contra hne
      have hpos := byteLength_pos hne
      rw [← hcs, byteLength_append] at hab
      omega
    subst hnil
    rw [List.append_nil] at hcs
    subst hcs
    refine ⟨[], ?_⟩
    have hslice := slice?_middle front' [] rest'
    rw [htext']
    simpa using hslice

namespace Source

/-- A text with tokens that a reader with a position can rely on. -/
structure Sound (s : Source) : Prop where
  /-- There is a token. -/
  nonempty : 0 < s.tokens.length
  /-- The last token and no other is the end of the text. -/
  finish : ∀ {i : Nat} {l : Lexeme}, s.tokens[i]? = some l → (l.token = .finish ↔ i + 1 = s.tokens.length)
  /-- From the start of a token to the end of one that does not come before it there is a slice. -/
  slices : ∀ {i j : Nat} {l m : Lexeme}, i ≤ j → s.tokens[i]? = some l → s.tokens[j]? = some m →
    ∃ cs, slice? s.text l.start m.stop = some cs

theorem sound_of_spans {text : List Char} {tokens : List Lexeme} (h : Spans text tokens) : Sound ⟨text, tokens⟩ := by
  have hbounds : ∀ l ∈ tokens, l.start ≤ l.stop := by
    intro l hl
    by_cases hfinish : l.token = .finish
    · obtain ⟨front, hfront, hothers⟩ := h.finish
      rw [hfront] at hl
      rcases List.mem_append.1 hl with hl | hl
      · exact absurd hfinish (hothers l hl)
      · obtain rfl := List.mem_singleton.1 hl
        exact Nat.le_refl _
    · exact Nat.le_of_lt (h.nonempty l hl hfinish)
  refine ⟨?_, ?_, ?_⟩
  · obtain ⟨front, rfl, -⟩ := h.finish
    simp
  · intro i l hi
    obtain ⟨front, rfl, hothers⟩ := h.finish
    simp only at hi ⊢
    rcases Nat.lt_or_ge i front.length with hlt | hge
    · rw [List.getElem?_append_left hlt] at hi
      have hne := hothers l (List.mem_of_getElem? hi)
      simp only [hne, false_iff, List.length_append, List.length_singleton]
      omega
    · rw [List.getElem?_append_right hge, List.getElem?_singleton] at hi
      split at hi <;> cases hi
      simp only [true_iff, List.length_append, List.length_singleton]
      omega
  · intro i j l m hij hi hj
    have hl := List.mem_of_getElem? hi
    have hm := List.mem_of_getElem? hj
    refine exists_slice (h.boundary l hl).1 (h.boundary m hm).2 ?_
    rcases Nat.lt_or_eq_of_le hij with hlt | rfl
    · obtain ⟨hi', rfl⟩ := List.getElem?_eq_some_iff.1 hi
      obtain ⟨hj', rfl⟩ := List.getElem?_eq_some_iff.1 hj
      have horder := List.pairwise_iff_getElem.1 h.ordered i j hi' hj' hlt
      exact Nat.le_trans (Nat.le_of_lt horder.1) (hbounds _ hm)
    · rw [hi] at hj
      cases hj
      exact hbounds l hl

end Source

namespace Cursor

variable {α β γ δ : Type}

/-! ## Readers that agree -/

/-- A reader with a position agrees with one of tokens: it never slips, refuses what the other refuses with the same
error, which is one of syntax, and else the results are related. -/
def Agree (R : α → Nat → β → Prop) : Except Stop (α × Nat) → Except Error β → Prop
  | .ok (a, q), .ok b => R a q b
  | .error (.refused e), .error e' => e = e' ∧ e.InText
  | _, _ => False

/-- **Readers that agree step by step agree.** -/
theorem Agree.bind {R : α → Nat → γ → Prop} {R' : β → Nat → δ → Prop} {x : Reader α} {f : α → Reader β} {p : Nat}
    {y : Except Error γ} {g : γ → Except Error δ} (hx : Agree R (x p) y)
    (hf : ∀ a q c, R a q c → Agree R' (f a q) (g c)) : Agree R' ((x >>= f) p) (y >>= g) := by
  change Agree R' ((x p).bind fun r => f r.1 r.2) (y.bind g)
  cases hxp : x p with
  | error stop =>
    cases stop with
    | slip =>
      rw [hxp] at hx
      exact hx.elim
    | refused e =>
      rw [hxp] at hx
      cases y with
      | ok => exact hx.elim
      | error => exact hx
  | ok r =>
    rw [hxp] at hx
    cases y with
    | ok c => exact hf _ _ _ hx
    | error => exact hx.elim

theorem Agree.imp {R R' : α → Nat → β → Prop} {x : Except Stop (α × Nat)} {y : Except Error β} (h : Agree R x y)
    (hR : ∀ a q b, R a q b → R' a q b) : Agree R' x y := by
  unfold Agree at h ⊢
  split at h
  · exact hR _ _ _ h
  · exact h
  · exact h.elim

variable {p q k : Nat} {x : Reader α} {a : α} {f : α → Reader β}

/-- A step without a slip is passed over. -/
theorem bind_of_ok (h : x p = .ok (a, q)) : (x >>= f) p = f a q := by
  change (x p).bind (fun r => f r.1 r.2) = _
  rw [h]
  rfl

@[simp] theorem bind_position (f : Nat → Reader β) (p : Nat) : (position >>= f) p = f p p := rfl

variable {s : Source}

@[simp] theorem bind_current (f : Token → Reader β) (p : Nat) : (current s >>= f) p = f (tokenAt s p) p := rfl

@[simp] theorem bind_peek (f : Token → Reader β) (p : Nat) : (peek s >>= f) p = f (tokenAt s (p + 1)) p := rfl

@[simp] theorem bind_check (t : Token) (f : Bool → Reader β) (p : Nat) :
    (check s t >>= f) p = f (tokenAt s p == t) p := rfl

@[simp] theorem pure_apply (a : α) (p : Nat) : (pure a : Reader α) p = .ok (a, p) := rfl

theorem minus_eq {a b : Nat} (h : b ≤ a) (p : Nat) : minus a b p = .ok (a - b, p) := by
  rw [minus, if_pos h]
  rfl

theorem lexeme_eq {i : Nat} {l : Lexeme} (h : s.tokens[i]? = some l) (p : Nat) : lexeme s i p = .ok (l, p) := by
  rw [lexeme, h]
  rfl

/-! ## Positions -/

/-- Some tokens are those that are left at a position. -/
structure At (s : Source) (p : Nat) (ls : List Lexeme) : Prop where
  lt : p < s.tokens.length
  eq : ls = s.tokens.drop p

variable {l : Lexeme} {ls rest : List Lexeme} {t : Token}

theorem At.exists (h : At s p ls) : ∃ l ls', ls = l :: ls' := by
  rw [h.eq, List.drop_eq_getElem_cons h.lt]
  exact ⟨_, _, rfl⟩

theorem At.getElem? (h : At s p (l :: ls)) : s.tokens[p]? = some l := by
  have hhead := congrArg List.head? h.eq
  rwa [List.head?_drop, List.head?_cons, eq_comm] at hhead

theorem At.tail (h : At s p (l :: ls)) : ls = s.tokens.drop (p + 1) := by
  have htail := congrArg List.tail h.eq
  rwa [List.tail_drop, List.tail_cons] at htail

theorem At.length (h : At s p ls) : ls.length = s.tokens.length - p := by
  rw [h.eq, List.length_drop]

theorem At.length_pos (h : At s p ls) : 0 < ls.length := by
  rw [h.length]
  exact Nat.sub_pos_of_lt h.lt

@[simp] theorem At.tokenAt (h : At s p (l :: ls)) : tokenAt s p = l.token := by
  rw [Cursor.tokenAt, h.getElem?]
  rfl

/-- What comes next is told by the position. -/
theorem At.tokenAt_ne (h : At s p ls) (hne : ∀ start stop rest, ls = ⟨t, start, stop⟩ :: rest → False) :
    Cursor.tokenAt s p ≠ t := by
  obtain ⟨⟨t', start, stop⟩, ls, rfl⟩ := h.exists
  rw [h.tokenAt]
  rintro rfl
  exact hne start stop ls rfl

theorem At.next (hs : s.Sound) (h : At s p (l :: ls)) (hl : l.token ≠ .finish) : At s (p + 1) ls := by
  have hlast := mt (hs.finish h.getElem?).2 hl
  have hlt := h.lt
  exact ⟨by omega, h.tail⟩

theorem moveTo_eq (hq : q < s.tokens.length) (p : Nat) : moveTo s q p = .ok ((), q) := by
  rw [moveTo, if_pos hq]

theorem progress_eq {start : Nat} (h : start < p) : progress start p = .ok ((), p) := by
  rw [progress, if_pos h]

theorem At.advance (h : At s (p + 1) ls) : advance s p = .ok ((), p + 1) := moveTo_eq h.lt p

/-- Where a token may be left out, it is passed over if it comes next. -/
theorem At.bind_take {start stop : Nat} (h : At s p (⟨t, start, stop⟩ :: ls)) (hnext : At s (p + 1) ls)
    (x y : Reader β) :
    (do if ← check s t then do Cursor.advance s; x else y : Reader β) p = x (p + 1) := by
  rw [bind_check, h.tokenAt, beq_self_eq_true, if_pos rfl, bind_of_ok hnext.advance]

/-- Where a token may be left out, nothing is taken if another one comes next. -/
theorem At.bind_leave (h : At s p ls) (hne : ∀ start stop rest, ls = ⟨t, start, stop⟩ :: rest → False)
    (x y : Reader β) : (do if ← check s t then x else y : Reader β) p = y p := by
  rw [bind_check, beq_false_of_ne (h.tokenAt_ne hne), if_neg Bool.false_ne_true]

/-! ## Slices of tokens -/

/-- **The text of some tokens is there**, and it is the text that the reader of tokens takes. -/
theorem source_eq (hs : s.Sound) {start stop : Nat} (hlt : start < stop) (hstop : stop ≤ s.tokens.length) :
    ∃ cs, (∀ p, source s start stop p = .ok (cs, p)) ∧
      Parse.source s.text ((s.tokens.drop start).take (stop - start)) = .ok cs := by
  have hfirst : s.tokens[start]? = some s.tokens[start] := List.getElem?_eq_getElem (by omega)
  have hlast : s.tokens[stop - 1]? = some s.tokens[stop - 1] := List.getElem?_eq_getElem (by omega)
  obtain ⟨cs, hcs⟩ := hs.slices (show start ≤ stop - 1 by omega) hfirst hlast
  refine ⟨cs, fun p => ?_, ?_⟩
  · rw [source, if_neg (by omega), bind_of_ok (lexeme_eq hfirst p), bind_of_ok (minus_eq (by omega) p),
      bind_of_ok (lexeme_eq hlast p), slice, hcs]
    rfl
  · obtain ⟨n, hn⟩ : ∃ n, stop - start = n + 1 := ⟨stop - start - 1, by omega⟩
    have hend : ((s.tokens.drop (start + 1)).take n).getLastD s.tokens[start] = s.tokens[stop - 1] := by
      rcases Nat.eq_zero_or_pos n with rfl | hpos
      · simp only [List.take_zero, List.getLastD_nil]
        congr 1
        omega
      · rw [List.getLastD_eq_getLast?, List.getLast?_take, if_neg (by omega), List.getElem?_drop]
        rw [show start + 1 + (n - 1) = stop - 1 by omega, hlast]
        rfl
    rw [List.drop_eq_getElem_cons (by omega), hn, List.take_succ_cons, Parse.source, hend, hcs]

/-- The text of tokens up to an index is there, also where there are none of them. -/
theorem exists_source (hs : s.Sound) (start : Nat) {stop : Nat} (hstop : stop ≤ s.tokens.length) :
    ∃ cs, ∀ p, source s start stop p = .ok (cs, p) := by
  rcases Nat.lt_or_ge start stop with hlt | hge
  · obtain ⟨cs, hcs, -⟩ := source_eq hs hlt hstop
    exact ⟨cs, hcs⟩
  · refine ⟨[], fun p => ?_⟩
    rw [source, if_pos hge, pure_apply]

theorem inText_unexpectedEnd (e : Expectation) : (Error.unexpectedEnd e).InText := ⟨rfl, fun _ h => nomatch h⟩

theorem inText_unexpectedToken (e : Expectation) (found : String) : (Error.unexpectedToken e found).InText :=
  ⟨rfl, fun _ h => nomatch h⟩

theorem inText_unsupportedCommand (found : String) : (Error.unsupportedCommand found).InText :=
  ⟨rfl, fun _ h => nomatch h⟩

/-- The text of a single token is there. -/
theorem At.fragment (hs : s.Sound) (h : At s p (l :: ls)) :
    ∃ cs, fragment s p p = .ok (cs, p) ∧ Parse.source s.text [l] = .ok cs := by
  obtain ⟨cs, hsource, hcs⟩ := source_eq hs (Nat.lt_add_one p) h.lt
  rw [← h.eq, Nat.add_sub_cancel_left, List.take_succ_cons, List.take_zero] at hcs
  exact ⟨cs, hsource p, hcs⟩

/-- A token that is not due is refused. -/
theorem At.unexpected (hs : s.Sound) (h : At s p (l :: ls)) (e : Expectation) (R : α → Nat → β → Prop) :
    Agree R (unexpected s e p) (Parse.unexpected s.text e l) := by
  simp only [Cursor.unexpected, Parse.unexpected, bind_current, h.tokenAt]
  split
  · exact ⟨rfl, inText_unexpectedEnd e⟩
  · obtain ⟨cs, hfragment, hcs⟩ := h.fragment hs
    rw [bind_position, bind_of_ok hfragment, hcs]
    exact ⟨rfl, inText_unexpectedToken e _⟩

/-! ## Readers of single tokens -/

/-- What a reader with a position has taken: the same value, at least up to a position, with the same tokens left. -/
def Taken (s : Source) (n : Nat) (a : α) (q : Nat) (r : α × List Lexeme) : Prop := a = r.1 ∧ n ≤ q ∧ At s q r.2

/-- A reader with a position follows a reader of tokens: it agrees with it wherever it starts, and takes at least some
number of tokens. -/
def Follows (s : Source) (k : Nat) (x : Reader α) (y : List Lexeme → Except Error (α × List Lexeme)) : Prop :=
  ∀ p ls, At s p ls → Agree (Taken s (p + k)) (x p) (y ls)

/-- After a token that is not the end the reader goes on. -/
theorem agree_advance (hs : s.Sound) (h : At s p (l :: ls)) (hl : l.token ≠ .finish) (a : α) :
    Agree (Taken s (p + 1)) ((do advance s; return a : Reader α) p) (.ok (a, ls)) := by
  have hnext := h.next hs hl
  rw [bind_of_ok hnext.advance]
  exact ⟨rfl, Nat.le_refl _, hnext⟩

theorem agree_expect (hs : s.Sound) (h : At s p ls) (ht : t ≠ .finish) :
    Agree (fun _ q rest => p + 1 ≤ q ∧ At s q rest) (expect s t p) (Parse.expect s.text t ls) := by
  obtain ⟨l, ls, rfl⟩ := h.exists
  simp only [expect, Parse.expect, bind_check, h.tokenAt, beq_iff_eq]
  split
  · rename_i hl
    have hnext := h.next hs (by rw [hl]; exact ht)
    rw [hnext.advance]
    exact ⟨Nat.le_refl _, hnext⟩
  · exact h.unexpected hs (.token t) _

/-- A token that comes next is taken. -/
theorem At.expect {start stop : Nat} (hs : s.Sound) (h : At s p (⟨t, start, stop⟩ :: ls)) (ht : t ≠ .finish) :
    expect s t p = .ok ((), p + 1) ∧ At s (p + 1) ls := by
  have hnext := h.next hs ht
  refine ⟨?_, hnext⟩
  rw [Cursor.expect, bind_check, h.tokenAt, beq_self_eq_true, if_pos rfl, hnext.advance]

theorem follows_name (hs : s.Sound) : Follows s 1 (name s) (Parse.name s.text) := by
  intro p ls h
  obtain ⟨l, ls, rfl⟩ := h.exists
  simp only [name, Parse.name, bind_current, h.tokenAt]
  cases hn : l.token.name? with
  | some n => exact agree_advance hs h (fun he => by rw [he] at hn; cases hn) n
  | none => exact h.unexpected hs .name _

theorem follows_columnName (hs : s.Sound) : Follows s 1 (columnName s) (Parse.columnName s.text) := by
  intro p ls h
  have hname := follows_name hs p ls h
  obtain ⟨⟨t, start, stop⟩, ls, rfl⟩ := h.exists
  simp only [columnName, bind_current, h.tokenAt]
  cases t with
  | string n => exact agree_advance hs h (by simp) n
  | _ => exact hname

theorem follows_count (hs : s.Sound) : Follows s 1 (count s) (Parse.count s.text) := by
  intro p ls h
  obtain ⟨⟨t, start, stop⟩, ls, rfl⟩ := h.exists
  simp only [count, Parse.count, bind_current, h.tokenAt]
  cases t with
  | number n =>
    cases hn : ColumnType.readCount? n.toList with
    | some k =>
      simp only [hn]
      exact agree_advance hs h (by simp) k
    | none =>
      simp only [hn]
      exact h.unexpected hs .count _
  | _ => exact h.unexpected hs .count _

theorem follows_typeName (hs : s.Sound) : Follows s 1 (typeName s) (Parse.typeName s.text) := by
  intro p ls h
  obtain ⟨⟨t, start, stop⟩, ls, rfl⟩ := h.exists
  simp only [typeName, Parse.typeName, bind_current, h.tokenAt]
  cases t with
  | name n | quoted n | string n => exact agree_advance hs h (by simp) n
  | _ => exact h.unexpected hs .columnType _

/-! ## Lists -/

/-- **Lists with commas are followed**, and every round takes a token. -/
theorem agree_separated {y : List Lexeme → Except Error (α × List Lexeme)} (hs : s.Sound) (hx : Follows s 1 x y)
    (fuel : Nat) : ∀ p ls, At s p ls → ls.length ≤ fuel →
      Agree (Taken s (p + 1)) (separated s x fuel p) (Parse.separated y fuel ls) := by
  induction fuel with
  | zero =>
    intro p ls h hfuel
    exact absurd h.length_pos (Nat.not_lt.2 hfuel)
  | succ fuel ih =>
    intro p ls h hfuel
    simp only [separated, Parse.separated, bind_position]
    refine (hx p ls h).bind ?_
    rintro a q ⟨_, ls'⟩ ⟨rfl, hq, h'⟩
    dsimp only at hq h' ⊢
    split
    · rename_i start stop ls''
      have hnext := h'.next hs (by simp)
      have hlength := hnext.length
      have hlength' := h.length
      rw [h'.bind_take hnext, bind_of_ok (progress_eq (show p < q + 1 by omega))]
      refine (ih _ _ hnext (by omega)).bind ?_
      rintro as q' ⟨_, rest⟩ ⟨rfl, hq', hrest⟩
      exact ⟨rfl, by omega, hrest⟩
    · rename_i hne
      rw [h'.bind_leave hne]
      exact ⟨rfl, hq, h'⟩

theorem follows_commaList {y : List Lexeme → Except Error (α × List Lexeme)} (hs : s.Sound) (hx : Follows s 1 x y) :
    Follows s 1 (commaList s x) (Parse.commaList y) := by
  intro p ls h
  rw [commaList, bind_position, ← h.length]
  exact agree_separated hs hx ls.length p ls h (Nat.le_refl _)

/-- Tokens with a property are passed over, one in each round, as long as they are not the end. -/
theorem skipWhile_eq {f : Token → Bool} (hs : s.Sound) (hf : f .finish = false) (fuel : Nat) : ∀ p ls, At s p ls →
    ls.length ≤ fuel → ∃ q, skipWhile s f fuel p = .ok ((), q) ∧ p ≤ q ∧ At s q (ls.dropWhile fun l => f l.token) ∧
      ls.takeWhile (fun l => f l.token) = (s.tokens.drop p).take (q - p) := by
  induction fuel with
  | zero =>
    intro p ls h hfuel
    exact absurd h.length_pos (Nat.not_lt.2 hfuel)
  | succ fuel ih =>
    intro p ls h hfuel
    have hls := h.eq
    obtain ⟨l, ls, rfl⟩ := h.exists
    rw [skipWhile, bind_current, h.tokenAt]
    cases hl : f l.token with
    | true =>
      have hnext := h.next hs fun he => by
        rw [he, hf] at hl
        cases hl
      obtain ⟨q, hskip, hq, hrest, htake⟩ := ih _ _ hnext (Nat.le_of_succ_le_succ hfuel)
      refine ⟨q, ?_, Nat.le_of_succ_le hq, ?_, ?_⟩
      · rw [if_pos rfl, bind_of_ok hnext.advance, hskip]
      · simpa only [List.dropWhile_cons, hl, if_true] using hrest
      · obtain ⟨n, hn⟩ : ∃ n, q - p = n + 1 := ⟨q - p - 1, by omega⟩
        simp only [List.takeWhile_cons, hl, if_true]
        rw [← hls, hn, List.take_succ_cons, htake, hnext.eq, show q - (p + 1) = n by omega]
    | false =>
      refine ⟨p, rfl, Nat.le_refl p, ?_, ?_⟩
      · simpa only [List.dropWhile_cons, hl, Bool.false_eq_true, if_false] using h
      · simp only [List.takeWhile_cons, hl, Bool.false_eq_true, if_false, Nat.sub_self, List.take_zero]

end Cursor

end TableStore
