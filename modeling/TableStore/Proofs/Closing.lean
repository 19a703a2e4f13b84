import TableStore.Proofs.Continued

/-!
# Tokens before a tail

- an item stops at a token with no parenthesis open, and constraints stop as well, or they take all tokens before the
  tail (`Parse.exists_item`, `Parse.exists_constraints`);
- a reader `Continues` another one when it takes the same from tokens before a tail as the other one takes before the
  end of the text: always if some tokens are left, and if none are, where these tokens are as they should be;
- readers that continue others piece by piece continue them (`Parse.Continues.bind`, `Parse.Continues.after_token`,
  `Parse.Continues.before_token`, `Parse.Continues.branch`), also in lists (`Parse.Continues.commaList`).
-/

namespace TableStore

namespace Parse

variable {α β : Type} {text text' : List Char} {l fin : Lexeme} {ls front tail : List Lexeme} {t : Token}

/-! ## Depths of parentheses -/

/-- The depth of parentheses after tokens. -/
def depthFrom (depth : Nat) (ls : List Lexeme) : Nat := ls.foldl (fun depth l => depthAfter depth l.token) depth

/-- Tokens that leave no parenthesis open. -/
def AllClosed (ls : List Lexeme) : Prop := depthFrom 0 ls = 0

instance (ls : List Lexeme) : Decidable (AllClosed ls) := inferInstanceAs (Decidable (depthFrom 0 ls = 0))

/-- Tokens none of which is the end of a text. -/
def Unfinished (ls : List Lexeme) : Prop := ∀ l ∈ ls, l.token ≠ .finish

/-- Tokens that start with a semicolon or the end of a text. -/
def Closes (tail : List Lexeme) : Prop := ∃ l ls, tail = l :: ls ∧ (l.token = .mark .semicolon ∨ l.token = .finish)

theorem closes_finish (h : fin.token = .finish) : Closes [fin] := ⟨fin, [], rfl, .inr h⟩

theorem allClosed_cons (h : depthAfter 0 l.token = 0) (ls : List Lexeme) : AllClosed (l :: ls) ↔ AllClosed ls := by
  rw [AllClosed, AllClosed, depthFrom, List.foldl_cons, h, depthFrom]

/-- An item stops at a token with no parenthesis open, or it takes all tokens. -/
theorem exists_item (stops : List Token) : ∀ {front : List Lexeme}, Unfinished front → ∀ depth, ∃ taken front',
    front = taken ++ front' ∧
    ((front' ≠ [] ∧ depthFrom depth taken = 0 ∧ ∀ tail, itemLength stops depth (front ++ tail) = taken.length) ∨
      (front' = [] ∧ ∀ tail, itemLength stops depth (front ++ tail) =
        front.length + itemLength stops (depthFrom depth front) tail))
  | [], _, depth => ⟨[], [], rfl, .inr ⟨rfl, fun tail => (Nat.zero_add _).symm⟩⟩
  | l :: front, h, depth => by
    obtain ⟨hl, hfront⟩ := List.forall_mem_cons.1 h
    by_cases hstop : (depth = 0 && stops.contains l.token) = true
    · have hdepth : depth = 0 := of_decide_eq_true (Bool.and_eq_true_iff.1 hstop).1
      refine ⟨[], l :: front, rfl, .inl ⟨List.cons_ne_nil _ _, hdepth, fun tail => ?_⟩⟩
      rw [List.cons_append, itemLength, if_neg hl, if_pos hstop, List.length_nil]
    · have hstep : ∀ tail, itemLength stops depth (l :: front ++ tail) =
          itemLength stops (depthAfter depth l.token) (front ++ tail) + 1 := fun tail => by
        rw [List.cons_append, itemLength, if_neg hl, if_neg hstop]
      obtain ⟨taken, front', rfl, ⟨hne, hdepth, hlength⟩ | ⟨hnil, hlength⟩⟩ :=
        exists_item stops hfront (depthAfter depth l.token)
      · exact ⟨l :: taken, front', rfl, .inl ⟨hne, hdepth, fun tail => by rw [hstep, hlength, List.length_cons]⟩⟩
      · refine ⟨l :: taken, front', rfl, .inr ⟨hnil, fun tail => ?_⟩⟩
        rw [hstep, hlength, List.length_cons, Nat.add_right_comm]
        rfl

theorem depthAfter_of_ne (hopen : t ≠ .mark .openParen) (hclose : t ≠ .mark .closeParen) (depth : Nat) :
    depthAfter depth t = depth := by
  unfold depthAfter
  split
  · exact absurd rfl hopen
  · exact absurd rfl hclose
  · rfl

/-- A token that does not end constraints is passed over. -/
theorem skipConstraints_step {depth : Nat} (hl : l.token ≠ .finish)
    (hstop : ¬(depth = 0 ∧ l.token ∈ [.mark .comma, .mark .closeParen])) (ls : List Lexeme) :
    skipConstraints depth (l :: ls) = skipConstraints (depthAfter depth l.token) ls := by
  conv_lhs => unfold skipConstraints
  split
  case h_1 ht => exact absurd ht hl
  case h_2 ht | h_3 ht => exact absurd ⟨rfl, by simp [ht]⟩ hstop
  case h_4 ht | h_5 ht =>
    rw [ht]
    rfl
  case h_6 hopen _ hzero hsucc =>
    rw [depthAfter_of_ne hopen fun ht => (Nat.eq_zero_or_eq_succ_pred _).elim (hzero ht) (hsucc _ ht)]

/-- Constraints stop at a token, or they take all tokens. -/
theorem exists_constraints : ∀ {front : List Lexeme}, Unfinished front → ∀ depth, ∃ front', front' <:+ front ∧
    ((front' ≠ [] ∧ ∀ tail, skipConstraints depth (front ++ tail) = front' ++ tail) ∨
      (front' = [] ∧ ∀ tail, skipConstraints depth (front ++ tail) = skipConstraints (depthFrom depth front) tail))
  | [], _, depth => ⟨[], List.suffix_rfl, .inr ⟨rfl, fun _ => rfl⟩⟩
  | l :: front, h, depth => by
    obtain ⟨hl, hfront⟩ := List.forall_mem_cons.1 h
    by_cases hstop : depth = 0 ∧ l.token ∈ [.mark .comma, .mark .closeParen]
    · refine ⟨l :: front, List.suffix_rfl, .inl ⟨List.cons_ne_nil _ _, fun tail => ?_⟩⟩
      obtain ⟨rfl, hl⟩ := hstop
      simp only [List.mem_cons, List.not_mem_nil, or_false] at hl
      rcases hl with hl | hl <;> simp only [List.cons_append, skipConstraints, hl]
    · have hstep := skipConstraints_step hl hstop
      obtain ⟨front', hsuffix, hcases⟩ := exists_constraints hfront (depthAfter depth l.token)
      refine ⟨front', hsuffix.trans (List.suffix_cons l front), ?_⟩
      rcases hcases with ⟨hne, hskip⟩ | ⟨hnil, hskip⟩
      · exact .inl ⟨hne, fun tail => (hstep _).trans (hskip tail)⟩
      · exact .inr ⟨hnil, fun tail => (hstep _).trans (hskip tail)⟩

theorem skipConstraints_finish (hfin : fin.token = .finish) (depth : Nat) : skipConstraints depth [fin] = [fin] := by
  cases depth <;> simp only [skipConstraints, hfin]

/-- A condition ends with the tokens before a tail at the latest. -/
theorem whole_condition (htail : Closes tail) : ∀ front : List Lexeme,
    (front ++ tail).takeWhile inCondition = front.takeWhile inCondition ∧
      (front ++ tail).dropWhile inCondition = front.dropWhile inCondition ++ tail
  | [] => by
    obtain ⟨l, ls, rfl, hl⟩ := htail
    have hend : inCondition l = false := by rcases hl with hl | hl <;> rw [inCondition, hl] <;> rfl
    simp [hend]
  | l :: front => by
    obtain ⟨htake, hdrop⟩ := whole_condition htail front
    cases hl : inCondition l <;> simp [hl, htake, hdrop]

/-! ## Readers of tokens that are closed in two ways -/

section

variable {f f' : List Lexeme → Except Error (α × List Lexeme)} {g g' : α × List Lexeme → Except Error (β × List Lexeme)}
  {P : List Lexeme → Prop} {Q : β → List Lexeme → Prop}

/-- What one reader takes from tokens before the end, another one takes from these tokens before a tail: always if it
leaves some of them, and if it takes them all, where these are as they should be. -/
def Continues (fin : Lexeme) (tail : List Lexeme) (Q : α → List Lexeme → Prop)
    (f f' : List Lexeme → Except Error (α × List Lexeme)) : Prop :=
  ∀ front, Unfinished front → ∀ a rest, f (front ++ [fin]) = .ok (a, rest) → ∃ front', front' <:+ front ∧
    rest = front' ++ [fin] ∧ (front' ≠ [] → (Q a front ↔ Q a front')) ∧
    (front' ≠ [] ∨ Q a front → f' (front ++ tail) = .ok (a, front' ++ tail))

/-- A reader of a single token. -/
def TakesOne (f f' : List Lexeme → Except Error (α × List Lexeme)) : Prop :=
  ∀ l ls a rest, f (l :: ls) = .ok (a, rest) → rest = ls ∧ l.token ≠ .finish ∧ depthAfter 0 l.token = 0 ∧
    ∀ ls', f' (l :: ls') = .ok (a, ls')

/-- A reader that goes on in one way after a token, and in another way if it does not come next. -/
structure Branches (t : Token) (f g h : List Lexeme → Except Error (α × List Lexeme)) : Prop where
  taken : ∀ l ls, l.token = t → f (l :: ls) = g ls
  left : ∀ ls, comesNext t ls = false → f ls = h ls

/-- A property of tokens that does not depend on those that leave no parenthesis open. -/
structure Blind (P : List Lexeme → Prop) : Prop where
  cons : ∀ l ls, depthAfter 0 l.token = 0 → (P (l :: ls) ↔ P ls)
  nil : ∀ ls, P ls → P []

theorem blind_true : Blind fun _ => True := ⟨fun _ _ _ => Iff.rfl, fun _ h => h⟩

theorem blind_false : Blind fun _ => False := ⟨fun _ _ _ => Iff.rfl, fun _ h => h⟩

theorem Unfinished.of_suffix {front' : List Lexeme} (h : Unfinished front) (hsuffix : front' <:+ front) :
    Unfinished front' :=
  fun l hl => h l (hsuffix.subset hl)

/-- A token that is not the end or a semicolon comes next only where one is left. -/
theorem comesNext_append (ht : t ≠ .finish) (ht' : t ≠ .mark .semicolon) (htail : Closes tail) (front : List Lexeme) :
    comesNext t (front ++ tail) = comesNext t front := by
  cases front with
  | nil =>
    obtain ⟨l, ls, rfl, hl⟩ := htail
    rcases hl with hl | hl <;> simp only [List.nil_append, comesNext, hl, beq_eq_false_iff_ne] <;> exact Ne.symm ‹_›
  | cons l front => rfl

theorem exists_of_comesNext (h : comesNext t ls = true) : ∃ l ls', ls = l :: ls' ∧ l.token = t := by
  cases ls with
  | nil => cases h
  | cons l ls => exact ⟨l, ls, rfl, eq_of_beq h⟩

theorem TakesOne.continues (hfin : fin.token = .finish) (hf : TakesOne f f') :
    Continues fin tail (fun _ _ => True) f f' := by
  intro front hfront a rest h
  cases front with
  | nil => exact absurd hfin (hf _ _ _ _ h).2.1
  | cons l front =>
    obtain ⟨rfl, -, -, h'⟩ := hf _ _ _ _ h
    exact ⟨front, List.suffix_cons l front, rfl, fun _ => Iff.rfl, fun _ => h' _⟩

theorem Continues.inner {Q : α → List Lexeme → Prop} (hf : Continues fin tail Q f f') :
    Continues fin tail (fun _ _ => False) f f' := by
  intro front hfront a rest h
  obtain ⟨front', hsuffix, hrest, -, h'⟩ := hf front hfront a rest h
  exact ⟨front', hsuffix, hrest, fun _ => Iff.rfl, fun hor => h' (.inl (hor.resolve_right id))⟩

/-- A value is made from what a reader takes. -/
theorem Continues.map {R : α → List Lexeme → Prop} (hf : Continues fin tail R f f')
    (hg : ∀ a ls b rest, g (a, ls) = .ok (b, rest) →
      rest = ls ∧ (∀ ls', g' (a, ls') = .ok (b, ls')) ∧ ∀ ls, Q b ls ↔ R a ls) :
    Continues fin tail Q (fun ls => f ls >>= g) (fun ls => f' ls >>= g') := by
  intro front hfront b rest h
  obtain ⟨⟨a, ls⟩, hread, h⟩ := Except.exists_of_bind h
  obtain ⟨rfl, hg', hQ⟩ := hg a ls b rest h
  obtain ⟨front', hsuffix, hrest, hiff, h'⟩ := hf front hfront a _ hread
  refine ⟨front', hsuffix, hrest, fun hne => ?_, fun hor => ?_⟩
  · rw [hQ, hQ]
    exact hiff hne
  · rw [hQ] at hor
    simp only [h' hor, hg', Bind.bind, Except.bind]

/-- One reader after another. -/
theorem Continues.bind (hP : Blind P) (hf : Continues fin tail (fun _ => P) f f')
    (hg : ∀ a, Continues fin tail (fun _ => P) (fun ls => g (a, ls)) (fun ls => g' (a, ls))) :
    Continues fin tail (fun _ => P) (fun ls => f ls >>= g) (fun ls => f' ls >>= g') := by
  intro front hfront b rest h
  obtain ⟨⟨a, ls⟩, hread, h⟩ := Except.exists_of_bind h
  obtain ⟨front₁, hsuffix₁, rfl, hiff₁, h₁⟩ := hf front hfront a ls hread
  obtain ⟨front₂, hsuffix₂, rfl, hiff₂, h₂⟩ := hg a front₁ (hfront.of_suffix hsuffix₁) b rest h
  have hne : front₂ ≠ [] → front₁ ≠ [] := fun hne hnil => hne (List.suffix_nil.1 (hnil ▸ hsuffix₂))
  refine ⟨front₂, hsuffix₂.trans hsuffix₁, rfl, fun h => (hiff₁ (hne h)).trans (hiff₂ h), fun hor => ?_⟩
  have hlater : front₂ ≠ [] ∨ P front₁ := by
    refine hor.imp_right fun hfront => ?_
    by_cases hnil : front₁ = []
    · exact hnil ▸ hP.nil front hfront
    · exact (hiff₁ hnil).1 hfront
  simp only [h₁ (hor.imp_left hne), Bind.bind, Except.bind]
  exact h₂ hlater

/-- A reader after a token that comes first. -/
theorem TakesOne.bind (hfin : fin.token = .finish) (hf : TakesOne f f')
    (hg : ∀ a, Continues fin tail Q (fun ls => g (a, ls)) (fun ls => g' (a, ls))) (hQ : ∀ b, Blind (Q b)) :
    Continues fin tail Q (fun ls => f ls >>= g) (fun ls => f' ls >>= g') := by
  intro front hfront b rest h
  obtain ⟨⟨a, ls⟩, hread, h⟩ := Except.exists_of_bind h
  cases front with
  | nil => exact absurd hfin (hf _ _ _ _ hread).2.1
  | cons l front =>
    obtain ⟨rfl, -, hdepth, h₁⟩ := hf _ _ _ _ hread
    obtain ⟨front', hsuffix, rfl, hiff, h₂⟩ := hg a front (hfront.of_suffix (List.suffix_cons l front)) b rest h
    have hlater := (hQ b).cons l front hdepth
    refine ⟨front', hsuffix.trans (List.suffix_cons l front), rfl, fun hne => hlater.trans (hiff hne), fun hor => ?_⟩
    rw [List.cons_append]
    simp only [h₁, Bind.bind, Except.bind]
    exact h₂ (hor.imp_right hlater.1)

theorem exists_of_expect (hfin : fin.token = .finish) (ht : t ≠ .finish) {rest : List Lexeme}
    (h : expect text t (front ++ [fin]) = .ok rest) :
    ∃ l front', front = l :: front' ∧ l.token = t ∧ rest = front' ++ [fin] := by
  cases front with
  | nil =>
    rw [List.nil_append, expect, if_neg (hfin ▸ ht.symm), unexpected, if_pos hfin] at h
    cases h
  | cons l front =>
    rw [List.cons_append, expect] at h
    split at h
    · cases h
      exact ⟨l, front, rfl, ‹_›, rfl⟩
    · cases unexpected_ne_ok h

theorem expect_of_token (text : List Char) (hl : l.token = t) (ls : List Lexeme) : expect text t (l :: ls) = .ok ls :=
  if_pos hl

/-- A reader after a certain token. -/
theorem Continues.after_token (hfin : fin.token = .finish) (ht : t ≠ .finish) {Q : α → List Lexeme → Prop}
    (hf : Continues fin tail Q f f') (hQ : ∀ a l ls, l.token = t → (Q a (l :: ls) ↔ Q a ls)) :
    Continues fin tail Q (fun ls => do let ls ← expect text t ls; f ls)
      (fun ls => do let ls ← expect text' t ls; f' ls) := by
  intro front hfront a rest h
  obtain ⟨ls, htoken, h⟩ := Except.exists_of_bind h
  obtain ⟨l, front, rfl, hl, rfl⟩ := exists_of_expect hfin ht htoken
  obtain ⟨front', hsuffix, rfl, hiff, h'⟩ := hf front (hfront.of_suffix (List.suffix_cons l front)) a rest h
  refine ⟨front', hsuffix.trans (List.suffix_cons l front), rfl, fun hne => (hQ a l front hl).trans (hiff hne),
    fun hor => ?_⟩
  rw [List.cons_append]
  simp only [expect_of_token text' hl, Bind.bind, Except.bind]
  exact h' (hor.imp_right (hQ a l front hl).1)

/-- A token that has to come after what a reader takes shows that it leaves some. -/
theorem Continues.before_token (hfin : fin.token = .finish) (ht : t ≠ .finish) {R : α → List Lexeme → Prop}
    {k k' : α → List Lexeme → Except Error (β × List Lexeme)} (hf : Continues fin tail R f f')
    (hg : ∀ a ls, g (a, ls) = expect text t ls >>= k a) (hg' : ∀ a ls, g' (a, ls) = expect text' t ls >>= k' a)
    (hk : ∀ a, Continues fin tail (fun _ _ => True) (k a) (k' a)) :
    Continues fin tail (fun _ _ => True) (fun ls => f ls >>= g) (fun ls => f' ls >>= g') := by
  intro front hfront b rest h
  obtain ⟨⟨a, ls⟩, hread, h⟩ := Except.exists_of_bind h
  rw [hg] at h
  obtain ⟨ls, htoken, h⟩ := Except.exists_of_bind h
  obtain ⟨front₁, hsuffix₁, rfl, -, h₁⟩ := hf front hfront a _ hread
  obtain ⟨l, front₁, rfl, hl, rfl⟩ := exists_of_expect hfin ht htoken
  have hsuffix : front₁ <:+ front := (List.suffix_cons l front₁).trans hsuffix₁
  obtain ⟨front₂, hsuffix₂, rfl, -, h₂⟩ := hk a front₁ (hfront.of_suffix hsuffix) b rest h
  refine ⟨front₂, hsuffix₂.trans hsuffix, rfl, fun _ => Iff.rfl, fun _ => ?_⟩
  simp only [h₁ (.inl (List.cons_ne_nil l front₁)), List.cons_append, hg', expect_of_token text' hl, Bind.bind,
    Except.bind]
  exact h₂ (.inr trivial)

/-- A reader that branches. -/
theorem Continues.branch (htail : Closes tail) (hfin : fin.token = .finish) (ht : t ≠ .finish)
    (ht' : t ≠ .mark .semicolon) {F F' h h' : List Lexeme → Except Error (α × List Lexeme)}
    {Q : α → List Lexeme → Prop} (hF : Branches t F f h) (hF' : Branches t F' f' h') (hf : Continues fin tail Q f f')
    (hh : Continues fin tail Q h h') (hQ : ∀ a l ls, l.token = t → (Q a (l :: ls) ↔ Q a ls)) :
    Continues fin tail Q F F' := by
  intro front hfront a rest hread
  by_cases hnext : comesNext t front = true
  · obtain ⟨l, front, rfl, hl⟩ := exists_of_comesNext hnext
    rw [List.cons_append, hF.taken l _ hl] at hread
    obtain ⟨front', hsuffix, rfl, hiff, hcont⟩ := hf front (hfront.of_suffix (List.suffix_cons l front)) a rest hread
    refine ⟨front', hsuffix.trans (List.suffix_cons l front), rfl, fun hne => (hQ a l front hl).trans (hiff hne),
      fun hor => ?_⟩
    rw [List.cons_append, hF'.taken l _ hl]
    exact hcont (hor.imp_right (hQ a l front hl).1)
  · rw [Bool.not_eq_true] at hnext
    have hleft : ∀ {tail}, Closes tail → comesNext t (front ++ tail) = false := fun htail => by
      rw [comesNext_append ht ht' htail, hnext]
    rw [hF.left _ (hleft (closes_finish hfin))] at hread
    rw [hF'.left _ (hleft htail)]
    exact hh front hfront a rest hread

/-- A reader that takes nothing. -/
theorem continues_ok (a : α) (Q : α → List Lexeme → Prop) :
    Continues fin tail Q (fun ls => .ok (a, ls)) (fun ls => .ok (a, ls)) := by
  intro front hfront b rest h
  cases h
  exact ⟨front, List.suffix_rfl, rfl, fun _ => Iff.rfl, fun _ => rfl⟩

/-! ### Lists -/

/-- A reader of the rest of a list: there is another part after a token, and the list ends if it does not come next. -/
def Chains (t : Token) (later : List Lexeme → Except Error (List α × List Lexeme))
    (f : α × List Lexeme → Except Error (List α × List Lexeme)) : Prop :=
  ∀ a, Branches t (fun ls => f (a, ls)) (fun ls => do let (as, ls) ← later ls; .ok (a :: as, ls))
    (fun ls => .ok ([a], ls))

variable {later later' : List Lexeme → Except Error (List α × List Lexeme)}
  {F F' : α × List Lexeme → Except Error (List α × List Lexeme)}

theorem Continues.chain (htail : Closes tail) (hfin : fin.token = .finish) (ht : t ∈ [.mark .comma, .keyword .union])
    (hP : Blind P) (hF : Chains t later F) (hF' : Chains t later' F') (hf : Continues fin tail (fun _ => P) f f')
    (hlater : Continues fin tail (fun _ => P) later later') :
    Continues fin tail (fun _ => P) (fun ls => f ls >>= F) (fun ls => f' ls >>= F') := by
  have hplain : ∀ t ∈ [Token.mark .comma, .keyword .union], t ≠ .finish ∧ t ≠ .mark .semicolon ∧ depthAfter 0 t = 0 :=
    by decide
  obtain ⟨hfinish, hsemicolon, hdepth⟩ := hplain t ht
  refine hf.bind hP fun a => Continues.branch htail hfin hfinish hsemicolon (hF a) (hF' a) ?_ (continues_ok [a] _)
    fun _ l ls hl => hP.cons l ls (hl ▸ hdepth)
  exact hlater.bind hP fun as => continues_ok (a :: as) _

theorem chains_separated (item : List Lexeme → Except Error (α × List Lexeme)) (n : Nat) :
    Chains (.mark .comma) (separated item n) fun (a, ls) =>
      match ls with
      | ⟨.mark .comma, _, _⟩ :: ls => do
        let (as, ls) ← separated item n ls
        .ok (a :: as, ls)
      | ls => .ok ([a], ls) := by
  refine fun a => ⟨?_, fun ls h => ?_⟩
  · rintro ⟨_, _, _⟩ ls rfl
    rfl
  · dsimp only
    split
    · cases h
    · rfl

theorem Continues.separated (htail : Closes tail) (hfin : fin.token = .finish) (hP : Blind P)
    (hf : Continues fin tail (fun _ => P) f f') : ∀ {n m : Nat}, n ≤ m →
      Continues fin tail (fun _ => P) (Parse.separated f n) (Parse.separated f' m)
  | 0, _, _ => fun _ _ _ _ h => nomatch h
  | n + 1, m + 1, h => Continues.chain htail hfin (by simp) hP (chains_separated f n) (chains_separated f' m) hf
      (Continues.separated htail hfin hP hf (Nat.le_of_succ_le_succ h))

theorem Continues.commaList (htail : Closes tail) (hfin : fin.token = .finish) (hP : Blind P)
    (hf : Continues fin tail (fun _ => P) f f') :
    Continues fin tail (fun _ => P) (Parse.commaList f) (Parse.commaList f') := by
  intro front hfront as rest h
  refine hf.separated htail hfin hP ?_ front hfront as rest h
  obtain ⟨l, ls, rfl, -⟩ := htail
  simp

end

end Parse

end TableStore
