import TableStore.Proofs.Reprinting
import TableStore.Proofs.Scanning

/-!
# Statements that are cut

- of the pieces of an insertion only quoted texts can have line feeds; where one of these is cut, its quotes are open
  (`Text.exists_double`), and what is left is not scanned (`Piece.Brittle`);
- so no text is read that an insertion has up to a line feed (`Statement.parse_cut`).
-/

namespace TableStore

/-! ## Open quotes -/

namespace Text

variable {q c : Char} {s cs ds : List Char}

/-- No quote closes a text in which all quotes are doubled. -/
theorem readQuoted_double_eq_none (q : Char) : ∀ s : List Char, readQuoted q (double q s) = none
  | [] => rfl
  | c :: s => by
    have ih := readQuoted_double_eq_none q s
    by_cases hc : c = q
    · subst hc
      rw [double, if_pos rfl, readQuoted, if_pos rfl, if_pos rfl, ih]
      rfl
    · rw [double, if_neg hc]
      cases hd : double q s with
      | nil => rw [readQuoted, if_neg hc]
      | cons d ds =>
        rw [hd] at ih
        rw [readQuoted, if_neg hc, ih]
        rfl

/-! ### Blanks at the end -/

theorem trimEnd_cons (c : Char) (cs : List Char) :
    trimEnd (c :: cs) = if isBlank c ∧ trimEnd cs = [] then [] else c :: trimEnd cs := by
  rw [trimEnd]
  cases trimEnd cs with
  | nil => simp
  | cons d ds => simp

/-- The blanks at the end of a text are not its quotes. -/
theorem trimEnd_double (hq : isBlank q = false) : ∀ s : List Char, trimEnd (double q s) = double q (trimEnd s)
  | [] => rfl
  | c :: s => by
    have ih := trimEnd_double hq s
    have hnil : double q (trimEnd s) = [] ↔ trimEnd s = [] := by
      cases trimEnd s with
      | nil => exact Iff.rfl
      | cons d ds =>
        rw [double]
        split <;> simp
    by_cases hc : c = q
    · subst hc
      simp [double, trimEnd_cons, hq, ih]
    · rw [double, if_neg hc, trimEnd_cons, trimEnd_cons, ih]
      simp only [hnil]
      split
      · rfl
      · rw [double, if_neg hc]

theorem trimEnd_append (h : trimEnd ds ≠ []) : ∀ cs : List Char, trimEnd (cs ++ ds) = cs ++ trimEnd ds
  | [] => rfl
  | c :: cs => by
    have hne : cs ++ trimEnd ds ≠ [] := fun he => h (List.append_eq_nil_iff.1 he).2
    rw [List.cons_append, trimEnd_cons, trimEnd_append h cs, if_neg fun he => hne he.2]
    rfl

theorem head?_trimEnd (h : trimEnd cs ≠ []) : (trimEnd cs).head? = cs.head? := by
  cases cs with
  | nil => rfl
  | cons c cs =>
    rw [trimEnd_cons] at h ⊢
    split at h
    · exact absurd rfl h
    · rename_i hne
      rw [if_neg hne]
      rfl

/-- Up to a line feed, a text between quotes has only doubled quotes after the first. -/
theorem exists_double (hq : q ≠ '\n') : ∀ {s front back : List Char}, double q s ++ [q] = front ++ '\n' :: back →
    ∃ s', front = double q s'
  | [], front, back, h => by
    cases front with
    | nil => exact ⟨[], rfl⟩
    | cons c front => simp [double] at h
  | c :: s, front, back, h => by
    by_cases hc : c = q
    · rw [double, if_pos hc] at h
      rcases front with _ | ⟨c₁, _ | ⟨c₂, front⟩⟩
      · exact absurd (List.cons.inj h).1 hq
      · exact absurd (List.cons.inj (List.cons.inj h).2).1 hq
      · obtain ⟨hc₁, h⟩ := List.cons.inj h
        obtain ⟨hc₂, h⟩ := List.cons.inj h
        obtain ⟨s', hs'⟩ := exists_double hq h
        exact ⟨c :: s', by rw [double, if_pos hc, ← hc₁, ← hc₂, hs']⟩
    · rw [double, if_neg hc] at h
      cases front with
      | nil => exact ⟨[], rfl⟩
      | cons c₁ front =>
        obtain ⟨hc₁, h⟩ := List.cons.inj h
        obtain ⟨s', hs'⟩ := exists_double hq h
        exact ⟨c :: s', by rw [double, if_neg hc, ← hc₁, hs']⟩

end Text

/-! ## Pieces that are cut -/

namespace Scan

open Text

/-- Quotes that are not closed are refused. -/
theorem lexemes_open {q : Char} (hq : q ∈ ['\'', '"']) (s : List Char) (fuel position : Nat) :
    ∃ e, lexemes fuel position (q :: double q s) = .error e := by
  cases fuel with
  | zero => exact ⟨_, rfl⟩
  | succ fuel =>
    obtain ⟨token, htoken⟩ : ∃ token, quotedToken? q = some token :=
      Option.isSome_iff_exists.1 (forall_mem_of_all (P := fun q => (quotedToken? q).isSome) (by decide) q hq)
    have hgap := gap_quote htoken (double q s)
    have hread : ∀ position, readToken position (q :: double q s) = .error (.unterminatedText position) := by
      intro position
      rw [readToken_quote htoken, readQuoted_double_eq_none]
    simp only [lexemes, hgap, byteLength_nil, Nat.add_zero, List.length_nil, List.drop_zero, hread, bind, Except.bind]
    exact ⟨_, rfl⟩

end Scan

namespace Piece

open Scan Text

/-- A piece that is not scanned up to a line feed in it, without the blanks before that. -/
def Brittle (p : Piece) : Prop := ∀ front back, p.text = front ++ '\n' :: back →
  ∀ fuel position, ∃ e, Scan.lexemes fuel position (trimEnd front) = .error e

variable {ps : List Piece} {pss : List (List Piece)} {rest : List Char}

theorem brittle_of_notMem {p : Piece} (h : '\n' ∉ p.text) : Brittle p := fun front _ ht =>
  absurd (ht ▸ List.mem_append_right front List.mem_cons_self) h

theorem brittle_enclose {q : Char} (hq : q ∈ ['\'', '"']) (t : Token) (s : List Char) :
    Brittle (token t (enclose q s)) := by
  intro front back ht fuel position
  have hplain : q ≠ '\n' ∧ isBlank q = false :=
    forall_mem_of_all (P := fun q => q ≠ '\n' ∧ isBlank q = false) (by decide) q hq
  cases front with
  | nil => exact absurd (List.cons.inj ht).1 hplain.1
  | cons c front =>
    obtain ⟨rfl, hrest⟩ := List.cons.inj ht
    obtain ⟨s', rfl⟩ := exists_double hplain.1 hrest
    rw [trimEnd_cons, if_neg (by simp [hplain.2]), trimEnd_double hplain.2]
    exact lexemes_open hq _ fuel position

/-- **A text of pieces is not scanned up to a line feed.** -/
theorem exists_error_of_cut : ∀ {ps : List Piece} {front back : List Char}, FitAll ps rest → (∀ p ∈ ps, Brittle p) →
    textOf ps = front ++ '\n' :: back → ∀ fuel position, ∃ e, Scan.lexemes fuel position (trimEnd front) = .error e
  | [], front, back, _, _, ht, _, _ => absurd ht (by simp)
  | p :: ps, front, back, h, hp, ht, fuel, position => by
    obtain ⟨hp, hps⟩ := List.forall_mem_cons.1 hp
    have hlater : ∀ front', textOf ps = front' ++ '\n' :: back →
        ∃ e, Scan.lexemes fuel position (trimEnd (p.text ++ front')) = .error e := by
      intro front' ht'
      have ih := exists_error_of_cut h.2 hps ht'
      have hne : trimEnd front' ≠ [] := fun he => by
        obtain ⟨e, h⟩ := ih 1 0
        rw [he] at h
        cases h
      have hhead : (trimEnd front').head? = (textOf ps ++ rest).head? := by
        rw [head?_trimEnd hne, ht']
        cases front' with
        | nil => exact absurd rfl hne
        | cons c front' => rfl
      rw [trimEnd_append hne]
      cases fuel with
      | zero => exact ⟨_, rfl⟩
      | succ fuel =>
        cases p with
        | blank =>
          obtain ⟨e, he⟩ := ih (fuel + 1) (position + 1)
          exact ⟨e, (lexemes_blank fuel position _).trans he⟩
        | token t chars =>
          obtain ⟨e, he⟩ := ih fuel (position + byteLength chars)
          refine ⟨e, (lexemes_token (h.1 _ hhead) fuel position).trans ?_⟩
          rw [he]
          rfl
    rcases List.append_eq_append_iff.1 ht with ⟨front', rfl, ht'⟩ | ⟨later, htext, ht'⟩
    · exact hlater front' ht'
    · cases later with
      | nil =>
        rw [List.append_nil] at htext
        have hfirst := hlater [] ht'.symm
        rwa [List.append_nil, htext] at hfirst
      | cons c later =>
        obtain ⟨rfl, -⟩ := List.cons.inj ht'
        exact hp front later htext fuel position

/-! ### Insertions -/

theorem forall_mem_joined {P : Piece → Prop} (hcomma : P (mark .comma)) (hblank : P blank) :
    ∀ {pss : List (List Piece)}, (∀ ps ∈ pss, ∀ p ∈ ps, P p) → ∀ p ∈ joined pss, P p
  | [], _ => fun _ hp => nomatch hp
  | [ps], h => h ps List.mem_cons_self
  | ps :: qs :: pss, h => by
    obtain ⟨hps, hrest⟩ := List.forall_mem_cons.1 h
    have ih := forall_mem_joined hcomma hblank hrest
    exact List.forall_mem_append.2 ⟨hps, List.forall_mem_cons.2 ⟨hcomma, List.forall_mem_cons.2 ⟨hblank, ih⟩⟩⟩

theorem forall_mem_enclosed {P : Piece → Prop} (hmark : ∀ m, P (mark m)) (hblank : P blank)
    (h : ∀ ps ∈ pss, ∀ p ∈ ps, P p) : ∀ p ∈ enclosed pss, P p :=
  List.forall_mem_cons.2 ⟨hmark _, List.forall_mem_append.2
    ⟨forall_mem_joined (hmark _) hblank h, List.forall_mem_singleton.2 (hmark _)⟩⟩

theorem brittle_blank : Brittle blank := brittle_of_notMem (by decide)

theorem brittle_keyword (k : Keyword) : Brittle (keyword k) := brittle_of_notMem (by cases k <;> decide)

theorem brittle_mark (m : Mark) : Brittle (mark m) := brittle_of_notMem (by cases m <;> decide)

theorem brittle_name (n : String) : Brittle (name n) := by
  rw [name, writeName]
  cases hbare : isBareName n.toList with
  | true =>
    simp only [isBareName, Bool.and_eq_true] at hbare
    refine brittle_of_notMem fun hmem => ?_
    exact absurd (List.all_eq_true.1 hbare.1.2 _ hmem) (by decide)
  | false => exact brittle_enclose (by decide) _ _

theorem brittle_signed {p : Json.Parts} (hp : p.Proper) (negative : Bool) (t : Token) :
    Brittle (token t (p.signed negative)) := by
  refine brittle_of_notMem fun hmem => ?_
  have hchars := signedNumberChars_signed hp negative breaks_nil.stops
  rw [List.append_nil] at hchars
  have hwritten := inWritten_of_mem_signedNumberChars (p.signed negative) '\n' (by rwa [hchars])
  revert hwritten
  unfold InWritten
  decide

theorem brittle_literal {v : Value} (hv : v.Writable) : Brittle (literal v) := by
  cases v with
  | null => exact brittle_of_notMem (by decide)
  | boolean b => exact hv.elim
  | integer i =>
    obtain ⟨p, hp, ht⟩ := Json.exists_parts_integer i.toInt
    have hbrittle := brittle_signed hp (decide (i.toInt < 0)) (literalToken (.integer i))
    rw [Json.Parts.signed, ← ht] at hbrittle
    exact hbrittle
  | real r =>
    have hr : r.isFinite := hv
    obtain ⟨p, hp, -, -, ht⟩ := Literal.exists_parts_writeReal r
    have hbrittle := brittle_signed hp r.negative (literalToken (.real r))
    rw [← ht] at hbrittle
    simp only [literal, Literal.write, if_pos hr]
    exact hbrittle
  | text s => exact brittle_enclose (by decide) _ s.toList

theorem brittle_insertion {table : String} {columns : Option (List String)} {rows : List (List Value)}
    (h : (Statement.insert table columns rows).Readable) :
    ∀ p ∈ (Statement.insert table columns rows).pieces, Brittle p := by
  have htarget : ∀ p ∈ Statement.targetPieces columns, Brittle p := by
    cases columns with
    | none => exact fun _ hp => nomatch hp
    | some names =>
      refine List.forall_mem_cons.2 ⟨brittle_blank, forall_mem_enclosed brittle_mark brittle_blank ?_⟩
      exact List.forall_mem_map.2 fun n _ => List.forall_mem_singleton.2 (brittle_name n)
  have hrows : ∀ p ∈ joined (rows.map Statement.valuesPieces), Brittle p := by
    refine forall_mem_joined (brittle_mark _) brittle_blank (List.forall_mem_map.2 fun r hr => ?_)
    refine forall_mem_enclosed brittle_mark brittle_blank (List.forall_mem_map.2 fun v hv => ?_)
    exact List.forall_mem_singleton.2 (brittle_literal ((h.2.2 r hr).2 v hv))
  simp only [Statement.pieces, List.forall_mem_cons, List.forall_mem_append]
  exact ⟨brittle_keyword _, brittle_blank, brittle_keyword _, brittle_blank, brittle_name table, htarget, brittle_blank,
    brittle_keyword _, brittle_blank, hrows⟩

end Piece

namespace Statement

open Piece Text

/-- **What an insertion with a semicolon has up to a line feed is not read.** -/
theorem parse_cut {table : String} {columns : Option (List String)} {rows : List (List Value)}
    (h : (insert table columns rows).Readable) {front back : List Char}
    (ht : (insert table columns rows).write ++ [';'] = front ++ '\n' :: back) :
    ∃ e, parse (String.ofList (trimEnd front)) = .error e := by
  have hbrittle := List.forall_mem_append.2 ⟨brittle_insertion h, List.forall_mem_singleton.2 (brittle_mark .semicolon)⟩
  have htext : textOf ((insert table columns rows).pieces ++ [mark .semicolon]) = front ++ '\n' :: back := by
    rw [textOf_semicolon, textOf_pieces h, ht]
  obtain ⟨e, he⟩ := exists_error_of_cut (fitAll_semicolon (firm_pieces h)) hbrittle htext
    ((trimEnd front).length + 1) 0
  have hscan : scan (trimEnd front) = .error e := he
  exact ⟨e, by rw [parse, String.toList_ofList, hscan]; rfl⟩

end Statement

end TableStore
