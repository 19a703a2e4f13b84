import Mathlib.Algebra.Order.BigOperators.Group.List
import Mathlib.Algebra.Order.Ring.Nat
import TableStore.Proofs.Scanning

/-!
# Characters of tokens

- the text that a name or a quoted text stands for is part of its characters, between the quotes that the token tells
  (`Token.spelled`, `Token.quote?`, `Scan.spelled_of_readToken`);
- so a token is at most as rich in any characters as a text has room for (`Scan.countP_spelled_le`,
  `Scan.quotes_le`), and what tokens need in all is not more than their text holds (`sum_le_of_scan`).
-/

namespace TableStore

open Text

/-! ## Single tokens -/

namespace Token

/-- The text that a token stands for where a name or a type is due. -/
def spelled : Token → List Char
  | .name s | .quoted s | .string s => s.toList
  | _ => []

/-- The quotes that a token must have stood between. -/
def quote? : Token → Option Char
  | .string _ => some '\''
  | .quoted _ => some '"'
  | .name s => if isBareName s.toList then none else some '`'
  | _ => none

/-- How many of a quote the characters of a token hold at least. -/
def quotes (q : Char) (t : Token) : Nat :=
  if t.quote? = some q then 2 * t.spelled.count q + 2 else t.spelled.count q

theorem count_le_quotes (q : Char) (t : Token) : t.spelled.count q ≤ t.quotes q := by
  unfold quotes
  split <;> omega

/-- A token with no more than the quotes that it spells is not between them. -/
theorem quote?_ne_of_quotes_eq {q : Char} {t : Token} (h : t.quotes q = t.spelled.count q) : t.quote? ≠ some q := by
  intro hq
  rw [quotes, if_pos hq] at h
  omega

end Token

namespace Text

theorem sublist_double (q : Char) : ∀ s : List Char, s.Sublist (double q s)
  | [] => .slnil
  | c :: s => by
    rw [double]
    split
    · rename_i hc
      rw [hc]
      exact ((sublist_double q s).cons q).cons_cons q
    · exact (sublist_double q s).cons_cons c

theorem sublist_enclose (q : Char) (s : List Char) : s.Sublist (enclose q s) :=
  ((sublist_double q s).trans (List.sublist_append_left _ _)).cons q

theorem count_double (q : Char) : ∀ s : List Char, (double q s).count q = 2 * s.count q
  | [] => rfl
  | c :: s => by
    have ih := count_double q s
    rw [double]
    split
    · rename_i hc
      rw [hc, List.count_cons_self, List.count_cons_self, List.count_cons_self, ih]
      omega
    · rename_i hc
      rw [List.count_cons_of_ne hc, List.count_cons_of_ne hc, ih]

theorem count_enclose (q : Char) (s : List Char) : (enclose q s).count q = 2 * s.count q + 2 := by
  rw [enclose, List.count_cons_self, List.count_append, count_double, List.count_singleton_self]

end Text

namespace Scan

variable {cs chars : List Char} {t : Token} {position : Nat}

theorem isBareName_takeWhile {c : Char} (hc : startsWord c) (hk : Keyword.ofWord? ((c :: cs).takeWhile inWord) = none) :
    isBareName ((c :: cs).takeWhile inWord) := by
  have hall : ((c :: cs).takeWhile inWord).all inWord = true := List.all_takeWhile
  have hhead : ((c :: cs).takeWhile inWord).head? = some c := by
    rw [List.takeWhile_cons_of_pos (inWord_of_startsWord hc), List.head?_cons]
  rw [isBareName, hall, hhead, hk, Option.any_some, hc]
  rfl

/-- The token of a quoted text spells the text, and it tells no other quotes. -/
theorem spelled_of_quotedToken? {q : Char} {token : String → Token} (h : quotedToken? q = some token) (s : String) :
    (token s).spelled = s.toList ∧ ∀ r, (token s).quote? = some r → r = q := by
  rw [quotedToken?] at h
  split at h
  · rename_i hq
    cases h
    exact ⟨rfl, fun r hr => hq ▸ (Option.some.inj hr).symm⟩
  split at h
  · rename_i hq
    cases h
    exact ⟨rfl, fun r hr => hq ▸ (Option.some.inj hr).symm⟩
  split at h <;> cases h
  rename_i hq
  refine ⟨rfl, fun r hr => ?_⟩
  rw [Token.quote?] at hr
  split at hr <;> cases hr
  exact hq.symm

/-- **What a token spells stands in its characters**, as it is or between quotes; these are the quotes that the token
tells, if it tells any. -/
theorem spelled_of_readToken (h : readToken position cs = .ok (t, chars)) :
    t.spelled.Sublist chars ∧ ∀ q, t.quote? = some q → chars = enclose q t.spelled := by
  have hplain : ∀ {t : Token}, t.spelled = [] → t.quote? = none →
      t.spelled.Sublist chars ∧ ∀ q, t.quote? = some q → chars = enclose q t.spelled := fun hs hq =>
    ⟨hs ▸ List.nil_sublist _, fun q h => by rw [hq] at h; cases h⟩
  cases cs with
  | nil =>
    cases h
    exact hplain rfl rfl
  | cons c cs =>
    rw [readToken] at h
    split at h
    · rw [(readNumber_eq_ok h).1]
      exact hplain rfl rfl
    split at h
    · cases h
      exact hplain rfl rfl
    split at h
    · rename_i token htoken
      split at h <;> cases h
      rename_i s rest hread
      obtain ⟨hspelled, hquote⟩ := spelled_of_quotedToken? htoken (String.ofList s)
      rw [String.toList_ofList] at hspelled
      rw [hspelled]
      refine ⟨sublist_enclose c s, fun q hq => ?_⟩
      rw [hquote q hq]
    split at h <;> cases h
    rename_i hc
    rw [wordToken]
    split
    · exact hplain rfl rfl
    · rename_i hk
      rw [Token.spelled, Token.quote?, String.toList_ofList, if_pos (isBareName_takeWhile hc hk)]
      refine ⟨List.Sublist.refl _, fun q h => ?_⟩
      cases h

/-- The characters of a token hold what it spells. -/
theorem countP_spelled_le (p : Char → Bool) (h : readToken position cs = .ok (t, chars)) :
    t.spelled.countP p ≤ chars.countP p :=
  (spelled_of_readToken h).1.countP_le

/-- The characters of a token hold its quotes. -/
theorem quotes_le (q : Char) (h : readToken position cs = .ok (t, chars)) : t.quotes q ≤ chars.count q := by
  obtain ⟨hsublist, hquote⟩ := spelled_of_readToken h
  unfold Token.quotes
  split
  · rename_i hq
    exact (hquote q hq ▸ count_enclose q t.spelled).ge
  · exact hsublist.count_le q

/-! ## All tokens of a text -/

/-- What tokens need in all is not more than the text holds. -/
theorem sum_le_of_lexemes {w : Token → Nat} {p : Char → Bool}
    (hw : ∀ position cs t chars, readToken position cs = .ok (t, chars) → w t ≤ chars.countP p) :
    ∀ {fuel position : Nat} {cs : List Char} {ls : List Lexeme}, lexemes fuel position cs = .ok ls →
      ((ls.map Lexeme.token).map w).sum ≤ cs.countP p
  | 0, _, _, _, h => nomatch h
  | fuel + 1, position, cs, ls, h => by
    obtain ⟨skipped, t, chars, rest, later, rfl, hread, rfl, hlater⟩ := exists_of_lexemes h
    have hfirst := hw _ _ _ _ hread
    have hrest : ((later.map Lexeme.token).map w).sum ≤ rest.countP p := by
      rcases hlater with rfl | hlater
      · exact Nat.zero_le _
      · exact sum_le_of_lexemes hw hlater
    simp only [List.map_cons, List.sum_cons, List.countP_append]
    omega

end Scan

/-- **What some tokens of a text need in all is not more than the text holds.** -/
theorem sum_le_of_scan {text : List Char} {ls : List Lexeme} {ts : List Token} {w : Token → Nat} {p : Char → Bool}
    (hw : ∀ position cs t chars, Scan.readToken position cs = .ok (t, chars) → w t ≤ chars.countP p)
    (h : scan text = .ok ls) (hts : ts.Sublist (ls.map Lexeme.token)) : (ts.map w).sum ≤ text.countP p :=
  ((hts.map w).sum_le_sum fun _ _ => Nat.zero_le _).trans (Scan.sum_le_of_lexemes hw h)

end TableStore
