import Mathlib.Data.List.TakeWhile
import TableStore.Proofs.Cuts
import TableStore.Proofs.Definitions
import TableStore.Proofs.Fidelity
import TableStore.Proofs.JsonReaders

/-!
# Types settle when they are read

- upper case neither gives nor takes blanks, parentheses, commas, signs and digits (`Text.CaseBlind`), so a text is cut
  in the same places before and after (`Text.upper_trim`, `ColumnType.splitCommas_upper`) and has the same numbers in
  it; so a text that is read as a type is read as this type in upper case too (`ColumnType.read_upper`);
- what is shown of a type is a name in upper case with the numbers that it keeps, or the whole text in upper case, and
  both are read as the type again (`ColumnType.read_display`);
- so a catalog that has been read stays as it is however often it is written and read again
  (`Keyspace.types_settle`).
-/

namespace TableStore

/-! ## What upper case leaves alone -/

namespace Text

variable {p : Char → Bool}

/-- A property that all characters of the upper case of a character have, or none, as the character itself does. -/
def CaseBlind (p : Char → Bool) : Prop := ∀ c, ∀ d ∈ upperChar c, p d = p c

theorem upperChar_ne_nil (c : Char) : upperChar c ≠ [] := by
  by_cases hc : c.toNat < 0x80
  · rw [upperChar, if_pos hc]
    exact List.cons_ne_nil _ []
  · rcases upperChar_cases hc with h | ⟨-, ns, hns, h, -⟩
    · rw [h]
      exact List.cons_ne_nil c []
    · rw [h]
      exact fun hnil => hns (List.map_eq_nil_iff.1 hnil)

/-- The code points of blanks, parentheses, commas, plus signs and digits. -/
def cuts : List Nat :=
  "(),+0123456789".toList.map Char.toNat ++ blankRanges.flatMap fun r => List.range' r.1 (r.2 + 1 - r.1)

/-- None of them is in the table of upper case. -/
theorem notMem_cuts {n : Nat} (hn : n ∈ upperSources ++ upperTargets) : n ∉ cuts :=
  notMem_of_bits (by decide +kernel) hn

/-- A property that only these characters have, or all but these, needs to be checked below U+0080 only. -/
theorem caseBlind_of (b : Bool) (hcuts : ∀ c, p c ≠ b → c.toNat ∈ cuts)
    (hascii : ∀ n < 128, p (Char.ofNat n).toUpper = p (Char.ofNat n)) : CaseBlind p := by
  have htable : ∀ c : Char, c.toNat ∈ upperSources ++ upperTargets → p c = b := fun c hc => by
    by_contra hne
    exact notMem_cuts hc (hcuts c hne)
  intro c d hd
  by_cases hc : c.toNat < 0x80
  · rw [upperChar, if_pos hc] at hd
    rw [List.mem_singleton.1 hd]
    exact forall_ascii (P := fun c => p c.toUpper = p c) hascii hc
  · rcases upperChar_cases hc with h | ⟨hsource, ns, -, h, htargets⟩
    · rw [h] at hd
      rw [List.mem_singleton.1 hd]
    · rw [h] at hd
      obtain ⟨n, hn, rfl⟩ := List.mem_map.1 hd
      have htarget : (Char.ofNat n).toNat ∈ upperTargets := (toNat_of_mem_targets (htargets n hn)).symm ▸ htargets n hn
      rw [htable c (List.mem_append_left _ hsource), htable _ (List.mem_append_right _ htarget)]

theorem caseBlind_isBlank : CaseBlind isBlank := by
  refine caseBlind_of false (fun c hc => ?_) (by decide)
  rw [ne_eq, Bool.not_eq_false] at hc
  obtain ⟨r, hr, hn⟩ := List.any_eq_true.1 hc
  simp only [Bool.and_eq_true, decide_eq_true_eq] at hn
  exact List.mem_append_right _ (List.mem_flatMap.2 ⟨r, hr, List.mem_range'_1.2 (by omega)⟩)

theorem caseBlind_isDigit : CaseBlind isDigit := by
  refine caseBlind_of false (fun c hc => ?_) (by decide)
  rw [ne_eq, Bool.not_eq_false] at hc
  exact forall_digit (P := fun c => c.toNat ∈ cuts) (by decide) hc

theorem caseBlind_beq {m : Char} (hm : m.toNat ∈ cuts)
    (hascii : ∀ n < 128, ((Char.ofNat n).toUpper == m) = (Char.ofNat n == m)) : CaseBlind (· == m) := by
  refine caseBlind_of false (fun c hc => ?_) hascii
  rw [ne_eq, Bool.not_eq_false, beq_iff_eq] at hc
  exact hc ▸ hm

theorem caseBlind_isComma : CaseBlind (· == ',') := caseBlind_beq (by decide) (by decide)

theorem caseBlind_isPlus : CaseBlind (· == '+') := caseBlind_beq (by decide) (by decide)

theorem caseBlind_notOpen : CaseBlind (· != '(') := fun c d hd =>
  congrArg Bool.not (caseBlind_beq (m := '(') (by decide) (by decide) c d hd)

/-! ## Cutting -/

theorem upper_cons (c : Char) (cs : List Char) : upper (c :: cs) = upperChar c ++ upper cs := List.flatMap_cons

/-- The first character of the upper case of a character. -/
theorem exists_cons_upperChar (c : Char) : ∃ d ds, upperChar c = d :: ds ∧ d ∈ upperChar c := by
  obtain ⟨d, ds, h⟩ := List.exists_cons_of_ne_nil (upperChar_ne_nil c)
  exact ⟨d, ds, h, h ▸ List.mem_cons_self⟩

theorem upper_dropWhile (hp : CaseBlind p) : ∀ cs : List Char, upper (cs.dropWhile p) = (upper cs).dropWhile p
  | [] => rfl
  | c :: cs => by
    rw [upper_cons]
    by_cases hc : p c
    · rw [List.dropWhile_cons_of_pos hc, List.dropWhile_append_of_pos fun d hd => (hp c d hd).trans hc,
        upper_dropWhile hp cs]
    · obtain ⟨d, ds, hds, hd⟩ := exists_cons_upperChar c
      rw [List.dropWhile_cons_of_neg hc, upper_cons, hds, List.cons_append,
        List.dropWhile_cons_of_neg (by rw [hp c d hd]; exact hc)]

theorem upper_takeWhile (hp : CaseBlind p) : ∀ cs : List Char, upper (cs.takeWhile p) = (upper cs).takeWhile p
  | [] => rfl
  | c :: cs => by
    rw [upper_cons]
    by_cases hc : p c
    · rw [List.takeWhile_cons_of_pos hc, List.takeWhile_append_of_pos fun d hd => (hp c d hd).trans hc, upper_cons,
        upper_takeWhile hp cs]
    · obtain ⟨d, ds, hds, hd⟩ := exists_cons_upperChar c
      rw [List.takeWhile_cons_of_neg hc, hds, List.cons_append,
        List.takeWhile_cons_of_neg (by rw [hp c d hd]; exact hc)]
      rfl

theorem all_upper (hp : CaseBlind p) : ∀ cs : List Char, (upper cs).all p = cs.all p
  | [] => rfl
  | c :: cs => by
    have hchar : (upperChar c).all p = p c := by
      rw [Bool.eq_iff_iff, List.all_eq_true]
      obtain ⟨d, -, -, hd⟩ := exists_cons_upperChar c
      exact ⟨fun h => (hp c d hd).symm.trans (h d hd), fun h e he => (hp c e he).trans h⟩
    rw [upper_cons, List.all_append, List.all_cons, hchar, all_upper hp cs]

theorem upper_eq_nil_iff {cs : List Char} : upper cs = [] ↔ cs = [] := by
  cases cs with
  | nil => simp [upper]
  | cons c cs => simp [upper_cons, upperChar_ne_nil c]

theorem trimEnd_append_of_eq_nil {ds : List Char} (h : trimEnd ds = []) :
    ∀ cs : List Char, trimEnd (cs ++ ds) = trimEnd cs
  | [] => h
  | c :: cs => by rw [List.cons_append, trimEnd_cons, trimEnd_cons, trimEnd_append_of_eq_nil h cs]

/-- The upper case of a character is taken off the end as a whole, or not at all. -/
theorem trimEnd_upperChar (c : Char) : trimEnd (upperChar c) = if isBlank c then [] else upperChar c := by
  have hsame := caseBlind_isBlank c
  split
  · rename_i hc
    have hall : ∀ cs : List Char, (∀ d ∈ cs, isBlank d) → trimEnd cs = [] := by
      intro cs h
      induction cs with
      | nil => rfl
      | cons d cs ih =>
        obtain ⟨hd, hcs⟩ := List.forall_mem_cons.1 h
        rw [trimEnd_cons, if_pos ⟨hd, ih hcs⟩]
    exact hall _ fun d hd => (hsame d hd).trans hc
  · rename_i hc
    obtain ⟨init, last, hlast⟩ := (upperChar c).eq_nil_or_concat.resolve_left (upperChar_ne_nil c)
    rw [List.concat_eq_append] at hlast
    have hnot : isBlank last = false := by
      rw [hsame last (hlast ▸ List.mem_append_right _ List.mem_cons_self)]
      simpa using hc
    rw [hlast]
    exact trimEnd_append_singleton hnot init

theorem upper_trimEnd : ∀ cs : List Char, upper (trimEnd cs) = trimEnd (upper cs)
  | [] => rfl
  | c :: cs => by
    have ih := upper_trimEnd cs
    rw [upper_cons, trimEnd_cons]
    by_cases hcs : trimEnd cs = []
    · have hnil : trimEnd (upper cs) = [] := by
        rw [← ih, hcs]
        rfl
      rw [trimEnd_append_of_eq_nil hnil, trimEnd_upperChar, hcs]
      by_cases hc : isBlank c
      · rw [if_pos ⟨hc, rfl⟩, if_pos hc]
        rfl
      · rw [if_neg fun h => hc h.1, if_neg hc]
        exact List.append_nil _
    · have hne : trimEnd (upper cs) ≠ [] := fun h => hcs (upper_eq_nil_iff.1 (ih.trans h))
      rw [trimEnd_append hne, if_neg fun h => hcs h.2, upper_cons, ih]

theorem all_trim {cs : List Char} (h : cs.all p) : (trim cs).all p := by
  obtain ⟨before, after, hcs, -, -⟩ := exists_of_trim cs
  rw [hcs, List.all_append, List.all_append, Bool.and_eq_true, Bool.and_eq_true] at h
  exact h.2.1

/-- Upper case has blanks at its ends where the text has. -/
theorem upper_trim (cs : List Char) : upper (trim cs) = trim (upper cs) := by
  rw [trim, trim, upper_trimEnd, upper_dropWhile caseBlind_isBlank]

end Text

namespace ColumnType

open Text

/-! ## Numbers between commas -/

theorem splitCommas_ne_nil : ∀ cs : List Char, splitCommas cs ≠ []
  | [] => List.cons_ne_nil _ _
  | c :: cs => by
    rw [splitCommas]
    split
    · exact List.cons_ne_nil _ _
    · split <;> exact List.cons_ne_nil _ _

/-- Characters that are no commas stand at the front of the first piece. -/
theorem splitCommas_append {cs ds p : List Char} {ps : List (List Char)} (hcs : ∀ c ∈ cs, (c == ',') = false)
    (h : splitCommas ds = p :: ps) : splitCommas (cs ++ ds) = (cs ++ p) :: ps := by
  induction cs with
  | nil => exact h
  | cons c cs ih =>
    obtain ⟨hc, hcs⟩ := List.forall_mem_cons.1 hcs
    rw [List.cons_append, splitCommas, ih hcs]
    exact if_neg fun he => by simp [he] at hc

theorem splitCommas_comma (cs : List Char) : splitCommas (',' :: cs) = [] :: splitCommas cs := by
  obtain ⟨p, ps, h⟩ := List.exists_cons_of_ne_nil (splitCommas_ne_nil cs)
  rw [splitCommas, h]
  rfl

/-- The commas of upper case are those of the text. -/
theorem splitCommas_upper : ∀ cs : List Char, splitCommas (upper cs) = (splitCommas cs).map upper
  | [] => rfl
  | c :: cs => by
    have ih := splitCommas_upper cs
    obtain ⟨p, ps, h⟩ := List.exists_cons_of_ne_nil (splitCommas_ne_nil cs)
    rw [h, List.map_cons] at ih
    by_cases hc : c = ','
    · subst hc
      rw [splitCommas_comma, h]
      exact (splitCommas_comma (upper cs)).trans (congrArg ([] :: ·) ih)
    · have hnot : ∀ d ∈ upperChar c, (d == ',') = false := fun d hd =>
        (caseBlind_isComma c d hd).trans (beq_false_of_ne hc)
      rw [upper_cons, splitCommas_append hnot ih, splitCommas, h]
      dsimp only
      rw [if_neg hc, List.map_cons, upper_cons]

/-- The text without a plus sign at its front. -/
def unsigned : List Char → List Char
  | '+' :: ds => ds
  | ds => ds

theorem unsigned_of_ne {c : Char} (hc : c ≠ '+') (cs : List Char) : unsigned (c :: cs) = c :: cs := by
  unfold unsigned
  split
  · rename_i h
    exact absurd (List.cons.inj h).1 hc
  · rfl

theorem unsigned_upper (cs : List Char) : unsigned (upper cs) = upper (unsigned cs) := by
  cases cs with
  | nil => rfl
  | cons c cs =>
    by_cases hc : c = '+'
    · rw [hc]
      rfl
    · obtain ⟨d, ds, hds, hd⟩ := exists_cons_upperChar c
      have hne : d ≠ '+' := ne_of_beq_false ((caseBlind_isPlus c d hd).trans (beq_false_of_ne hc))
      rw [unsigned_of_ne hc, upper_cons, hds, List.cons_append, unsigned_of_ne hne]

theorem readCount?_eq (cs : List Char) : readCount? cs =
    if (unsigned cs).isEmpty || !(unsigned cs).all isDigit then none
    else if Decimal.natOfDigits (unsigned cs) < UInt32.size then
      some (UInt32.ofNat (Decimal.natOfDigits (unsigned cs)))
    else none := rfl

/-- A text is the same number in upper case, or is no number in both. -/
theorem readCount?_upper (cs : List Char) : readCount? (upper cs) = readCount? cs := by
  rw [readCount?_eq, readCount?_eq, unsigned_upper]
  generalize unsigned cs = ds
  have hempty : (upper ds).isEmpty = ds.isEmpty := by
    rw [Bool.eq_iff_iff, List.isEmpty_iff, List.isEmpty_iff, upper_eq_nil_iff]
  rw [hempty, all_upper caseBlind_isDigit]
  cases hall : ds.all isDigit with
  | false => rw [Bool.not_false, Bool.or_true, if_pos rfl, if_pos rfl]
  | true =>
    have hdigits : upper ds = ds := upper_eq_self fun c hc =>
      forall_digit (P := fun c => upperChar c = [c]) (by decide) (List.all_eq_true.1 hall c hc)
    rw [hdigits]

theorem readCounts?_upper : ∀ ps : List (List Char), readCounts? (ps.map upper) = readCounts? ps
  | [] => rfl
  | p :: ps => by rw [List.map_cons, readCounts?, readCounts?, ← upper_trim, readCount?_upper, readCounts?_upper ps]

/-! ## Types -/

/-- **A text that is read as a type is read as this type in upper case too.** -/
theorem read_upper {s : List Char} {t : ColumnType} (h : read s = .ok t) : read (upper s) = .ok t := by
  simp only [read] at h ⊢
  rw [← upper_trim, ← upper_dropWhile caseBlind_notOpen, ← upper_takeWhile caseBlind_notOpen]
  generalize trim s = s at h ⊢
  have hopen := List.head?_dropWhile_not (· != '(') s
  cases hd : s.dropWhile (· != '(') with
  | nil =>
    rw [hd] at h
    exact (congrArg Except.ok (ofParts_upper s [])).trans h
  | cons c inner =>
    rw [hd] at h hopen
    obtain rfl : c = '(' := by simpa using hopen
    dsimp only at h
    split at h
    · rename_i hlast
      obtain ⟨init, hinit⟩ := List.getLast?_eq_some_iff.1 hlast
      have hupper : trimEnd (upper inner) = upper init ++ [')'] := by
        rw [← upper_trimEnd, hinit, upper_append]
        rfl
      rw [hinit, List.dropLast_concat] at h
      have hcons : upper ('(' :: inner) = '(' :: upper inner := rfl
      rw [hcons]
      simp only [hupper, List.getLast?_concat, List.dropLast_concat, splitCommas_upper, readCounts?_upper]
      split at h
      · rw [← upper_trim, ofParts_upper]
        exact h
      · rw [upper_upper]
        exact h
    · cases h

/-! ### Types as they are shown -/

theorem trim_digits (n : Nat) : trim (Decimal.digits n) = Decimal.digits n := by
  have htrim := Text.trim_of_inWritten ((Json.proper_digits n).inWritten_signed false)
  rwa [Piece.signed_digits] at htrim

/-- Digits up to a comma, or up to the end, are a piece of their own. -/
theorem splitCommas_digits (n : Nat) {cs : List Char} {ps : List (List Char)} (h : splitCommas cs = [] :: ps) :
    splitCommas (Decimal.digits n ++ cs) = Decimal.digits n :: ps := by
  have hdigits : ∀ c ∈ Decimal.digits n, (c == ',') = false := fun c hc =>
    forall_digit (P := fun c => (c == ',') = false) (by decide)
      (List.all_eq_true.1 (Decimal.all_isDigit_digits n) c hc)
  rw [splitCommas_append hdigits h, List.append_nil]

/-- A blank in front of the first piece does not change the numbers. -/
theorem readCounts?_blank (cs : List Char) :
    readCounts? (splitCommas (' ' :: cs)) = readCounts? (splitCommas cs) := by
  obtain ⟨p, ps, h⟩ := List.exists_cons_of_ne_nil (splitCommas_ne_nil cs)
  have hblank : splitCommas (' ' :: cs) = (' ' :: p) :: ps := by
    rw [splitCommas, h]
    rfl
  have htrim : trim (' ' :: p) = trim p := by rw [trim, trim, List.dropWhile_cons_of_pos (by decide)]
  rw [hblank, h, readCounts?, readCounts?, htrim]

/-- Numbers with commas and blanks between them are read back. -/
theorem readCounts?_listed (n : UInt32) (args : List UInt32) :
    readCounts? (splitCommas (listed ((n :: args).map fun n => Decimal.digits n.toNat))) = some (n :: args) := by
  induction args generalizing n with
  | nil =>
    have hsplit := splitCommas_digits n.toNat (show splitCommas [] = [[]] from rfl)
    rw [List.append_nil] at hsplit
    have hlisted : listed ([n].map fun n => Decimal.digits n.toNat) = Decimal.digits n.toNat := rfl
    rw [hlisted, hsplit, readCounts?, trim_digits, readCount?_digits]
    rfl
  | cons m args ih =>
    have hlisted : listed ((n :: m :: args).map fun n => Decimal.digits n.toNat) =
        Decimal.digits n.toNat ++ ',' :: ' ' :: listed ((m :: args).map fun n => Decimal.digits n.toNat) := rfl
    rw [hlisted, splitCommas_digits _ (splitCommas_comma _), readCounts?, trim_digits, readCount?_digits,
      readCounts?_blank, ih]
    rfl

/-- A name with arguments is read as the type that they make. -/
theorem read_withArgs {name : List Char} (hname : trim name = name) (hopen : name.all (· != '('))
    (args : List UInt32) : read (withArgs (String.ofList name) args).toList = .ok (ofParts name args) := by
  cases args with
  | nil =>
    have hnone : name.dropWhile (· != '(') = [] := List.dropWhile_eq_nil_iff.2 (List.all_eq_true.1 hopen)
    have htext : (withArgs (String.ofList name) []).toList = name := String.toList_ofList
    simp only [htext, read, hname, hnone]
  | cons n ns =>
    obtain ⟨inner, hinner⟩ : ∃ inner, inner = listed ((n :: ns).map fun n => Decimal.digits n.toNat) := ⟨_, rfl⟩
    have htext : (withArgs (String.ofList name) (n :: ns)).toList = name ++ '(' :: (inner ++ [')']) := by
      rw [toList_withArgs _ (List.cons_ne_nil n ns), String.toList_ofList, inParens, hinner]
    have htrim : trim (name ++ '(' :: (inner ++ [')'])) = name ++ '(' :: (inner ++ [')']) := by
      refine trim_eq_self (fun c hc => ?_) fun c hc => ?_
      · cases hcs : name with
        | nil =>
          rw [hcs] at hc
          cases hc
          decide
        | cons d ds =>
          rw [hcs] at hc
          refine isBlank_head_trim name c ?_
          rw [hname, hcs]
          exact hc
      · rw [← List.cons_append, ← List.append_assoc, List.getLast?_concat] at hc
        cases hc
        decide
    have hkeep := List.all_eq_true.1 hopen
    have hdrop : (name ++ '(' :: (inner ++ [')'])).dropWhile (· != '(') = '(' :: (inner ++ [')']) := by
      rw [List.dropWhile_append_of_pos hkeep]
      rfl
    have htake : (name ++ '(' :: (inner ++ [')'])).takeWhile (· != '(') = name := by
      rw [List.takeWhile_append_of_pos hkeep]
      exact List.append_nil name
    have hlast : trimEnd (inner ++ [')']) = inner ++ [')'] := trimEnd_append_singleton (by decide) inner
    simp only [htext, read, htrim, hdrop, htake, hlast, hname, List.getLast?_concat, List.dropLast_concat]
    rw [hinner, readCounts?_listed]

/-- **What is shown of a type that was read is read as the type again.** -/
theorem read_display {s : List Char} {t : ColumnType} (h : read s = .ok t) : read t.display.toList = .ok t := by
  -- a type that is made from a name is shown as the name in upper case and the numbers that it keeps
  have hmade : ∀ name args, (trim name).all (· != '(') →
      read (ofParts (trim name) args).display.toList = .ok (ofParts (trim name) args) := by
    intro name args hopen
    obtain ⟨kept, hdisplay, hkept⟩ := exists_display (trim name) args
    have htrim : trim (upper (trim name)) = upper (trim name) := by rw [← upper_trim, trim_trim]
    have hopen' : (upper (trim name)).all (· != '(') := by rwa [all_upper caseBlind_notOpen]
    rw [hdisplay, read_withArgs htrim hopen', ofParts_upper, hkept]
  have hupper := read_upper h
  simp only [read] at h
  split at h
  · rename_i hnone
    cases h
    exact hmade s [] (List.all_eq_true.2 (List.dropWhile_eq_nil_iff.1 hnone))
  split at h
  · split at h
    · cases h
      exact hmade _ _ (all_trim List.all_takeWhile)
    -- a text whose arguments are no numbers is kept in upper case
    · cases h
      have htrim : read (trim (upper s)) = read (upper s) := by simp only [read, trim_trim]
      have hshown : (other (String.ofList (upper (trim s)))).display.toList = trim (upper s) := by
        rw [display, String.toList_ofList, upper_trim]
      rw [hshown, htrim, hupper]
  · cases h

end ColumnType

/-! ## Catalogs -/

theorem Catalog.Settled.put {c : Catalog} (hc : c.Settled) (hf : c.Filed) {t : Table} (ht : t.Settled) :
    (c.put t).Settled := by
  intro t' ht'
  obtain ⟨name, -, hname⟩ := (hf.put t).sorted.mem_values.1 ht'
  have hfind : (c.put t).tables.find? name = if name = t.name then some t else c.tables.find? name :=
    hf.sorted.find?_insert trivial t trivial
  rw [hfind] at hname
  split at hname
  · cases hname
    exact ht
  · exact hc t' (OrderedMap.mem_values_of_find? hname)

namespace Json

theorem settled_of_readColumn? {c : Column} (h : Given readColumn? c) : c.type.reread? = some c.type := by
  obtain ⟨cs, rest, h⟩ := h
  obtain ⟨⟨⟨name, type⟩, rest'⟩, hparts, h⟩ := Option.map_eq_some_iff.1 h
  obtain ⟨rfl, -⟩ := Prod.mk.inj h
  obtain ⟨cs', rest'', htype⟩ := (given_of_readParts? hparts).2
  obtain ⟨⟨s, cs''⟩, -, htype⟩ := Option.bind_eq_some_iff.1 htype
  dsimp only at htype
  split at htype
  · rename_i hread
    cases htype
    rw [ColumnType.reread?, ColumnType.read_display hread]
    rfl
  · cases htype

/-- Whatever a text holds, the table that it is read as is settled. -/
theorem settled_of_readTable? {cs : List Char} {t : Table} (h : readTable? cs = some t) : t.Settled := by
  obtain ⟨cs, rest, h⟩ := given_of_whole? h
  obtain ⟨⟨⟨name, columns⟩, rest'⟩, hparts, h⟩ := Option.map_eq_some_iff.1 h
  obtain ⟨rfl, -⟩ := Prod.mk.inj h
  obtain ⟨cs', rest'', hcolumns⟩ := (given_of_readParts? hparts).2
  obtain ⟨cs'', -, hitems⟩ := Option.bind_eq_some_iff.1 hcolumns
  exact fun c hc => settled_of_readColumn? (given_of_readItems? hitems c hc)

end Json

namespace Keyspace

open OrderedMap

/-- Each table that is read keeps a catalog settled. -/
theorem settled_of_readTables : ∀ {texts : List String} {c d : Catalog}, c.Filed → c.Settled →
    readTables c texts = .ok d → d.Filed ∧ d.Settled
  | [], c, d, hf, hc, h => by
    cases h
    exact ⟨hf, hc⟩
  | t :: texts, c, d, hf, hc, h => by
    rw [readTables] at h
    split at h
    · cases h
    · rename_i table htable
      exact settled_of_readTables (hf.put table) (hc.put hf (Json.settled_of_readTable? htable)) h

/-- **Types settle when they are read.** What is shown of a type that some text was read as is read as this type, so a
catalog that was read, from whatever texts, is read back from its own texts as it is. -/
theorem types_settle :
    (∀ s t, ColumnType.read s = .ok t → ColumnType.read t.display.toList = .ok t) ∧
    ∀ texts c, readTables {} texts = .ok c → readTables {} (tableTexts c).values = .ok c := by
  refine ⟨fun s t => ColumnType.read_display, fun texts c h => ?_⟩
  obtain ⟨hf, hc⟩ := settled_of_readTables .empty (fun t ht => absurd ht List.not_mem_nil) h
  exact readTables_tableTexts hf hc

/-- A number loses its sign and zeros and a third argument is dropped; arguments that are no numbers stay as they are,
in upper case. -/
theorem odd_types_settle :
    let numeric : ColumnType := .numeric (some 10) (some 2)
    let kept : ColumnType := .other "STRASSE ( (+1), 2)"
    let text := "[\"t\", [[\"n\", \" numeric ( +010,2 , 9)\"], [\"s\", \"straße ( (+1), 2)\"]]]"
    let catalog : Catalog := .ofList [⟨"t", [⟨"n", numeric⟩, ⟨"s", kept⟩]⟩]
    (ColumnType.read " numeric ( +010,2 , 9)".toList = .ok numeric ∧ numeric.display = "NUMERIC(10, 2)" ∧
      ColumnType.read "NUMERIC(10, 2)".toList = .ok numeric) ∧
    (ColumnType.read "straße ( (+1), 2)".toList = .ok kept ∧ ColumnType.read "STRASSE ( (+1), 2)".toList = .ok kept) ∧
    readTables {} [text] = .ok catalog ∧ readTables {} (tableTexts catalog).values = .ok catalog := by
  intro numeric kept text catalog
  have hnumeric : ColumnType.read " numeric ( +010,2 , 9)".toList = .ok numeric :=
    Except.eq_ok_of_toOption (by decide +kernel)
  have hdisplay : numeric.display = "NUMERIC(10, 2)" := by decide +kernel
  have hkept : ColumnType.read "straße ( (+1), 2)".toList = .ok kept := Except.eq_ok_of_toOption (by decide +kernel)
  have hcatalog : readTables {} [text] = .ok catalog := Except.eq_ok_of_toOption (by decide +kernel)
  have hagain := types_settle.1 _ _ hnumeric
  rw [hdisplay] at hagain
  exact ⟨⟨hnumeric, hdisplay, hagain⟩, ⟨hkept, types_settle.1 _ _ hkept⟩, hcatalog, types_settle.2 _ _ hcatalog⟩

end Keyspace

end TableStore
