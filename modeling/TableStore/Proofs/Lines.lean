import TableStore.Program
import TableStore.Proofs.Literal

/-!
# Statements in lines

- no carriage return is taken off the lines of a text that is `Returnless`; if its last line is not ended, its lines
  stand before those of what comes after that (`Text.lines_append`), and with their ends they are the text
  (`Text.flatMap_lines`);
- the shell collects the lines after which a statement `GoesOn`; a text that goes on after every line but the last is
  `Unbroken`, and is carried out as it stands (`Shell.feedAll_statement`), if it is `Typable`;
- another one is carried out up to the end of an earlier line (`Shell.feedAll_broken`).
-/

namespace TableStore

/-! ## Lines of a text -/

namespace Text

/-- A text with no carriage return before a line feed. -/
def Returnless (cs : List Char) : Prop := ¬['\r', '\n'] <:+: cs

instance : DecidablePred Returnless := fun cs => inferInstanceAs (Decidable ¬['\r', '\n'] <:+: cs)

variable {c d : Char} {cs : List Char}

theorem Returnless.tail (h : Returnless (c :: cs)) : Returnless cs := fun hcs =>
  h (hcs.trans (List.suffix_cons c cs).isInfix)

theorem Returnless.head?_ne (h : Returnless (c :: cs)) (hc : c = '\r') : cs.head? ≠ some '\n' := by
  subst hc
  cases cs with
  | nil => exact fun he => nomatch he
  | cons d cs =>
    intro he
    cases he
    exact h (List.prefix_append ['\r', '\n'] cs).isInfix

theorem lines_cons (hc : c ≠ '\n') (hcs : c = '\r' → cs.head? ≠ some '\n') : lines (c :: cs) = match lines cs with
    | [] => [[c]]
    | l :: ls => (c :: l) :: ls := by
  rw [lines.eq_def (c :: cs)]
  split
  next he => cases he
  next he => exact absurd (List.cons.inj he).1 hc
  next he =>
    cases he
    exact absurd rfl (hcs rfl)
  next he =>
    cases he
    rfl

theorem lines_ne_nil (hcs : cs ≠ []) : lines cs ≠ [] := by
  unfold lines
  split
  · exact absurd rfl hcs
  · exact List.cons_ne_nil _ _
  · exact List.cons_ne_nil _ _
  · split <;> exact List.cons_ne_nil _ _

/-- A character ends a line of its own, or goes before the first of the other lines. -/
theorem lines_cons_cases (hcs : cs ≠ []) (hr : c = '\r' → cs.head? ≠ some '\n') :
    (c = '\n' ∧ lines (c :: cs) = [] :: lines cs) ∨
      (c ≠ '\n' ∧ ∃ l ls, lines cs = l :: ls ∧ lines (c :: cs) = (c :: l) :: ls) := by
  by_cases hc : c = '\n'
  · subst hc
    exact .inl ⟨rfl, rfl⟩
  · obtain ⟨l, ls, hl⟩ := List.exists_cons_of_ne_nil (lines_ne_nil hcs)
    exact .inr ⟨hc, l, ls, hl, by rw [lines_cons hc hr, hl]⟩

theorem lines_singleton (hc : c ≠ '\n') : lines [c] = [[c]] := lines_cons hc fun _ he => nomatch he

/-- The last line of a text goes up to the next line feed. -/
theorem lines_append (hd : d ≠ '\n' ∧ d ≠ '\r') (rest : List Char) : ∀ {cs : List Char}, Returnless (cs ++ [d]) →
    lines (cs ++ d :: '\n' :: rest) = lines (cs ++ [d]) ++ lines rest
  | [], _ => by
    rw [List.nil_append, List.nil_append, lines_singleton hd.1, lines_cons hd.1 fun he => absurd he hd.2]
    rfl
  | c :: cs, h => by
    have h : Returnless (c :: (cs ++ [d])) := h
    have ih := lines_append hd rest h.tail
    have hr : c = '\r' → (cs ++ d :: '\n' :: rest).head? ≠ some '\n' := fun he => by
      have := h.head?_ne he
      cases cs with
      | nil => exact this
      | cons x cs => exact this
    rw [List.cons_append, List.cons_append]
    rcases lines_cons_cases (by simp) h.head?_ne with ⟨rfl, hl⟩ | ⟨hc, l, ls, hl, hl'⟩
    · exact congrArg ([] :: ·) ih
    · rw [hl] at ih
      rw [lines_cons hc hr, ih, hl']
      rfl

/-- The lines with their ends are the text, with an end of its last line. -/
theorem flatMap_lines (hd : d ≠ '\n') : ∀ {cs : List Char}, Returnless (cs ++ [d]) →
    (lines (cs ++ [d])).flatMap (· ++ ['\n']) = cs ++ [d, '\n']
  | [], _ => by
    rw [List.nil_append, lines_singleton hd]
    rfl
  | c :: cs, h => by
    have h : Returnless (c :: (cs ++ [d])) := h
    have ih := flatMap_lines hd h.tail
    rw [List.cons_append]
    rcases lines_cons_cases (by simp) h.head?_ne with ⟨rfl, hl⟩ | ⟨-, l, ls, hl, hl'⟩
    · exact congrArg ('\n' :: ·) ih
    · rw [hl] at ih
      rw [hl']
      exact congrArg (c :: ·) ih

/-- A text is cut at the end of each of its lines but the last. -/
theorem exists_back {l : List Char} {ls more : List (List Char)} (hd : d ≠ '\n') (h : Returnless (cs ++ [d]))
    (hlines : lines (cs ++ [d]) = ls ++ l :: more) (hmore : more ≠ []) :
    ∃ back, cs ++ [d] = ls.flatMap (· ++ ['\n']) ++ l ++ '\n' :: back := by
  have htext := flatMap_lines hd h
  obtain ⟨init, last, rfl⟩ := (List.eq_nil_or_concat more).resolve_left hmore
  refine ⟨init.flatMap (· ++ ['\n']) ++ last, (List.append_left_inj ['\n']).1 ?_⟩
  rw [hlines] at htext
  simpa using htext.symm

theorem mem_of_mem_lines {l : List Char} (hd : d ≠ '\n') (h : Returnless (cs ++ [d])) (hl : l ∈ lines (cs ++ [d]))
    (hc : c ∈ l) (hne : c ≠ '\n') : c ∈ cs ++ [d] := by
  have hmem : c ∈ (lines (cs ++ [d])).flatMap (· ++ ['\n']) :=
    List.mem_flatMap.2 ⟨l, hl, List.mem_append_left _ hc⟩
  rw [flatMap_lines hd h] at hmem
  simpa [hne] using hmem

/-- The last line ends as the text does. -/
theorem exists_lines_concat (hd : d ≠ '\n') : ∀ {cs : List Char}, Returnless (cs ++ [d]) →
    ∃ ls l, lines (cs ++ [d]) = ls ++ [l ++ [d]]
  | [], _ => ⟨[], [], lines_singleton hd⟩
  | c :: cs, h => by
    have h : Returnless (c :: (cs ++ [d])) := h
    obtain ⟨ls, l, hl⟩ := exists_lines_concat hd h.tail
    rw [List.cons_append]
    rcases lines_cons_cases (by simp) h.head?_ne with ⟨rfl, -⟩ | ⟨-, m, ms, hm, hm'⟩
    · exact ⟨[] :: ls, l, congrArg ([] :: ·) hl⟩
    · rw [hm] at hl
      rw [hm']
      cases ls with
      | nil =>
        cases hl
        exact ⟨[], c :: l, rfl⟩
      | cons m ls =>
        cases hl
        exact ⟨(c :: m) :: ls, l, rfl⟩

/-- The first line starts as the text does. -/
theorem exists_cons_lines (hc : c ≠ '\n' ∧ c ≠ '\r') (cs : List Char) : ∃ l ls, lines (c :: cs) = (c :: l) :: ls := by
  rw [lines_cons hc.1 fun he => absurd he hc.2]
  cases lines cs with
  | nil => exact ⟨[], [], rfl⟩
  | cons l ls => exact ⟨l, ls, rfl⟩

/-! ### Blanks at the ends of a text -/

theorem inLine_of_not_isBlank (hc : isBlank c = false) : c ≠ '\n' ∧ c ≠ '\r' := by
  constructor <;>
  · rintro rfl
    revert hc
    decide

theorem trimEnd_append_blank (hd : isBlank d) : ∀ cs : List Char, trimEnd (cs ++ [d]) = trimEnd cs
  | [] => by simp [trimEnd, hd]
  | c :: cs => by rw [List.cons_append, trimEnd, trimEnd, trimEnd_append_blank hd cs]

theorem trim_of_cons (hc : isBlank c = false) (cs : List Char) : trim (c :: cs) = trimEnd (c :: cs) := by
  rw [trim, List.dropWhile_cons_of_neg (by simp [hc])]

theorem trim_append_blank (hd : isBlank d) : ∀ cs : List Char, trim (cs ++ [d]) = trim cs
  | [] => by simp [trim, hd]
  | c :: cs => by
    have ih := trim_append_blank hd cs
    cases hc : isBlank c with
    | true => rwa [List.cons_append, trim, trim, List.dropWhile_cons_of_pos hc, List.dropWhile_cons_of_pos hc]
    | false => rw [List.cons_append, trim_of_cons hc, trim_of_cons hc, ← List.cons_append, trimEnd_append_blank hd]

theorem head?_trim (hc : isBlank c = false) (cs : List Char) : (trim (c :: cs)).head? = some c := by
  rw [trim_of_cons hc, trimEnd]
  split
  · rw [if_neg (by simp [hc])]
    rfl
  · rfl

theorem trim_ne_nil (hc : isBlank c = false) (cs : List Char) : trim (c :: cs) ≠ [] := fun he => by
  have hhead := head?_trim hc cs
  rw [he] at hhead
  cases hhead

theorem getLast?_trim (hd : isBlank d = false) : ∀ cs : List Char, (trim (cs ++ [d])).getLast? = some d
  | [] => by simp [trim, trimEnd, hd]
  | c :: cs => by
    have ih := getLast?_trim hd cs
    cases hc : isBlank c with
    | true => rwa [List.cons_append, trim, List.dropWhile_cons_of_pos hc]
    | false => rw [List.cons_append, trim_of_cons hc, ← List.cons_append, trimEnd_append_singleton hd,
        List.getLast?_concat]

end Text

/-! ## Lines that the shell takes -/

namespace Printed

theorem empty_append (p : Printed) : {} ++ p = p := by
  change (⟨"" ++ p.out, "" ++ p.err⟩ : Printed) = p
  rw [String.empty_append, String.empty_append]

end Printed

namespace Shell

open Text

/-- A line after which a statement goes on: it is not blank and does not end in a semicolon. -/
def GoesOn (l : List Char) : Prop := trim l ≠ [] ∧ (trim l).getLast? ≠ some ';'

instance : DecidablePred GoesOn := fun l => inferInstanceAs (Decidable (trim l ≠ [] ∧ (trim l).getLast? ≠ some ';'))

/-- A text that goes on after every line but the last. -/
def Unbroken (text : List Char) : Prop := ∀ l ∈ (lines text).dropLast, GoesOn l

instance : DecidablePred Unbroken := fun text => inferInstanceAs (Decidable (∀ l ∈ (lines text).dropLast, GoesOn l))

/-- A text of which the shell takes every character: no backspace takes one back, and none is taken off a line. -/
structure Typable (text : List Char) : Prop where
  backspace : Typed.backspace ∉ text
  returns : Returnless text

instance : DecidablePred Typable := fun text =>
  decidable_of_iff (Typed.backspace ∉ text ∧ Returnless text) ⟨fun h => ⟨h.1, h.2⟩, fun h => ⟨h.1, h.2⟩⟩

variable {s : Shell} {l : List Char}

theorem Typable.backspace_notMem {cs : List Char} {d : Char} (h : Typable (cs ++ [d])) (hd : d ≠ '\n') :
    ∀ l ∈ lines (cs ++ [d]), Typed.backspace ∉ l := fun _ hl hb =>
  h.backspace (mem_of_mem_lines hd h.returns hl hb (by decide))

theorem feed_ofList (h : Typed.backspace ∉ l) : s.feed (String.ofList l) = s.take l := by
  rw [feed, String.toList_ofList, typed?_of_no_backspace h]

theorem feedAll_of_reading {line : String} {s' : Shell} {p : Printed} (h : s.feed line = (s', p))
    (hs' : s'.phase = .reading) (rest : List String) :
    s.feedAll (line :: rest) = ((s'.feedAll rest).1, p ++ (s'.feedAll rest).2) := by
  simp only [feedAll, h, if_pos hs']

/-- A line that is no command and not blank is collected; if it ends in a semicolon, the statement is carried out. -/
theorem take_of_statement (hstart : s.pending ≠ "" ∨ (trim l).head? ≠ some '.') (hl : trim l ≠ []) :
    s.take l =
      if (trim l).getLast? = some ';' then { s with pending := "" }.runText (s.pending ++ String.ofList l ++ "\n")
      else ({ s with pending := s.pending ++ String.ofList l ++ "\n" }, {}) := by
  have hcommand : (s.pending.isEmpty && (trim l).head? == some '.') = false := by
    rcases hstart with h | h <;> simp [h]
  have hblank : (trim l).isEmpty = false := by simpa using hl
  simp only [take, hcommand, hblank, Bool.false_eq_true, if_false, beq_iff_eq]
  rfl

/-- Lines in the middle of a statement are collected. -/
theorem feedAll_middle (rest : List String) : ∀ {ls : List (List Char)} {s : Shell}, s.phase = .reading →
    (∀ l ∈ ls, Typed.backspace ∉ l ∧ GoesOn l) →
    (s.pending ≠ "" ∨ ∀ l ∈ ls.head?, (trim l).head? ≠ some '.') →
    s.feedAll (ls.map String.ofList ++ rest) =
      { s with pending := s.pending ++ String.ofList (ls.flatMap (· ++ ['\n'])) }.feedAll rest
  | [], s, _, _, _ => by
    rw [List.flatMap_nil, String.ofList_nil, String.append_empty]
    rfl
  | l :: ls, s, hs, hls, hstart => by
    obtain ⟨⟨hback, hgoes⟩, hls⟩ := List.forall_mem_cons.1 hls
    have hstart' : s.pending ≠ "" ∨ (trim l).head? ≠ some '.' := hstart.imp_right fun h => h l rfl
    have hfeed : s.feed (String.ofList l) = ({ s with pending := s.pending ++ String.ofList l ++ "\n" }, {}) := by
      rw [feed_ofList hback, take_of_statement hstart' hgoes.1, if_neg hgoes.2]
    have hpending : s.pending ++ String.ofList l ++ "\n" ≠ "" := by simp
    have ih := feedAll_middle rest (s := { s with pending := s.pending ++ String.ofList l ++ "\n" }) hs hls
      (.inl hpending)
    have hcollected : s.pending ++ String.ofList l ++ "\n" ++ String.ofList (ls.flatMap (· ++ ['\n'])) =
        s.pending ++ String.ofList ((l :: ls).flatMap (· ++ ['\n'])) := by
      rw [List.flatMap_cons, String.ofList_append, String.ofList_append, String.append_assoc, String.append_assoc,
        String.append_assoc]
    rw [List.map_cons, List.cons_append, feedAll_of_reading hfeed hs, Printed.empty_append, ih]
    rw [hcollected]

/-- Only what stands between the blanks at its ends matters of a text that is carried out. -/
theorem runText_congr {t t' : String} (h : trim t.toList = trim t'.toList) : s.runText t = s.runText t' := by
  rw [runText, runText, h]

/-- Carrying out a text leaves a shell in its phase. -/
theorem phase_runText (s : Shell) (t : String) : (s.runText t).1.phase = s.phase := by
  unfold runText
  dsimp only
  split
  · rfl
  · unfold perform
    split <;> rfl

/-- Of a text that starts with neither a blank nor a dot, the lines before one are collected. -/
theorem feedAll_collecting {c : Char} {cs : List Char} {ls more : List (List Char)} (hc : isBlank c = false ∧ c ≠ '.')
    (hlines : lines (c :: cs) = ls ++ l :: more)
    (hls : ∀ x ∈ ls, Typed.backspace ∉ x ∧ GoesOn x) (hpending : s.pending = "")
    (hs : s.phase = .reading) (rest : List String) :
    s.feedAll ((lines (c :: cs)).map String.ofList ++ rest) =
      { s with pending := String.ofList (ls.flatMap (· ++ ['\n'])) }.feedAll
        (String.ofList l :: (more.map String.ofList ++ rest)) ∧
    (String.ofList (ls.flatMap (· ++ ['\n'])) ≠ "" ∨ (trim l).head? ≠ some '.') := by
  obtain ⟨first, others, hfirst⟩ := exists_cons_lines (inLine_of_not_isBlank hc.1) cs
  have hcommand : (trim (c :: first)).head? ≠ some '.' := by
    rw [head?_trim hc.1]
    exact fun he => hc.2 (Option.some.inj he)
  have hmiddle := feedAll_middle (String.ofList l :: (more.map String.ofList ++ rest)) hs hls
  rw [hpending, String.empty_append] at hmiddle
  rw [hlines, List.map_append, List.append_assoc]
  rw [hlines] at hfirst
  cases ls with
  | nil =>
    cases hfirst
    exact ⟨hmiddle (.inr fun _ he => nomatch he), .inr hcommand⟩
  | cons x ls =>
    cases hfirst
    exact ⟨hmiddle (.inr fun y hy => by cases hy; exact hcommand), .inl (by simp)⟩

/-- **A statement whose lines are collected is carried out as it stands.** -/
theorem feedAll_statement {c : Char} {cs : List Char} (hc : isBlank c = false ∧ c ≠ '.')
    (htypable : Typable (c :: (cs ++ [';']))) (hunbroken : Unbroken (c :: (cs ++ [';']))) (hpending : s.pending = "")
    (hs : s.phase = .reading) (rest : List String) :
    s.feedAll ((lines (c :: (cs ++ [';']))).map String.ofList ++ rest) =
      let r := s.runText (String.ofList (c :: (cs ++ [';'])))
      ((r.1.feedAll rest).1, r.2 ++ (r.1.feedAll rest).2) := by
  have htypable : Typable (c :: cs ++ [';']) := htypable
  obtain ⟨ls, l, hlines⟩ := exists_lines_concat (by decide) htypable.returns
  have hplain : ∀ x ∈ ls ++ [l ++ [';']], Typed.backspace ∉ x := hlines ▸ htypable.backspace_notMem (by decide)
  have hls : ∀ x ∈ ls, Typed.backspace ∉ x ∧ GoesOn x := fun x hx =>
    ⟨hplain x (List.mem_append_left _ hx), hunbroken x (by rwa [← List.cons_append, hlines, List.dropLast_concat])⟩
  obtain ⟨hfeed, hstart⟩ := feedAll_collecting hc hlines hls hpending hs rest
  have hend := getLast?_trim (d := ';') (by decide) l
  have hne : trim (l ++ [';']) ≠ [] := fun he => by
    rw [he] at hend
    cases hend
  have hcollected : String.ofList (ls.flatMap (· ++ ['\n'])) ++ String.ofList (l ++ [';']) ++ "\n" =
      String.ofList (c :: cs ++ [';', '\n']) := by
    have htext := flatMap_lines (by decide) htypable.returns
    rw [hlines, List.flatMap_append, List.flatMap_singleton] at htext
    have hline : String.ofList (l ++ [';']) ++ "\n" = String.ofList (l ++ [';'] ++ ['\n']) := String.ofList_append.symm
    rw [String.append_assoc, hline, ← String.ofList_append, htext]
  have htrim : trim (String.ofList (c :: cs ++ [';', '\n'])).toList =
      trim (String.ofList (c :: (cs ++ [';']))).toList := by
    have hblank := trim_append_blank (d := '\n') (by decide) (c :: cs ++ [';'])
    rw [List.append_assoc] at hblank
    rw [String.toList_ofList, String.toList_ofList]
    exact hblank
  obtain ⟨settings, session, pending, phase⟩ := s
  obtain rfl : pending = "" := hpending
  obtain rfl : phase = .reading := hs
  have htake := take_of_statement (s := ⟨settings, session, String.ofList (ls.flatMap (· ++ ['\n'])), .reading⟩)
    hstart hne
  rw [if_pos hend, hcollected, runText_congr htrim] at htake
  refine hfeed.trans (feedAll_of_reading ((feed_ofList (hplain _ ?_)).trans htake) (phase_runText _ _) rest)
  exact List.mem_append_right _ List.mem_cons_self

/-! ### Statements that are broken -/

/-- A blank line ends the statement before it. -/
theorem take_of_blank (hl : trim l = []) (hpending : s.pending ≠ "") :
    s.take l = { s with pending := "" }.runText s.pending := by
  have hpending' : s.pending.isEmpty = false := by simpa using hpending
  simp only [take, hl, hpending', flush]
  rfl

/-- A text that is broken has a first line that breaks it. -/
theorem exists_of_not_unbroken {text : List Char} (h : ¬Unbroken text) :
    ∃ ls l more, lines text = ls ++ l :: more ∧ more ≠ [] ∧ (∀ x ∈ ls, GoesOn x) ∧ ¬GoesOn l := by
  have hfirst : ∀ {L : List (List Char)}, (¬∀ x ∈ L, GoesOn x) →
      ∃ ls l more, L = ls ++ l :: more ∧ (∀ x ∈ ls, GoesOn x) ∧ ¬GoesOn l := by
    intro L hL
    induction L with
    | nil => exact absurd (fun _ hx => nomatch hx) hL
    | cons x L ih =>
      by_cases hx : GoesOn x
      · obtain ⟨ls, l, more, rfl, hls, hl⟩ := ih fun h => hL (List.forall_mem_cons.2 ⟨hx, h⟩)
        exact ⟨x :: ls, l, more, rfl, List.forall_mem_cons.2 ⟨hx, hls⟩, hl⟩
      · exact ⟨[], x, L, rfl, List.forall_mem_nil _, hx⟩
  obtain ⟨ls, l, more, hlines, hls, hl⟩ := hfirst h
  have hne : lines text ≠ [] := fun he => by simp [he] at hlines
  refine ⟨ls, l, more ++ [(lines text).getLast hne], ?_, by simp, hls, hl⟩
  rw [← List.cons_append, ← List.append_assoc, ← hlines, List.dropLast_concat_getLast hne]

/-- **A statement that is broken is carried out up to the end of a line before its last.** -/
theorem feedAll_broken {c : Char} {cs : List Char} (hc : isBlank c = false ∧ c ≠ '.')
    (htypable : Typable (c :: (cs ++ [';']))) (hbroken : ¬Unbroken (c :: (cs ++ [';']))) (hpending : s.pending = "")
    (hs : s.phase = .reading) (rest : List String) : ∃ front back rest', c :: (cs ++ [';']) = front ++ '\n' :: back ∧
      s.feedAll ((lines (c :: (cs ++ [';']))).map String.ofList ++ rest) =
        let r := s.runText (String.ofList front)
        ((r.1.feedAll rest').1, r.2 ++ (r.1.feedAll rest').2) := by
  have htypable : Typable (c :: cs ++ [';']) := htypable
  obtain ⟨ls, l, more, hlines, hmore, hgood, hbad⟩ := exists_of_not_unbroken hbroken
  have hplain : ∀ x ∈ ls ++ l :: more, Typed.backspace ∉ x := hlines ▸ htypable.backspace_notMem (by decide)
  have hls : ∀ x ∈ ls, Typed.backspace ∉ x ∧ GoesOn x := fun x hx =>
    ⟨hplain x (List.mem_append_left _ hx), hgood x hx⟩
  obtain ⟨hfeed, hstart⟩ := feedAll_collecting hc hlines hls hpending hs rest
  have hline : ∀ x : List Char, trim (String.ofList (x ++ ['\n'])).toList = trim (String.ofList x).toList := fun x => by
    rw [String.toList_ofList, String.toList_ofList, trim_append_blank (by decide)]
  obtain ⟨settings, session, pending, phase⟩ := s
  obtain rfl : pending = "" := hpending
  obtain rfl : phase = .reading := hs
  have hback : Typed.backspace ∉ l := hplain l (List.mem_append_right _ List.mem_cons_self)
  by_cases hblank : trim l = []
  · -- the line is blank, so what was collected is carried out
    rcases List.eq_nil_or_concat ls with rfl | ⟨ls, x, rfl⟩
    · obtain ⟨first, others, hfirst⟩ := exists_cons_lines (inLine_of_not_isBlank hc.1) (cs ++ [';'])
      cases hlines.symm.trans hfirst
      exact absurd hblank (trim_ne_nil hc.1 first)
    · rw [List.concat_eq_append] at hlines hfeed
      rw [List.append_assoc] at hlines
      obtain ⟨back, htext⟩ := exists_back (by decide) htypable.returns hlines (List.cons_ne_nil _ _)
      have hcollected : (ls ++ [x]).flatMap (· ++ ['\n']) = ls.flatMap (· ++ ['\n']) ++ x ++ ['\n'] := by simp
      rw [hcollected] at hfeed
      have htake := take_of_blank (s := ⟨settings, session, String.ofList (ls.flatMap (· ++ ['\n']) ++ x ++ ['\n']),
        .reading⟩) hblank (by simp)
      rw [runText_congr (hline _)] at htake
      exact ⟨_, back, _, htext,
        hfeed.trans (feedAll_of_reading ((feed_ofList hback).trans htake) (phase_runText _ _) _)⟩
  · -- the line ends in a semicolon
    have hend : (trim l).getLast? = some ';' := by_contra fun hend => hbad ⟨hblank, hend⟩
    obtain ⟨back, htext⟩ := exists_back (by decide) htypable.returns hlines hmore
    have hcollected : String.ofList (ls.flatMap (· ++ ['\n'])) ++ String.ofList l ++ "\n" =
        String.ofList (ls.flatMap (· ++ ['\n']) ++ l ++ ['\n']) := by
      rw [String.ofList_append, String.ofList_append]
    have htake := take_of_statement (s := ⟨settings, session, String.ofList (ls.flatMap (· ++ ['\n'])), .reading⟩)
      hstart hblank
    rw [if_pos hend, hcollected, runText_congr (hline _)] at htake
    exact ⟨_, back, _, htext, hfeed.trans (feedAll_of_reading ((feed_ofList hback).trans htake) (phase_runText _ _) _)⟩

end Shell

end TableStore
