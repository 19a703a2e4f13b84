/-!
# Quoted texts

- inside quotes the quote character is written twice (`double`);
- `enclose` puts a text between quotes; `readQuoted` reads what follows an opening quote up to the quote that closes
  it, and gives back the text and what comes after (`readQuoted_double`).
-/

namespace TableStore.Text

/-- A text with every quote character written twice. -/
def double (q : Char) : List Char → List Char
  | [] => []
  | c :: cs => if c = q then q :: q :: double q cs else c :: double q cs

/-- A text between quotes. -/
def enclose (q : Char) (cs : List Char) : List Char := q :: (double q cs ++ [q])

/-- The text after an opening quote up to the closing one, and the rest; nothing if no quote closes it. -/
def readQuoted (q : Char) : List Char → Option (List Char × List Char)
  | [] => none
  | [c] => if c = q then some ([], []) else none
  | c :: d :: cs =>
    if c = q then
      if d = q then (readQuoted q cs).map fun r => (q :: r.1, r.2) else some ([], d :: cs)
    else (readQuoted q (d :: cs)).map fun r => (c :: r.1, r.2)

/-- The text of a span that is quoted from its first character to its last. -/
def unquote? (q : Char) : List Char → Option (List Char)
  | [] => none
  | c :: cs =>
    if c = q then
      match readQuoted q cs with
      | some (s, []) => some s
      | _ => none
    else none

/-- A text written between quotes is read back, unless another quote follows. -/
theorem readQuoted_double (q : Char) (s rest : List Char) (h : rest.head? ≠ some q) :
    readQuoted q (double q s ++ q :: rest) = some (s, rest) := by
  induction s with
  | nil =>
    cases rest with
    | nil => simp [double, readQuoted]
    | cons d rest =>
      have hd : d ≠ q := fun e => h (by simp [e])
      simp [double, readQuoted, hd]
  | cons c s ih =>
    by_cases hc : c = q
    · subst hc
      simp [double, readQuoted, ih]
    · have hne : ∃ d ds, double q s ++ q :: rest = d :: ds := by
        cases hs : double q s with
        | nil => exact ⟨q, rest, rfl⟩
        | cons d ds => exact ⟨d, ds ++ q :: rest, rfl⟩
      obtain ⟨d, ds, hds⟩ := hne
      rw [double, if_neg hc, List.cons_append, hds, readQuoted, if_neg hc, ← hds, ih]
      rfl

/-- A text between quotes is the text of its span. -/
theorem unquote?_enclose (q : Char) (s : List Char) : unquote? q (enclose q s) = some s := by
  simp [enclose, unquote?, readQuoted_double q s [] (by simp)]

end TableStore.Text
