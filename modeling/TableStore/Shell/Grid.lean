import TableStore.ResultSet

/-!
# Result sets as grids

- rows are drawn below the names of their columns, between rules; every column is as wide as its longest text, counted
  in characters, names stand in the middle and values on the right (`grid`);
- the number of rows follows; a result set without columns and rows is not drawn at all.
-/

namespace TableStore.Shell

/-- Widths made large enough for the texts of a row. -/
def widen : List Nat → List String → List Nat
  | w :: ws, t :: ts => max w t.length :: widen ws ts
  | ws, _ => ws

/-- The widths of the columns. -/
def widths (columns : List String) (rows : List (List String)) : List Nat :=
  rows.foldl widen (columns.map String.length)

/-- Blanks. -/
def blanks (n : Nat) : String := "".pushn ' ' n

/-- A text in the middle of a width; an odd blank goes to the right. -/
def centered (t : String) (width : Nat) : String :=
  let gap := width - t.length
  blanks (gap / 2) ++ t ++ blanks (gap - gap / 2)

/-- A text on the right of a width. -/
def flushed (t : String) (width : Nat) : String := blanks (width - t.length) ++ t

/-- A rule. -/
def rule (ws : List Nat) : String :=
  "+" ++ String.intercalate "+" (ws.map fun w => "".pushn '-' (w + 2)) ++ "+\n"

/-- A line of texts, as many as there are widths. -/
def line (place : String → Nat → String) (ts : List String) (ws : List Nat) : String :=
  "|" ++ String.intercalate "|" (List.zipWith (fun t w => " " ++ place t w ++ " ") ts ws) ++ "|\n"

/-- A result set as a grid. -/
def grid (columns : List String) (rows : List (List Value)) : String :=
  if columns.isEmpty && rows.isEmpty then ""
  else
    let rows := rows.map (·.map Value.display)
    let ws := widths columns rows
    rule ws ++ line centered columns ws ++ rule ws ++ String.join (rows.map fun r => line flushed r ws) ++
      (if rows.isEmpty then "" else rule ws) ++ toString rows.length ++ " row(s) returned\n"

end TableStore.Shell
