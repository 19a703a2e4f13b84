/-!
# Lines

- `lines` cuts a text into its lines; a line ends with a line feed, before which one carriage return is taken off,
  and the last line may lack its end.
-/

namespace TableStore.Text

/-- The lines of a text, without their ends. -/
def lines : List Char → List (List Char)
  | [] => []
  | '\n' :: cs => [] :: lines cs
  | '\r' :: '\n' :: cs => [] :: lines cs
  | c :: cs =>
    match lines cs with
    | [] => [[c]]
    | l :: ls => (c :: l) :: ls

example : lines "a\r\n\nb\r".toList = [['a'], [], ['b', '\r']] := by decide
example : lines "\r\r\n".toList = [['\r']] := by decide

end TableStore.Text
