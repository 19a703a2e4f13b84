/-!
# Texts as bytes

- `byteLength` is the number of bytes of a text in UTF-8, and adds up over pieces (`byteLength_append`);
- `slice? s a b` is the part of `s` from byte `a` up to byte `b`; there is none when `b` comes before `a` or one of
  them is not the start of a character or the end of the text;
- texts are ordered by their bytes (`compareBytes`).
-/

namespace TableStore.Text

/-- The number of bytes of a text. -/
def byteLength : List Char → Nat
  | [] => 0
  | c :: cs => c.utf8Size + byteLength cs

@[simp] theorem byteLength_nil : byteLength [] = 0 := rfl

@[simp] theorem byteLength_cons (c : Char) (cs : List Char) : byteLength (c :: cs) = c.utf8Size + byteLength cs :=
  rfl

@[simp] theorem byteLength_append (cs ds : List Char) : byteLength (cs ++ ds) = byteLength cs + byteLength ds := by
  induction cs with
  | nil => simp
  | cons c cs ih => simp [ih, Nat.add_assoc]

/-- The text from a byte on. -/
def dropBytes? : Nat → List Char → Option (List Char)
  | 0, cs => some cs
  | _ + 1, [] => none
  | n + 1, c :: cs => if c.utf8Size ≤ n + 1 then dropBytes? (n + 1 - c.utf8Size) cs else none

/-- The text up to a byte. -/
def takeBytes? : Nat → List Char → Option (List Char)
  | 0, _ => some []
  | _ + 1, [] => none
  | n + 1, c :: cs => if c.utf8Size ≤ n + 1 then (takeBytes? (n + 1 - c.utf8Size) cs).map (c :: ·) else none

/-- The part of a text from byte `start` up to byte `stop`. -/
def slice? (cs : List Char) (start stop : Nat) : Option (List Char) :=
  if start ≤ stop then (dropBytes? start cs).bind (takeBytes? (stop - start)) else none

/-- Bytes after a front are counted from its end. -/
theorem dropBytes?_append (front cs : List Char) (n : Nat) :
    dropBytes? (byteLength front + n) (front ++ cs) = dropBytes? n cs := by
  induction front with
  | nil => simp
  | cons c front ih =>
    have h : c.utf8Size + byteLength front + n = (c.utf8Size - 1 + byteLength front + n) + 1 := by
      have := c.utf8Size_pos
      omega
    rw [byteLength_cons, List.cons_append, h, dropBytes?, if_pos (by omega)]
    rwa [show c.utf8Size - 1 + byteLength front + n + 1 - c.utf8Size = byteLength front + n by
      have := c.utf8Size_pos; omega]

theorem dropBytes?_byteLength (cs ds : List Char) : dropBytes? (byteLength cs) (cs ++ ds) = some ds := by
  have h := dropBytes?_append cs ds 0
  rwa [Nat.add_zero, dropBytes?] at h

theorem takeBytes?_byteLength (cs ds : List Char) : takeBytes? (byteLength cs) (cs ++ ds) = some cs := by
  induction cs with
  | nil => cases ds <;> rfl
  | cons c cs ih =>
    have h : c.utf8Size + byteLength cs = (c.utf8Size - 1 + byteLength cs) + 1 := by
      have := c.utf8Size_pos
      omega
    rw [byteLength_cons, List.cons_append, h, takeBytes?, if_pos (by omega)]
    rw [show c.utf8Size - 1 + byteLength cs + 1 - c.utf8Size = byteLength cs by have := c.utf8Size_pos; omega, ih]
    rfl

/-- A piece between two others is the slice between their bytes. -/
theorem slice?_middle (as cs ds : List Char) :
    slice? (as ++ (cs ++ ds)) (byteLength as) (byteLength as + byteLength cs) = some cs := by
  rw [slice?, if_pos (by omega), dropBytes?_byteLength, Option.bind_some, Nat.add_sub_cancel_left,
    takeBytes?_byteLength]

/-- A slice after a front is the slice of what comes after the front. -/
theorem slice?_append (front cs : List Char) (start stop : Nat) :
    slice? (front ++ cs) (byteLength front + start) (byteLength front + stop) = slice? cs start stop := by
  rw [slice?, slice?, dropBytes?_append]
  simp only [Nat.add_le_add_iff_left, Nat.add_sub_add_left]

/-- The bytes of a text. -/
def bytes (s : String) : List UInt8 := s.toUTF8.data.toList

/-- The order of texts by their bytes. -/
def compareBytes (s t : String) : Ordering := compare (bytes s) (bytes t)

end TableStore.Text
