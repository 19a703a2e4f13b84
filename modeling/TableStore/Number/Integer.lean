/-!
# Integers of 64 bits

- `int64?` gives the integer of 64 bits that an integer is, if it is in their range.
-/

namespace TableStore

/-- The integer of 64 bits that an integer is. -/
def int64? (i : Int) : Option Int64 :=
  if Int64.minValue.toInt ≤ i ∧ i ≤ Int64.maxValue.toInt then some (Int64.ofInt i) else none

/-- It is the same integer. -/
theorem toInt_of_int64? {i : Int} {n : Int64} (h : int64? i = some n) : n.toInt = i := by
  unfold int64? at h
  split at h
  · rename_i hi
    obtain rfl := Option.some.inj h
    exact Int64.toInt_ofInt_of_le hi.1 (Int.lt_add_one_of_le hi.2)
  · cases h

/-- Every integer of 64 bits is in the range. -/
theorem int64?_toInt (n : Int64) : int64? n.toInt = some n := by
  unfold int64?
  rw [if_pos ⟨Int64.minValue_le_toInt n, Int64.toInt_le n⟩, Int64.ofInt_toInt]

example : int64? 9223372036854775807 = some 9223372036854775807 ∧ int64? 9223372036854775808 = none := by decide
example : int64? (-9223372036854775808) = some (-9223372036854775808) := by decide
example : int64? (-9223372036854775809) = none := by decide

end TableStore
