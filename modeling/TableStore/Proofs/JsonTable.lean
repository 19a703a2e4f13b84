import TableStore.Json.Table
import TableStore.Proofs.JsonRecord

/-!
# JSON table definitions read back

- an object of two members is read as the two, in the order in which they were written (`readFields?_commas`);
- a table definition is read as itself with the types that the texts of its types describe, and not at all if one of
  these texts is refused (`readTable?_writeTable`).
-/

namespace TableStore

/-- The type that the text of a type describes, if it describes one. -/
def ColumnType.reread? (t : ColumnType) : Option ColumnType := (ColumnType.read t.display.toList).toOption

/-- The column with its type read from the text of the type. -/
def Column.reread? (c : Column) : Option Column := c.type.reread?.map fun t => ⟨c.name, t⟩

/-- The table definition with the types of its columns read from their texts. -/
def Table.reread? (t : Table) : Option Table := (t.columns.mapM Column.reread?).map fun cs => ⟨t.name, cs⟩

namespace Json

variable {α β : Type}

/-! ## Two members -/

/-- The two members as far as they have been read, with the first one or the second. -/
def Fields.with? (a? : Option α) (b? : Option β) (f : Fields α β) : Bool → Option (Fields α β)
  | true => if f.first.isSome then none else a?.map fun a => ⟨some a, f.second⟩
  | false => if f.second.isSome then none else b?.map fun b => ⟨f.first, some b⟩

/-- Two members of different names read back. -/
theorem readFields?_commas {first second : String} (hne : second ≠ first)
    {readFirst : List Char → Option (α × List Char)} {readSecond : List Char → Option (β × List Char)}
    {v w : List Char} {a? : Option α} {b? : Option β}
    (hv : ∀ rest, Stops rest → readFirst (v ++ rest) = a?.map fun a => (a, rest))
    (hw : ∀ rest, Stops rest → readSecond (w ++ rest) = b?.map fun b => (b, rest)) (rest : List Char) :
    readFields? first.toList second.toList readFirst readSecond
        (commas [writeMember first v, writeMember second w] ++ '}' :: rest) =
      a?.bind fun a => b?.map fun b => ((a, b), rest) := by
  have htakes : Takes (readField? first.toList second.toList readFirst readSecond)
      (fun isFirst => cond isFirst first second) (fun isFirst => cond isFirst v w) (Fields.with? a? b?) := by
    intro f isFirst rest hr
    cases isFirst with
    | true =>
      simp only [readField?, cond_true, if_true, hv rest hr, Fields.with?]
      cases f.first <;> cases a? <;> rfl
    | false =>
      have hne' : second.toList ≠ first.toList := fun h => hne (String.toList_injective h)
      simp only [readField?, cond_false, if_neg hne', if_true, hw rest hr, Fields.with?]
      cases f.second <;> cases b? <;> rfl
  have hmembers := readMembers?_commas htakes {} [true, false] rest
  simp only [List.map_cons, List.map_nil, cond_true, cond_false] at hmembers
  rw [readFields?, hmembers]
  cases a? with
  | none => rfl
  | some a => cases b? <;> rfl

/-- An object of two members reads back. -/
theorem readParts?_writeObject {first second : String} (hne : second ≠ first)
    {readFirst : List Char → Option (α × List Char)} {readSecond : List Char → Option (β × List Char)}
    {v w : List Char} {a? : Option α} {b? : Option β}
    (hv : ∀ rest, Stops rest → readFirst (v ++ rest) = a?.map fun a => (a, rest))
    (hw : ∀ rest, Stops rest → readSecond (w ++ rest) = b?.map fun b => (b, rest)) (rest : List Char) :
    readParts? first.toList second.toList readFirst readSecond
        (writeObject [writeMember first v, writeMember second w] ++ rest) =
      a?.bind fun a => b?.map fun b => ((a, b), rest) := by
  rw [← readFields?_commas hne hv hw rest, readParts?, writeObject, List.cons_append, List.append_assoc,
    skipSpace_of_not_space (by decide)]
  rfl

/-! ## Tables -/

theorem readText?_writeText (s : String) (rest : List Char) :
    readText? (writeText s.toList ++ rest) = (some s).map fun s => (s, rest) := by
  simp only [readText?, expect?_writeText, Option.bind_eq_bind, Option.bind_some, readRest?_flatMap_escape,
    String.ofList_toList]
  rfl

theorem readType?_writeText (t : ColumnType) (rest : List Char) :
    readType? (writeText t.display.toList ++ rest) = t.reread?.map fun t => (t, rest) := by
  rw [readType?, readText?_writeText, ColumnType.reread?]
  simp only [Option.map_some, Option.bind_eq_bind, Option.bind_some]
  cases ColumnType.read t.display.toList <;> rfl

theorem readColumn?_writeColumn (c : Column) (rest : List Char) :
    readColumn? (writeColumn c ++ rest) = c.reread?.map fun c => (c, rest) := by
  have hparts := readParts?_writeObject (show "type" ≠ "name" by decide)
    (fun rest _ => readText?_writeText c.name rest) (fun rest _ => readType?_writeText c.type rest) rest
  rw [readColumn?, writeColumn, hparts, Column.reread?]
  cases c.type.reread? <;> rfl

theorem readColumns?_writeArray (cs : List Column) (rest : List Char) :
    readColumns? (writeArray (cs.map writeColumn) ++ rest) =
      (cs.mapM Column.reread?).map fun cs => (cs, rest) := by
  have hitems : readItems? readColumn? (commas (cs.map writeColumn) ++ ']' :: rest) =
      (cs.mapM Column.reread?).map fun cs => (cs, rest) := by
    refine readItems?_commas (fun c rest _ => readColumn?_writeColumn c rest) (fun c => ?_) cs rest
    exact ⟨'{', _, rfl, by decide, by decide⟩
  rw [readColumns?, writeArray, List.cons_append, List.append_assoc, expect?_self (by decide), Option.bind_some]
  exact hitems

/-- **The text of a table definition is read as the definition with its types reread.** -/
theorem readTable?_writeTable (t : Table) : readTable? (writeTable t) = t.reread? := by
  have hparts := readParts?_writeObject (show "columns" ≠ "name" by decide)
    (fun rest _ => readText?_writeText t.name rest) (fun rest _ => readColumns?_writeArray t.columns rest) []
  rw [List.append_nil] at hparts
  rw [readTable?, whole?, writeTable, hparts, Table.reread?]
  cases t.columns.mapM Column.reread? <;> rfl

end Json

end TableStore
