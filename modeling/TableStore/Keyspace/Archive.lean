import TableStore.Keyspace
import TableStore.Text.Blank
import TableStore.Text.Lines

/-!
# Keyspaces as files

- an archive holds a keyspace line by line, every line a list of JSON strings that starts with the kind of the line;
- `archive` writes it and `ofArchive?` reads it back; a line of another form makes the whole unreadable.
-/

namespace TableStore.Keyspace

/-! ## Lines -/

/-- A line of texts. -/
def writeLine (ts : List String) : List Char :=
  ts.foldr (fun t rest => Json.writeText t.toList ++ ' ' :: rest) ['\n']

/-- The texts of a line. -/
def readLine? : Nat → List Char → Option (List String)
  | 0, _ => none
  | fuel + 1, cs =>
    match cs.dropWhile (· == ' ') with
    | [] => some []
    | '"' :: cs => do
      let (t, cs) ← Json.readRest? false cs
      let ts ← readLine? fuel cs
      return String.ofList t :: ts
    | _ => none

/-- The record lines of a partition. -/
def recordLines (partition : Nat × OrderedMap String String) : List (List String) :=
  partition.2.entries.map fun e => ["record", toString partition.1, e.1, e.2]

/-- The line of a container. -/
def shelfLine (e : String × Shelf) : List String :=
  ["container", e.1, toString e.2.partition, e.2.keyPath, toString e.2.autoIncrement, toString e.2.nextKey.toInt]

/-- The lines of a keyspace. -/
def archiveLines (k : Keyspace) : List (List String) :=
  (k.version.toList.map fun v => ["version", toString v]) ++
    ["partition", toString k.nextPartition] ::
      (k.shelves.entries.map shelfLine ++ k.tables.entries.map (fun t => ["table", t.1, t.2]) ++
        k.partitions.entries.flatMap recordLines)

/-! ## Archives -/

/-- The keyspace as a text. -/
def archive (k : Keyspace) : String := String.ofList (k.archiveLines.flatMap writeLine)

/-- The keyspace with what a line says. -/
def withLine? (k : Keyspace) : List String → Option Keyspace
  | ["version", v] => v.toNat?.map fun v => { k with version := some v }
  | ["partition", n] => n.toNat?.map fun n => { k with nextPartition := n }
  | ["container", name, n, keyPath, autoIncrement, next] => do
    let n ← n.toNat?
    let next ← next.toInt?
    let shelf := ⟨n, keyPath, autoIncrement == "true", Int64.ofInt next⟩
    return { k with shelves := k.shelves.insert name shelf, partitions := k.partitions.insert n (k.texts n) }
  | ["table", name, text] => some { k with tables := k.tables.insert name text }
  | ["record", n, key, text] => do
    let n ← n.toNat?
    return { k with partitions := k.partitions.insert n ((k.texts n).insert key text) }
  | _ => none

/-- The keyspace of a text. -/
def ofArchive? (text : String) : Option Keyspace :=
  (Text.lines text.toList).foldlM (fun k line => (readLine? (line.length + 1) line).bind k.withLine?) {}

end TableStore.Keyspace
