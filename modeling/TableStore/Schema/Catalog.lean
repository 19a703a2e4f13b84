import TableStore.OrderedMap
import TableStore.Schema.Table

/-!
# Catalogs

- a catalog files table definitions under their names, in the order of the names (`Catalog.put`).
-/

namespace TableStore

/-- The table definitions by name. -/
structure Catalog where
  tables : OrderedMap String Table := .empty
  deriving DecidableEq, Repr

namespace Catalog

/-- The definition of a table. -/
def find? (c : Catalog) (name : String) : Option Table := c.tables.find? name

/-- Whether a table is defined. -/
def contains (c : Catalog) (name : String) : Bool := c.tables.contains name

/-- All definitions, in the order of the names. -/
def list (c : Catalog) : List Table := c.tables.values

/-- The catalog with a definition filed under its name, in place of the one that was there. -/
def put (c : Catalog) (t : Table) : Catalog := ⟨c.tables.insert t.name t⟩

/-- The catalog without a table. -/
def erase (c : Catalog) (name : String) : Catalog := ⟨c.tables.erase name⟩

/-- The number of definitions. -/
def size (c : Catalog) : Nat := c.tables.size

/-- The catalog of a list of definitions. -/
def ofList (ts : List Table) : Catalog := ts.foldl put {}

/-- A table that was just defined is found. -/
theorem find?_put_self (c : Catalog) (t : Table) : (c.put t).find? t.name = some t :=
  OrderedMap.find?_insert_self c.tables t.name t

end Catalog

end TableStore
