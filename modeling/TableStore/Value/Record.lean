import TableStore.Value

/-!
# Records

- a record holds values under column names, in the order in which the names were first set; no name occurs twice;
- `set` gives a name a value and leaves its place, `setFirst` moves the name to the front;
- `sameCells` compares records without regard to the order of their names.
-/

namespace TableStore

/-- A record. -/
structure Record where
  /-- The names and values, in order. -/
  cells : List (String × Value)
  /-- No name occurs twice. -/
  distinct : (cells.map Prod.fst).Nodup
  deriving DecidableEq

namespace Record

/-- The value of a name in a list of cells. -/
def findIn (name : String) : List (String × Value) → Option Value
  | [] => none
  | (n, v) :: rest => if n = name then some v else findIn name rest

/-- A list of cells with a name set to a value. -/
def setIn (name : String) (value : Value) : List (String × Value) → List (String × Value)
  | [] => [(name, value)]
  | (n, v) :: rest => if n = name then (n, value) :: rest else (n, v) :: setIn name value rest

/-- A list of cells without a name. -/
def dropIn (name : String) (cells : List (String × Value)) : List (String × Value) :=
  cells.filter fun c => c.1 ≠ name

theorem map_fst_setIn (name : String) (value : Value) (cells : List (String × Value)) :
    (setIn name value cells).map Prod.fst =
      if name ∈ cells.map Prod.fst then cells.map Prod.fst else cells.map Prod.fst ++ [name] := by
  induction cells with
  | nil => simp [setIn]
  | cons c rest ih =>
    obtain ⟨n, v⟩ := c
    by_cases h : n = name
    · simp [setIn, h]
    · have h' : ¬name = n := fun e => h e.symm
      simp only [setIn, if_neg h, List.map_cons, ih, List.mem_cons, h', false_or]
      split <;> simp

theorem nodup_setIn {name : String} {value : Value} {cells : List (String × Value)}
    (h : (cells.map Prod.fst).Nodup) : ((setIn name value cells).map Prod.fst).Nodup := by
  rw [map_fst_setIn]
  split
  · exact h
  · rename_i hn
    rw [List.nodup_append]
    refine ⟨h, by simp, ?_⟩
    intro a ha b hb
    rw [List.mem_singleton] at hb
    exact fun e => hn (hb ▸ e ▸ ha)

theorem nodup_dropIn {name : String} {cells : List (String × Value)} (h : (cells.map Prod.fst).Nodup) :
    ((dropIn name cells).map Prod.fst).Nodup :=
  h.sublist (List.filter_sublist.map _)

/-- The record without names. -/
def empty : Record := ⟨[], List.nodup_nil⟩

instance : Inhabited Record := ⟨empty⟩

/-- The value of a name. -/
def find? (r : Record) (name : String) : Option Value := findIn name r.cells

/-- The value of a name, or NULL. -/
def valueOf (r : Record) (name : String) : Value := (r.find? name).getD .null

/-- The names, in order. -/
def names (r : Record) : List String := r.cells.map Prod.fst

/-- The record with a name set to a value: in its place if the record has it, at the end otherwise. -/
def set (r : Record) (name : String) (value : Value) : Record :=
  ⟨setIn name value r.cells, nodup_setIn r.distinct⟩

/-- The record with a name set to a value and put first. -/
def setFirst (r : Record) (name : String) (value : Value) : Record where
  cells := (name, value) :: dropIn name r.cells
  distinct := by
    rw [List.map_cons, List.nodup_cons]
    refine ⟨?_, nodup_dropIn r.distinct⟩
    intro h
    obtain ⟨c, hc, rfl⟩ := List.mem_map.1 h
    simpa using (List.mem_filter.1 hc).2

/-- The record of a list of cells; a name that comes again gets the later value. -/
def ofList (cells : List (String × Value)) : Record := cells.foldl (fun r c => r.set c.1 c.2) empty

/-- Whether two records have the same names with the same values. -/
def sameCells (r s : Record) : Bool :=
  r.cells.length == s.cells.length && r.cells.all fun c => s.find? c.1 == some c.2

/-- What was just put first is found. -/
theorem find?_setFirst_self (r : Record) (name : String) (value : Value) :
    (r.setFirst name value).find? name = some value := by
  simp [find?, setFirst, findIn]

theorem mem_of_find? {r : Record} {name : String} {v : Value} (h : r.find? name = some v) : (name, v) ∈ r.cells := by
  obtain ⟨cells, hd⟩ := r
  change findIn name cells = some v at h
  show (name, v) ∈ cells
  clear hd
  induction cells with
  | nil => cases h
  | cons c rest ih =>
    rw [findIn] at h
    split at h
    · rename_i hn
      cases h
      rw [← hn]
      exact List.mem_cons_self
    · exact List.mem_cons_of_mem _ (ih h)

/-- The cells after a name was set are the old ones and the new one. -/
theorem of_mem_setIn {name : String} {v : Value} {cell : String × Value} :
    ∀ {cells : List (String × Value)}, cell ∈ setIn name v cells → cell.2 = v ∨ cell ∈ cells
  | [], h => by
    cases List.mem_singleton.1 h
    exact .inl rfl
  | c :: cells, h => by
    rw [setIn] at h
    split at h
    · rcases List.mem_cons.1 h with rfl | h
      · exact .inl rfl
      · exact .inr (List.mem_cons_of_mem _ h)
    · rcases List.mem_cons.1 h with rfl | h
      · exact .inr List.mem_cons_self
      · exact (of_mem_setIn h).imp_right (List.mem_cons_of_mem _)

theorem findIn_setIn {name : String} {v : Value} (n : String) : ∀ cells : List (String × Value),
    findIn n (setIn name v cells) = if name = n then some v else findIn n cells
  | [] => rfl
  | (m, w) :: cells => by
    have ih : findIn n (setIn name v cells) = if name = n then some v else findIn n cells := findIn_setIn n cells
    rw [setIn]
    by_cases hm : m = name
    · subst hm
      by_cases hn : m = n <;> simp [findIn, hn]
    · by_cases hn : m = n
      · subst hn
        simp [findIn, hm, Ne.symm hm]
      · simp only [if_neg hm, findIn, if_neg hn, ih]

theorem valueOf_set (r : Record) (name : String) (v : Value) (n : String) :
    (r.set name v).valueOf n = if name = n then v else r.valueOf n := by
  rw [valueOf, find?, set, findIn_setIn]
  split <;> rfl

end Record

end TableStore
