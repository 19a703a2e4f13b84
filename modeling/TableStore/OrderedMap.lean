/-!
# Maps kept in the order of their keys

- an `OrderedMap` is the list of its entries; `insert` puts a new key in its place and gives an old key a new
  value, leaving the key itself as it was first written;
- `find?`, `erase` and `insert` walk the list from its least key and stop where the order says that the key is
  not further on (`findEntry?`);
- `Ascending` says that the keys are strictly increasing in the order of `compare`.
-/

namespace TableStore

universe u v w

/-- A finite map, as the list of its entries from the least key to the greatest. -/
structure OrderedMap (κ : Type u) (α : Type v) where
  /-- The entries in ascending order of their keys. -/
  entries : List (κ × α)
  deriving DecidableEq, Repr

namespace OrderedMap

variable {κ : Type u} {α : Type v} {β : Type w}

/-! ## Entries -/

/-- The entry of a key, with the key as it is held. -/
def findIn [Ord κ] (k : κ) : List (κ × α) → Option (κ × α)
  | [] => none
  | (k', a) :: rest =>
    match compare k k' with
    | .lt => none
    | .eq => some (k', a)
    | .gt => findIn k rest

/-- The entries with a key set to a value. -/
def insertIn [Ord κ] (k : κ) (a : α) : List (κ × α) → List (κ × α)
  | [] => [(k, a)]
  | (k', a') :: rest =>
    match compare k k' with
    | .lt => (k, a) :: (k', a') :: rest
    | .eq => (k', a) :: rest
    | .gt => (k', a') :: insertIn k a rest

/-- The entries without a key. -/
def eraseIn [Ord κ] (k : κ) : List (κ × α) → List (κ × α)
  | [] => []
  | (k', a') :: rest =>
    match compare k k' with
    | .lt => (k', a') :: rest
    | .eq => rest
    | .gt => (k', a') :: eraseIn k rest

/-! ## Maps -/

/-- The map without entries. -/
def empty : OrderedMap κ α := ⟨[]⟩

instance : Inhabited (OrderedMap κ α) := ⟨empty⟩

/-- The held key and the value of a key. -/
def findEntry? [Ord κ] (m : OrderedMap κ α) (k : κ) : Option (κ × α) := findIn k m.entries

/-- The value of a key. -/
def find? [Ord κ] (m : OrderedMap κ α) (k : κ) : Option α := (m.findEntry? k).map Prod.snd

/-- Whether a key has a value. -/
def contains [Ord κ] (m : OrderedMap κ α) (k : κ) : Bool := (m.findEntry? k).isSome

/-- The map with a key set to a value. -/
def insert [Ord κ] (m : OrderedMap κ α) (k : κ) (a : α) : OrderedMap κ α := ⟨insertIn k a m.entries⟩

/-- The map without a key. -/
def erase [Ord κ] (m : OrderedMap κ α) (k : κ) : OrderedMap κ α := ⟨eraseIn k m.entries⟩

/-- The keys in ascending order. -/
def keys (m : OrderedMap κ α) : List κ := m.entries.map Prod.fst

/-- The values in the order of their keys. -/
def values (m : OrderedMap κ α) : List α := m.entries.map Prod.snd

/-- The number of keys. -/
def size (m : OrderedMap κ α) : Nat := m.entries.length

/-- Whether there is no key. -/
def isEmpty (m : OrderedMap κ α) : Bool := m.entries.isEmpty

/-- The map with every value changed by a function. -/
def mapValues (f : α → β) (m : OrderedMap κ α) : OrderedMap κ β := ⟨m.entries.map fun e => (e.1, f e.2)⟩

/-- The map of a list of entries; of two entries with equal keys the later one gives the value. -/
def ofList [Ord κ] (l : List (κ × α)) : OrderedMap κ α := l.foldl (fun m e => m.insert e.1 e.2) empty

/-- The keys are strictly increasing. -/
def Ascending [Ord κ] (m : OrderedMap κ α) : Prop := m.keys.Pairwise fun a b => compare a b = .lt

/-! ## First lemmas -/

@[simp] theorem entries_empty : (empty : OrderedMap κ α).entries = [] := rfl

/-- A key that was just set is found. -/
theorem findIn_insertIn_self [Ord κ] [Std.ReflOrd κ] (k : κ) (a : α) :
    ∀ l : List (κ × α), (findIn k (insertIn k a l)).map Prod.snd = some a
  | [] => by simp [insertIn, findIn, Std.ReflOrd.compare_self]
  | (k', a') :: rest => by
    rw [insertIn]
    split
    · simp [findIn, Std.ReflOrd.compare_self]
    · simp [findIn, *]
    · simp only [findIn, *]
      exact findIn_insertIn_self k a rest

/-- What was just set is found. -/
theorem find?_insert_self [Ord κ] [Std.ReflOrd κ] (m : OrderedMap κ α) (k : κ) (a : α) :
    (m.insert k a).find? k = some a :=
  findIn_insertIn_self k a m.entries

/-- Setting a key in an ascending list keeps every bound on the keys. -/
theorem mem_insertIn [Ord κ] {k : κ} {a : α} {e : κ × α} :
    ∀ {l : List (κ × α)}, e ∈ insertIn k a l → e.1 = k ∨ ∃ b, (e.1, b) ∈ l
  | [], h => by
    simp only [insertIn, List.mem_singleton] at h
    exact .inl (by rw [h])
  | (k', a') :: rest, h => by
    rw [insertIn] at h
    split at h
    · rcases List.mem_cons.1 h with rfl | h
      · exact .inl rfl
      · exact .inr ⟨e.2, h⟩
    · rcases List.mem_cons.1 h with rfl | h
      · exact .inr ⟨a', List.mem_cons_self⟩
      · exact .inr ⟨e.2, List.mem_cons_of_mem _ h⟩
    · rcases List.mem_cons.1 h with rfl | h
      · exact .inr ⟨a', List.mem_cons_self⟩
      · rcases mem_insertIn h with h | ⟨b, h⟩
        · exact .inl h
        · exact .inr ⟨b, List.mem_cons_of_mem _ h⟩

end OrderedMap

end TableStore
