import TableStore.Proofs.ExactOrder
import TableStore.Proofs.GeneratedKeys
import TableStore.Proofs.RecordKeys

/-!
# What conditions pick

- a condition `holds` for a record that has its column, with a value equal to its own;
- a container whose records stand under their own keys can be asked in two ways, by looking a key up and by going
  through its records: the keys that are picked are those of the entries with a property, in order
  (`Container.Keyed.matching_eq`), and so are the records (`Container.Keyed.chosen_eq`);
- so a selection by column is the filter that its condition says, by either way (`Engine.column_filter_is_exact`).
-/

namespace TableStore

/-! ## Look-ups as filters -/

/-- The entries with a key are the one that a look-up finds. -/
theorem OrderedMap.Sorted.filter_eq {κ α : Type} [Ord κ] [DecidableEq κ] {P : κ → Prop} [LawfulOn P]
    {m : OrderedMap κ α} (hm : m.Sorted P) {k : κ} (hk : P k) :
    (m.entries.filter fun e => decide (k = e.1)) = (m.findEntry? k).toList := by
  have hnodup : (m.entries.filter fun e => decide (k = e.1)).Nodup := hm.nodup_keys.of_map.filter _
  have hmem : ∀ e, e ∈ m.entries.filter (fun e => decide (k = e.1)) ↔ e ∈ (m.findEntry? k).toList := fun e => by
    rw [List.mem_filter, decide_eq_true_iff, Option.mem_toList, findEntry?, findIn_eq_some hk hm, eq_comm]
  have hperm := (List.perm_ext_iff_of_nodup hnodup (Option.toList_nodup _)).2 hmem
  cases h : m.findEntry? k with
  | none =>
    rw [h] at hperm
    exact List.perm_nil.1 hperm
  | some e =>
    rw [h] at hperm
    exact List.perm_singleton.1 hperm

/-- What is no key is equal to nothing that is one. -/
theorem Key.sqlEq_eq_false {v w : Value} {k : Key} (hv : ofValue? v = some k) (hw : ofValue? w = none) :
    v.sqlEq w = false := by
  cases w with
  | integer | text => cases hw
  | null =>
    cases v with
    | null => cases hv
    | _ => rfl
  | boolean b =>
    cases v with
    | null | boolean => cases hv
    | _ => simp [Value.sqlEq]
  | real r =>
    have hnan : r.isNaN = true := by
      rw [ofValue?] at hw
      split at hw
      · assumption
      · split at hw <;> cases hw
    cases v with
    | null | boolean => cases hv
    | integer i => simp [Value.sqlEq, Binary64.compareInt, hnan]
    | real s => simp [Value.sqlEq, Binary64.sameValue, hnan]
    | text s => simp [Value.sqlEq]

/-! ## Conditions and entries -/

/-- Whether a record has the column of a condition, with a value equal to that of the condition. -/
def Condition.holds (condition : Condition) (r : Record) : Bool :=
  (r.find? condition.column).any fun v => v.sqlEq condition.value

/-- Whether a condition picks an entry. -/
def Matching.picks (m : Matching) (condition : Condition) (entry : Key × Record) : Bool :=
  match m with
  | .key => decide (Key.ofValue? condition.value = some entry.1)
  | .column => condition.holds entry.2

namespace Container

variable {c : Container} {m : Matching} {condition : Condition}

theorem Ordered.lookUp_eq (hc : c.Ordered) (v : Value) :
    Query.lookUp c v = (c.records.entries.filter fun e => decide (Key.ofValue? v = some e.1)).map Prod.fst := by
  rw [Query.lookUp]
  cases hv : Key.ofValue? v with
  | none => simp
  | some k =>
    have hk := Key.proper_of_ofValue? hv
    simp only [Option.some.injEq, OrderedMap.Sorted.filter_eq hc hk, OrderedMap.Sorted.findEntry?_eq hc hk,
      OrderedMap.contains_eq_isSome]
    cases c.records.find? k <;> rfl

/-- The records of some entries are those that their keys find. -/
theorem Ordered.filterMap_find? (hc : c.Ordered) {entries : List (Key × Record)} (h : entries ⊆ c.records.entries) :
    (entries.map Prod.fst).filterMap c.find? = entries.map Prod.snd := by
  rw [List.filterMap_map, ← List.filterMap_eq_map]
  exact List.filterMap_congr fun e he => (OrderedMap.Sorted.find?_eq_some hc (hc.2 e (h he))).2 (h he)

namespace Keyed

variable (hc : c.Keyed)

include hc

/-- **For the key column a condition says which key is looked up.** -/
theorem holds_eq (hp : condition.column = c.keyPath) {entry : Key × Record} (he : entry ∈ c.records.entries) :
    condition.holds entry.2 = decide (Key.ofValue? condition.value = some entry.1) := by
  obtain ⟨v, hv, -, hkey⟩ := exists_of_ofValue? (hc.key_eq he)
  rw [Condition.holds, hp, hv, Option.any_some]
  cases hw : Key.ofValue? condition.value with
  | none => simp [Key.sqlEq_eq_false hkey hw]
  | some k => rw [Bool.eq_iff_iff, Key.sqlEq_iff_eq hkey hw, decide_eq_true_iff, Option.some_inj, eq_comm]

/-- A record that a condition holds for gives its own key. -/
theorem keyIf_eq {entry : Key × Record} (he : entry ∈ c.records.entries) :
    Query.keyIf c condition entry.2 = if condition.holds entry.2 then some entry.1 else none := by
  rw [Query.keyIf, Condition.holds, hc.key_eq he]
  cases entry.2.find? condition.column <;> rfl

/-- **The keys that are picked are those of the entries that are picked**, in order. -/
theorem matching_eq : Query.matching m condition c = (c.records.entries.filter (m.picks condition)).map Prod.fst := by
  cases m with
  | key => exact hc.ordered.lookUp_eq condition.value
  | column =>
    rw [Query.matching]
    split
    · rename_i hp
      rw [hc.ordered.lookUp_eq]
      exact congrArg _ (List.filter_congr fun e he => (hc.holds_eq hp he).symm)
    · rw [← List.filterMap_eq_map, List.filterMap_filter, scan, OrderedMap.values, List.filterMap_map]
      exact List.filterMap_congr fun e he => hc.keyIf_eq he

/-- **The records that are picked are those of the entries that are picked**, in order. -/
theorem chosen_eq : Query.chosen m (some condition) c =
    (c.records.entries.filter (m.picks condition)).map Prod.snd := by
  rw [Query.chosen, hc.matching_eq]
  exact hc.ordered.filterMap_find? (List.filter_subset_self _)

end Keyed

end Container

/-! ## Selections -/

/-- The columns that a selection from a table shows. -/
def Query.shown (i : Image) (table : String) : Projection → List String
  | .all => columnsOf i table
  | .columns names => names

namespace Engine

variable {e : Engine} {i : Image} {table : String} {c : Container}

/-- Containers of live images keep their records under their keys. -/
theorem IsNew.keyed_of_live (he : e.IsNew) {rs : List Request} (hi : (after rs e).session.live = some i) :
    i.WellFormed ∧ i.Each Container.Keyed :=
  live_after Container.steady_keyed.makes_fill (.empty 1 {}) (fun _ _ _ _ _ h => h)
    (fun r _ => Container.steady_keyed.leads r) he hi

/-- A selection reads the live image. -/
theorem execute_selection {s : Session} (hi : s.live = some i) (m : Matching) (projection : Projection) (table : String)
    (condition : Option Condition) :
    execute m (.select projection table condition) s = (Query.select m projection table condition i, s) := by
  have hread : Session.read (Query.select m projection table condition) s =
      (Query.select m projection table condition i, s) := by
    rw [Session.read, Session.image_of_live hi]
  rw [execute, Attempt.bind_apply, perform, hread]
  cases Query.select m projection table condition i <;> rfl

/-- A selection shows what its condition picks, and leaves the session. -/
theorem execute_select {s : Session} (hi : s.live = some i) (hc : i.find? table = some c) (hk : c.Keyed) (m : Matching)
    (projection : Projection) (condition : Condition) :
    execute m (.select projection table (some condition)) s =
      (.ok { columns := Query.shown i table projection
             rows := (c.records.entries.filter (m.picks condition)).map fun entry =>
               Query.project (Query.shown i table projection) entry.2 }, s) := by
  rw [execute_selection hi]
  unfold Query.select
  simp only [hc, hk.chosen_eq, List.map_map]
  cases projection <;> rfl

/-- **A selection by column is exact.** In every table of every image that requests over a new store have led to, a
selection shows those records for which its condition holds, each once and in the order of their keys, with NULL where
they have no value; and the key column may be looked up or filtered, whatever the value is. -/
theorem column_filter_is_exact (he : e.IsNew) (rs : List Request) (hi : (after rs e).session.live = some i)
    (hc : i.find? table = some c) (projection : Projection) (condition : Condition) :
    let columns := Query.shown i table projection
    let picked := c.records.entries.filter fun entry => condition.holds entry.2
    execute .column (.select projection table (some condition)) (after rs e).session =
        (.ok { columns, rows := picked.map fun entry => columns.map fun name => (entry.2.find? name).getD .null },
          (after rs e).session) ∧
      picked.map Prod.snd = c.scan.filter condition.holds ∧
      (picked.map Prod.fst).Pairwise (fun k l => compare k l = .lt) ∧ (picked.map Prod.fst).Nodup ∧
      (∀ entry ∈ picked, Key.ofValue? (entry.2.valueOf c.keyPath) = some entry.1) ∧
      (condition.column = c.keyPath →
        (Query.lookUp c condition.value).filterMap c.find? = c.scan.filter condition.holds) := by
  intro columns picked
  have hk : c.Keyed := (he.keyed_of_live hi).2.of_find? hc
  have hsublist : (picked.map Prod.fst).Sublist c.records.keys := List.filter_sublist.map _
  have hscan : picked.map Prod.snd = c.scan.filter condition.holds := by
    rw [Container.scan, OrderedMap.values, List.filter_map]
    rfl
  refine ⟨execute_select hi hc hk .column projection condition, hscan, hk.ordered.ascending.sublist hsublist,
    hk.ordered.nodup_keys.sublist hsublist, fun entry hentry => hk.key_eq (List.mem_filter.1 hentry).1, fun hp => ?_⟩
  have hchosen : Query.chosen .column (some condition) c = picked.map Prod.snd := hk.chosen_eq
  rw [Query.chosen, Query.matching, if_pos hp] at hchosen
  exact hchosen.trans hscan

/-- A table whose keys are two integers that have the same nearest real, a real and a text. -/
def mixedKeys : List Request :=
  [.upgrade [⟨.create "t" "id" true, false⟩],
    .write [⟨.on "t" (.put (.ofList [("id", .integer 9007199254740993)])), false⟩,
      ⟨.on "t" (.put (.ofList [("id", .real ⟨0x4340000000000000⟩), ("x", .real ⟨0x8000000000000000⟩)])), false⟩,
      ⟨.on "t" (.put (.ofList [("id", .real ⟨0x3FE0000000000000⟩), ("x", .boolean true)])), false⟩,
      ⟨.on "t" (.put (.ofList [("id", .text "a"), ("x", .integer 0)])), false⟩]]

theorem mixed_keys_are_filtered : ∃ i c, (after mixedKeys (overKeyspace {} [])).session.live = some i ∧
    i.find? "t" = some c ∧
    (execute .column (.select (.columns ["x", "y"]) "t" (some ⟨"id", .real ⟨0x4340000000000000⟩⟩))
      (after mixedKeys (overKeyspace {} [])).session).1 =
        .ok ⟨["x", "y"], [[.real ⟨0x8000000000000000⟩, .null]], false⟩ ∧
    (execute .column (.select (.columns ["id"]) "t" (some ⟨"x", .integer 0⟩))
      (after mixedKeys (overKeyspace {} [])).session).1 =
        .ok ⟨["id"], [[.real ⟨0x4340000000000000⟩], [.text "a"]], false⟩ := by
  have hlive : ((after mixedKeys (overKeyspace {} [])).session.live.bind fun i => (i.find? "t").map fun c =>
      c.records.entries) = some [
        (.real ⟨0x3FE0000000000000⟩, .ofList [("id", .real ⟨0x3FE0000000000000⟩), ("x", .boolean true)]),
        (.integer 9007199254740992, .ofList [("id", .real ⟨0x4340000000000000⟩), ("x", .real ⟨0x8000000000000000⟩)]),
        (.integer 9007199254740993, .ofList [("id", .integer 9007199254740993)]),
        (.text "a", .ofList [("id", .text "a"), ("x", .integer 0)])] := by decide +kernel
  obtain ⟨i, hi, hc⟩ := Option.bind_eq_some_iff.1 hlive
  obtain ⟨c, hc, hentries⟩ := Option.map_eq_some_iff.1 hc
  have hexact := column_filter_is_exact (isNew_overKeyspace {} []) mixedKeys hi hc
  refine ⟨i, c, hi, hc, ?_, ?_⟩
  · rw [(hexact (.columns ["x", "y"]) ⟨"id", .real ⟨0x4340000000000000⟩⟩).1, hentries]
    refine congrArg Except.ok ?_
    rw [Query.shown]
    decide +kernel
  · rw [(hexact (.columns ["id"]) ⟨"x", .integer 0⟩).1, hentries]
    refine congrArg Except.ok ?_
    rw [Query.shown]
    decide +kernel

end Engine

end TableStore
