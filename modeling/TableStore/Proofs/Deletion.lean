import TableStore.Proofs.Filtering
import TableStore.Proofs.Replay
import TableStore.Proofs.Scanning

/-!
# Deletions

- a deletion leaves those entries of its container that its condition does not pick, counts the others, and changes
  nothing else (`Container.Keyed.deleteKeys_eq`, `Query.delete_eq`);
- the text of a deletion is carried out only if one column is compared with one literal after its keyword
  (`Parse.exists_of_deletion`);
- so a deletion removes what a selection with the same condition shows, or nothing at all
  (`Engine.deletion_removes_selection`).
-/

namespace TableStore

open Attempt

/-! ## Entries that are left -/

/-- Erasing keys leaves the other entries. -/
theorem OrderedMap.Sorted.entries_foldl_erase {κ α : Type} [Ord κ] [DecidableEq κ] {P : κ → Prop} [LawfulOn P]
    {m : OrderedMap κ α} (hm : m.Sorted P) {ks : List κ} (hks : ∀ k ∈ ks, P k) :
    (ks.foldl OrderedMap.erase m).entries = m.entries.filter fun e => decide (e.1 ∉ ks) := by
  have hfilter : SortedIn P (m.entries.filter fun e => decide (e.1 ∉ ks)) :=
    ⟨hm.1.sublist List.filter_sublist, fun e he => hm.2 e (List.mem_of_mem_filter he)⟩
  refine SortedIn.eq_of_mem_iff (hm.foldl_erase hks) hfilter fun e => ?_
  by_cases hk : P e.1
  · rw [← (hm.foldl_erase hks).find?_eq_some hk, hm.find?_foldl_erase hks hk, List.mem_filter, decide_eq_true_iff,
      ← hm.find?_eq_some hk]
    by_cases he : e.1 ∈ ks <;> simp [he]
  · exact ⟨fun he => absurd ((hm.foldl_erase hks).2 e he) hk, fun he => absurd (hfilter.2 e he) hk⟩

namespace Container

variable {c : Container} {m : Matching} {condition : Condition}

/-- Keys that are all there are deleted one by one and counted; only the records and the journal change. -/
theorem foldl_delete : ∀ {keys : List Key} {c : Container}, c.Ordered → (∀ k ∈ keys, k.Proper) →
    (∀ k ∈ keys, c.records.contains k) → keys.Nodup → ∀ n, ∃ journal,
      keys.foldl (fun nc k => ((if (nc.2.delete k).1 then nc.1 + 1 else nc.1), (nc.2.delete k).2)) (n, c) =
        (n + keys.length, { c with records := keys.foldl .erase c.records, journal })
  | [], c, _, _, _, _, _ => ⟨c.journal, rfl⟩
  | k :: keys, c, hc, hproper, hthere, hnodup, n => by
    obtain ⟨hk, hproper⟩ := List.forall_mem_cons.1 hproper
    obtain ⟨hr, hthere⟩ := List.forall_mem_cons.1 hthere
    obtain ⟨hnotin, hnodup⟩ := List.nodup_cons.1 hnodup
    rw [OrderedMap.contains_eq_isSome, Option.isSome_iff_exists] at hr
    obtain ⟨r, hr⟩ := hr
    have hleft : ∀ l ∈ keys, (c.records.erase k).contains l := fun l hl => by
      have hne : l ≠ k := fun h => hnotin (h ▸ hl)
      rw [OrderedMap.contains_eq_isSome, OrderedMap.Sorted.find?_erase hc hk (hproper l hl), if_neg hne,
        ← OrderedMap.contains_eq_isSome]
      exact hthere l hl
    obtain ⟨journal, hrest⟩ := foldl_delete (c := (c.delete k).2)
      (by rw [delete_of_find? hr]; exact OrderedMap.Sorted.erase hc hk) hproper
      (by rw [delete_of_find? hr]; exact hleft) hnodup (n + 1)
    refine ⟨journal, ?_⟩
    rw [List.foldl_cons, List.length_cons, Nat.add_comm keys.length, ← Nat.add_assoc]
    simp only [delete_of_find? hr, if_true] at hrest ⊢
    exact hrest

namespace Keyed

variable (hc : c.Keyed)

include hc

/-- Some of the records stand under their keys. -/
theorem filter (p : Key × Record → Bool) : Keyed { c with records := ⟨c.records.entries.filter p⟩ } where
  ordered := ⟨hc.ordered.1.sublist List.filter_sublist, fun e he => hc.ordered.2 e (List.mem_of_mem_filter he)⟩
  key_eq he := hc.key_eq (List.mem_of_mem_filter he)

/-- An entry that is not picked has a key that is not picked. -/
theorem notMem_matching_iff {entry : Key × Record} (he : entry ∈ c.records.entries) :
    entry.1 ∉ Query.matching m condition c ↔ m.picks condition entry = false := by
  have hproper := hc.ordered.2 entry he
  rw [hc.matching_eq, ← Bool.not_eq_true, not_iff_not, List.mem_map]
  constructor
  · rintro ⟨f, hf, hkey⟩
    obtain ⟨hf, hpicks⟩ := List.mem_filter.1 hf
    have hfound := (OrderedMap.Sorted.find?_eq_some hc.ordered (hkey ▸ hproper)).2 hf
    rw [hkey, (OrderedMap.Sorted.find?_eq_some hc.ordered hproper).2 he] at hfound
    obtain rfl : f = entry := Prod.ext hkey (Option.some.inj hfound).symm
    exact hpicks
  · exact fun hpicks => ⟨entry, List.mem_filter.2 ⟨he, hpicks⟩, rfl⟩

/-- **Deleting what a condition picks leaves the other entries**, and the number is that of the picked ones. -/
theorem deleteKeys_eq : ∃ journal, Query.deleteKeys (Query.matching m condition c) c =
    ((c.records.entries.filter (m.picks condition)).length,
      { c with records := ⟨c.records.entries.filter fun entry => !m.picks condition entry⟩, journal }) := by
  have hproper : ∀ k ∈ Query.matching m condition c, k.Proper := Query.matching_proper
  have hkeys : Query.matching m condition c = (c.records.entries.filter (m.picks condition)).map Prod.fst :=
    hc.matching_eq
  have hthere : ∀ k ∈ Query.matching m condition c, c.records.contains k := fun k hk => by
    rw [← OrderedMap.Sorted.mem_keys_iff_contains hc.ordered (hproper k hk)]
    rw [hkeys] at hk
    exact (List.filter_sublist.map _).subset hk
  have hnodup : (Query.matching m condition c).Nodup := by
    rw [hkeys]
    exact (OrderedMap.Sorted.nodup_keys hc.ordered).sublist (List.filter_sublist.map _)
  obtain ⟨journal, h⟩ := foldl_delete hc.ordered hproper hthere hnodup 0
  refine ⟨journal, ?_⟩
  have hleft : (Query.matching m condition c).foldl OrderedMap.erase c.records =
      ⟨c.records.entries.filter fun entry => !m.picks condition entry⟩ := by
    refine congrArg OrderedMap.mk ((OrderedMap.Sorted.entries_foldl_erase hc.ordered hproper).trans ?_)
    refine List.filter_congr fun entry he => ?_
    rw [Bool.eq_iff_iff, decide_eq_true_iff, hc.notMem_matching_iff he, Bool.not_eq_true']
  rw [Query.deleteKeys, h, hleft, hkeys, List.length_map, Nat.zero_add]

/-- A look-up picks one entry at most. -/
theorem length_picked_le : (c.records.entries.filter (Matching.key.picks condition)).length ≤ 1 := by
  have hmatching : Query.matching .key condition c =
      (c.records.entries.filter (Matching.key.picks condition)).map Prod.fst := hc.matching_eq
  rw [← List.length_map Prod.fst, ← hmatching, Query.matching, Query.lookUp]
  split
  · split <;> simp
  · simp

end Keyed

end Container

/-! ## Deletions from an image -/

namespace Query

variable {i : Image} {table : String} {c : Container}

/-- A deletion succeeds on every table, and gives the number of records that it has taken out. -/
theorem delete_eq (hi : i.Sound) (hc : i.find? table = some c) (hk : c.Keyed) (m : Matching) (condition : Condition) :
    ∃ d, delete m table condition i = (.ok (c.records.entries.filter (m.picks condition)).length, i.set table d) ∧
      d.commit = { c with records := ⟨c.records.entries.filter fun entry => !m.picks condition entry⟩ } := by
  have hclosed := (hi.settled hc).closed
  have hbegin : c.begin.Keyed := Container.steady_keyed.begin hk
  obtain ⟨journal, hdelete⟩ : ∃ journal, deleteKeys (matching m condition c.begin) c.begin = _ := hbegin.deleteKeys_eq
  have hcontains : i.contains table = true := by
    rw [Image.contains_eq_isSome, hc]
    rfl
  refine ⟨(deleteKeys (matching m condition c.begin) c.begin).2, ?_, ?_⟩
  · simp only [delete, bind_apply, Attempt.read_apply, hcontains, if_pos, Transaction.edit, Image.edit, hc,
      Attempt.whole, hdelete, c.begin_records]
  · rw [hdelete, Container.begin_of_none hclosed, Container.commit, ← hclosed]

end Query

/-! ## Conditions of deletions -/

namespace Parse

variable {text : List Char} {ls rest : List Lexeme} {c : Condition}

/-- The tokens of a condition: those after its keyword, up to a semicolon or the end. -/
def clause : List Token → List Token
  | .keyword .where :: ts => ts.takeWhile fun t => t != .finish && t != .mark .semicolon
  | _ => []

/-- A column that is compared with a literal. -/
def IsEquality (ts : List Token) : Prop := ∃ column t, Scan.Operand t ∧ ts = [.name column, .mark .eq, t]

theorem isEquality_of_condition? (h : condition? text ls = .ok (some c)) : IsEquality (ls.map Lexeme.token) := by
  unfold condition? at h
  split at h
  · rename_i column s₁ e₁ s₂ e₂ l
    refine ⟨column, l.token, ?_, rfl⟩
    split at h
    · rename_i ht
      exact ht ▸ trivial
    · rename_i ht
      exact ht ▸ trivial
    · rename_i ht
      exact ht ▸ trivial
    · cases h
  · cases h

theorem isEquality_of_optionalCondition (h : optionalCondition text ls = .ok (some c, rest)) :
    IsEquality (clause (ls.map Lexeme.token)) := by
  unfold optionalCondition at h
  split at h
  · rename_i s e ls
    obtain ⟨c', hc, h⟩ := Except.exists_of_bind h
    cases h
    rw [List.map_cons, clause, List.takeWhile_map]
    exact isEquality_of_condition? hc
  · cases h

/-- **Tokens of a deletion give a deletion without a condition, or compare one column with one literal.** -/
theorem exists_of_deletion {s : Statement} (h : statement text ls = .ok (s, rest)) {ts : List Token}
    (hls : ls.map Lexeme.token = .keyword .delete :: ts) :
    ∃ table c, s = .delete table c ∧ (c ≠ none → IsEquality (clause (ts.drop 2))) := by
  obtain ⟨⟨token, start, stop⟩, ls, rfl, hl, rfl⟩ := List.map_eq_cons_iff.1 hls
  obtain rfl : token = .keyword .delete := hl
  unfold statement at h
  split at h
  · rename_i heq
    cases heq
  · rename_i heq
    cases heq
  · rename_i heq
    cases heq
  · rename_i heq
    cases heq
  · rename_i heq
    cases heq
    obtain ⟨⟨table, ls'⟩, htable, h⟩ := Except.exists_of_bind h
    obtain ⟨⟨c, rest'⟩, hc, h⟩ := Except.exists_of_bind h
    cases h
    obtain ⟨l, rfl, -⟩ := exists_of_name htable
    refine ⟨table, c, rfl, fun hne => ?_⟩
    obtain ⟨c', rfl⟩ := Option.ne_none_iff_exists'.1 hne
    exact isEquality_of_optionalCondition hc
  · split at h
    · cases h
    · obtain ⟨_, -, h⟩ := Except.exists_of_bind h
      cases h
  · cases h

end Parse

/-! ## Deletions by an engine -/

namespace Engine

variable {e : Engine} {i : Image} {table : String} {c : Container}

/-- The message of a deletion. -/
def deleted (n : Nat) (table : String) : ResultSet :=
  .status (toString n ++ " row(s) deleted from " ++ Error.shown table ++ ".")

/-- A deletion whose commit succeeds. -/
theorem execute_delete {s : Session} (hs : s.live = some i) (hi : i.Sound) (hc : i.find? table = some c) (hk : c.Keyed)
    (m : Matching) (condition : Condition) {store : Store}
    (hcommit : Session.commitTransaction (Query.delete m table condition i).2 s.store = (.ok (), store)) :
    execute m (.delete table (some condition)) s =
      (.ok (deleted (c.records.entries.filter (m.picks condition)).length table),
        ⟨store, some (i.set table
          { c with records := ⟨c.records.entries.filter fun entry => !m.picks condition entry⟩ })⟩) := by
  obtain ⟨store₀, live⟩ := s
  obtain rfl : live = some i := hs
  obtain ⟨d, hdelete, hd⟩ := Query.delete_eq hi hc hk m condition
  rw [hdelete] at hcommit
  have hwrite : Session.write (Query.delete m table condition) ⟨store₀, some i⟩ = _ := Session.write_of_live _ hdelete
  rw [Session.settleTransaction_ok, hcommit, hi.finished_set, hd] at hwrite
  rw [execute, bind_apply, perform, bind_apply, hwrite]
  rfl

/-- A text that is read as no statement, or as a deletion of everything, is not carried out. -/
theorem run_of_unread {s : Session} (hs : s.live = some i) {text : String}
    (h : ∀ statement, Statement.parse text = .ok statement → ∃ table, statement = .delete table none)
    (settings : Settings) : ∃ error, run settings text s = (.error error, s) := by
  rw [run_of_ready (ready_of_live hs settings)]
  cases hp : Statement.parse text with
  | error error => exact ⟨error, rfl⟩
  | ok statement =>
    obtain ⟨table, rfl⟩ := h statement hp
    exact ⟨.deleteWithoutWhere table, rfl⟩

/-- **A deletion removes what a selection shows.** In every table of every image that requests over a new store have
led to, and with both ways of picking records: a deletion whose commit succeeds gives the number of rows that a
selection with the same condition shows before it. After it that selection shows nothing, and the other records, what
else there is of the table, the other tables, the catalog and the version are as they were; a look-up deletes one
record at most. A text of a deletion that does not compare one column with one literal fails, and changes nothing; so
does every text that is not scanned. -/
theorem deletion_removes_selection (he : e.IsNew) (rs : List Request) (hi : (after rs e).session.live = some i) :
    (∀ table c, i.find? table = some c → ∀ m projection condition store,
      Session.commitTransaction (Query.delete m table condition i).2 (after rs e).session.store = (.ok (), store) →
      ∃ shown j,
        execute m (.select projection table (some condition)) (after rs e).session =
          (.ok shown, (after rs e).session) ∧
        shown.rows = (c.records.entries.filter (m.picks condition)).map (fun entry =>
          Query.project (Query.shown i table projection) entry.2) ∧
        execute m (.delete table (some condition)) (after rs e).session =
          (.ok (deleted shown.rows.length table), ⟨store, some j⟩) ∧
        execute m (.select projection table (some condition)) ⟨store, some j⟩ =
          (.ok { shown with rows := [] }, ⟨store, some j⟩) ∧
        j.find? table =
          some { c with records := ⟨c.records.entries.filter fun entry => !m.picks condition entry⟩ } ∧
        (∀ name, name ≠ table → j.find? name = i.find? name) ∧ j.catalog = i.catalog ∧ j.version = i.version ∧
        (m = .key → shown.rows.length ≤ 1)) ∧
    ∀ text, ((∃ error, scan text.toList = .error error) ∨ ∃ ls ts, scan text.toList = .ok ls ∧
        ls.map Lexeme.token = .keyword .delete :: ts ∧ ¬Parse.IsEquality (Parse.clause (ts.drop 2))) →
      ∀ settings, ∃ error, run settings text (after rs e).session = (.error error, (after rs e).session) := by
  refine ⟨fun table c hc m projection condition store hcommit => ?_, fun text htext => ?_⟩
  · obtain ⟨hformed, hkeyed⟩ := he.keyed_of_live hi
    have hsound := hformed.sound
    have hk : c.Keyed := hkeyed.of_find? hc
    let left : Container := { c with records := ⟨c.records.entries.filter fun entry => !m.picks condition entry⟩ }
    have hleft : (i.set table left).find? table = some left := by rw [Image.find?_set hsound.sorted, if_pos rfl]
    have hnone : left.records.entries.filter (m.picks condition) = [] := by
      refine List.filter_eq_nil_iff.2 fun entry hentry => ?_
      simpa using (List.mem_filter.1 hentry).2
    refine ⟨_, i.set table left, execute_select hi hc hk m projection condition, rfl, ?_, ?_, hleft,
      fun name hname => ?_, rfl, rfl, ?_⟩
    · rw [List.length_map]
      exact execute_delete hi hsound hc hk m condition hcommit
    · rw [execute_select rfl hleft (hk.filter _), hnone]
      rfl
    · rw [Image.find?_set hsound.sorted, if_neg hname]
    · rintro rfl
      rw [List.length_map]
      exact hk.length_picked_le
  · refine run_of_unread hi fun statement hparse => ?_
    obtain ⟨ls', rest, hscan', hstatement⟩ := Statement.exists_of_parse hparse
    obtain ⟨error, hscan⟩ | ⟨ls, ts, hscan, hls, hts⟩ := htext
    · cases hscan.symm.trans hscan'
    obtain rfl : ls' = ls := Except.ok.inj (hscan'.symm.trans hscan)
    obtain ⟨table, c, rfl, hc⟩ := Parse.exists_of_deletion hstatement hls
    exact ⟨table, congrArg _ (not_not.1 (mt hc hts))⟩

/-- Two zeros of different kinds are deleted at once, and a text that asks for more than one equality deletes
nothing. -/
theorem zeros_are_deleted : ∃ (i : Image) (shown : ResultSet) (store : Store) (j : Image),
    (after mixedKeys (overKeyspace {} [])).session.live = some i ∧
    shown.rows = [[.real ⟨0x8000000000000000⟩], [.integer 0]] ∧
    execute .column (.delete "t" (some ⟨"x", .integer 0⟩)) (after mixedKeys (overKeyspace {} [])).session =
      (.ok (deleted 2 "t"), ⟨store, some j⟩) ∧
    execute .column (.select (.columns ["x"]) "t" (some ⟨"x", .integer 0⟩)) ⟨store, some j⟩ =
      (.ok { shown with rows := [] }, ⟨store, some j⟩) ∧
    ∃ error, run {} "DELETE FROM t WHERE x = 0 OR id = 'a'" (after mixedKeys (overKeyspace {} [])).session =
      (.error error, (after mixedKeys (overKeyspace {} [])).session) := by
  have hlive : ((after mixedKeys (overKeyspace {} [])).session.live.bind fun i => (i.find? "t").map fun c =>
      ((c.records.entries.filter (Matching.column.picks ⟨"x", .integer 0⟩)).map fun e => Query.project ["x"] e.2,
        (Session.commitTransaction (Query.delete .column "t" ⟨"x", .integer 0⟩ i).2
          (after mixedKeys (overKeyspace {} [])).session.store).1.toOption)) =
      some ([[.real ⟨0x8000000000000000⟩], [.integer 0]], some ()) := by decide +kernel
  obtain ⟨i, hi, hc⟩ := Option.bind_eq_some_iff.1 hlive
  obtain ⟨c, hc, hfound⟩ := Option.map_eq_some_iff.1 hc
  obtain ⟨hpicked, hcommitted⟩ := Prod.ext_iff.1 hfound
  obtain ⟨hdeleted, hunread⟩ := deletion_removes_selection (isNew_overKeyspace {} []) mixedKeys hi
  have hcommit : Session.commitTransaction (Query.delete .column "t" ⟨"x", .integer 0⟩ i).2
      (after mixedKeys (overKeyspace {} [])).session.store = (.ok (), _) :=
    Prod.ext (Except.eq_ok_of_toOption hcommitted) rfl
  obtain ⟨shown, j, -, hrows, hdelete, hafter, -⟩ := hdeleted "t" c hc .column (.columns ["x"]) _ _ hcommit
  rw [hrows.trans hpicked] at hdelete
  have htokens : (scan "DELETE FROM t WHERE x = 0 OR id = 'a'".toList).toOption.map (·.map Lexeme.token) =
      some [.keyword .delete, .keyword .from, .name "t", .keyword .where, .name "x", .mark .eq, .number "0", .name "OR",
        .name "id", .mark .eq, .string "a", .finish] := by decide +kernel
  obtain ⟨ls, hscan, hls⟩ := Option.map_eq_some_iff.1 htokens
  refine ⟨i, shown, _, j, hi, hrows.trans hpicked, hdelete, hafter, ?_⟩
  refine hunread _ (.inr ⟨ls, _, Except.eq_ok_of_toOption hscan, hls, ?_⟩) {}
  rintro ⟨column, t, -, h⟩
  cases congrArg List.length h

end Engine

end TableStore
