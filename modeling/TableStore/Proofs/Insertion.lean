import TableStore.Proofs.Separation

/-!
# Insertions row by row

- whether a journal is open or not makes no difference to what is added (`Container.commit_addRows`);
- so the rows that one insertion adds are those that an insertion for each of them adds, and the first error is the
  same (`Engine.insertEach_eq`);
- an insertion of many rows comes to the same as an insertion for each, or to nothing
  (`Engine.insertion_is_sequence_of_rows`).
-/

namespace TableStore

open Attempt

/-! ## New entries -/

/-- An entry with a new key is put between the others. -/
theorem OrderedMap.sublist_insertIn {κ α : Type} [Ord κ] {k : κ} (a : α) : ∀ {l : List (κ × α)}, findIn k l = none →
    l.Sublist (insertIn k a l) ∧ (insertIn k a l).length = l.length + 1
  | [], _ => ⟨List.nil_sublist _, rfl⟩
  | (k', a') :: l, h => by
    rw [findIn] at h
    rw [insertIn]
    cases hk : compare k k' with
    | lt => exact ⟨List.sublist_cons_self _ _, rfl⟩
    | eq =>
      rw [hk] at h
      cases h
    | gt =>
      rw [hk] at h
      obtain ⟨hsublist, hlength⟩ := sublist_insertIn a h
      exact ⟨hsublist.cons_cons _, congrArg (· + 1) hlength⟩

namespace Container

variable {c d : Container} {k : Key} {r : Record} {columns : List String}

theorem begin_commit (c : Container) : c.begin.commit = c.commit := by
  unfold begin
  split <;> rfl

/-- A record is added to the records that are there. -/
theorem sublist_of_add (h : c.add r = .ok (k, d)) :
    c.records.entries.Sublist d.records.entries ∧ d.records.size = c.records.size + 1 := by
  rw [add] at h
  split at h
  · cases h
  · split at h <;> cases h
    rename_i hfree
    exact OrderedMap.sublist_insertIn _ (Option.not_isSome_iff_eq_none.1 hfree)

/-- What is added does not depend on the journal. -/
theorem commit_add (c : Container) (r : Record) :
    c.commit.add r = (c.add r).map fun kc => (kc.1, kc.2.commit) := by
  have hkeyed : c.commit.keyed r = c.keyed r := rfl
  rw [add, add, hkeyed]
  cases c.keyed r with
  | error e => rfl
  | ok kr =>
    dsimp only
    have hrecords : c.commit.records = c.records := rfl
    rw [hrecords]
    split <;> rfl

theorem commit_addRow (c : Container) (row : List Value) :
    Query.addRow columns row c.commit = ((Query.addRow columns row c).1, (Query.addRow columns row c).2.commit) := by
  rw [Query.addRow]
  split
  · simp only [Attempt.whole, commit_add]
    cases c.add (.ofList (columns.zip row)) <;> rfl
  · rfl

/-- **Rows are added to a container with a journal as to one without.** -/
theorem commit_addRows : ∀ (rows : List (List Value)) (c : Container), Query.addRows columns rows c.commit =
    ((Query.addRows columns rows c).1, (Query.addRows columns rows c).2.commit)
  | [], _ => rfl
  | row :: rows, c => by
    rw [Query.addRows, Attempt.forEach, bind_apply, bind_apply, commit_addRow]
    cases Query.addRow columns row c with
    | mk outcome d =>
      cases outcome with
      | error e => rfl
      | ok _ => exact commit_addRows rows d

/-- Rows are added to the records that are there, one record for each. -/
theorem sublist_of_addRows : ∀ {rows : List (List Value)} {c : Container}, Query.addRows columns rows c = (.ok ⟨⟩, d) →
    c.records.entries.Sublist d.records.entries ∧ d.records.size = c.records.size + rows.length
  | [], c, h => by
    cases h
    exact ⟨List.Sublist.refl _, rfl⟩
  | row :: rows, c, h => by
    obtain ⟨k, e, hadd, hrest⟩ := Query.addRows_cons h
    obtain ⟨hfirst, hsize⟩ := sublist_of_add hadd
    obtain ⟨hlater, hsizes⟩ := sublist_of_addRows hrest
    refine ⟨hfirst.trans hlater, ?_⟩
    rw [hsizes, hsize, List.length_cons]
    omega

end Container

/-! ## Insertions into an image -/

namespace Query

variable {i : Image} {table : String} {c : Container}

theorem addRows_singleton (columns : List String) (row : List Value) : addRows columns [row] = addRow columns row := by
  funext c
  rw [addRows, Attempt.forEach, bind_apply]
  cases addRow columns row c with
  | mk outcome d => cases outcome <;> rfl

/-- An insertion adds its rows to the container of the table. -/
theorem insert_eq (hc : i.find? table = some c) (columns : Option (List String)) (rows : List (List Value)) :
    insert table columns rows i =
      ((addRows (columns.getD (columnsOf i table)) rows c.begin).1.map fun _ => rows.length,
        i.set table (addRows (columns.getD (columnsOf i table)) rows c.begin).2) := by
  have hcontains : i.contains table = true := by
    rw [Image.contains_eq_isSome, hc]
    rfl
  simp only [insert, bind_apply, Attempt.read_apply, hcontains, if_pos, Transaction.edit, Image.edit, hc]
  cases (addRows (columns.getD (columnsOf i table)) rows c.begin).1 <;> rfl

/-- There is no insertion into a table that is not there. -/
theorem insert_of_none (hc : i.find? table = none) (columns : Option (List String)) (rows : List (List Value)) :
    insert table columns rows i = (.error (.tableNotFound table), i) := by
  have hcontains : i.contains table = false := by
    rw [Image.contains_eq_isSome, hc]
    rfl
  simp [insert, bind_apply, hcontains]

end Query

namespace Engine

variable {e : Engine} {i : Image} {table : String} {c : Container} {columns : Option (List String)}

/-- The message of an insertion. -/
def inserted (n : Nat) (table : String) : ResultSet :=
  .status (toString n ++ " row(s) inserted into " ++ Error.shown table ++ ".")

/-- Carries out an insertion for each row, up to the first that fails. -/
def insertEach (m : Matching) (table : String) (columns : Option (List String)) :
    List (List Value) → Attempt Session PUnit :=
  Attempt.forEach fun row => do
    let _ ← execute m (.insert table columns [row])
    pure ⟨⟩

theorem execute_insert (m : Matching) (rows : List (List Value)) (s : Session) :
    execute m (.insert table columns rows) s =
      ((Session.write (Query.insert table columns rows) s).1.map fun n => inserted n table,
        (Session.write (Query.insert table columns rows) s).2) := by
  rw [execute, bind_apply, perform, bind_apply]
  cases Session.write (Query.insert table columns rows) s with
  | mk outcome s' => cases outcome <;> rfl

/-- **An insertion adds all of its rows, or leaves the session as it was.** -/
theorem execute_insert_of_commits {s : Session} (hs : s.Commits i) (hc : i.find? table = some c) (m : Matching)
    (columns : Option (List String)) (rows : List (List Value)) :
    match Query.addRows (columns.getD (Query.columnsOf i table)) rows c with
    | (.ok _, d) => ∃ s', execute m (.insert table columns rows) s = (.ok (inserted rows.length table), s') ∧
        s'.Commits (i.set table d)
    | (.error error, _) => execute m (.insert table columns rows) s = (.error error, s) := by
  have hsound := hs.wellFormed.sound
  have hclosed := Container.commit_of_none (hsound.settled hc).closed
  have hrows : Query.addRows (columns.getD (Query.columnsOf i table)) rows c.begin.commit = _ :=
    Container.commit_addRows rows c.begin
  rw [Container.begin_commit, hclosed] at hrows
  have hinsert := Query.insert_eq hc columns rows
  rw [hrows, execute_insert]
  cases hr : Query.addRows (columns.getD (Query.columnsOf i table)) rows c.begin with
  | mk outcome d =>
    rw [hr] at hinsert
    cases outcome with
    | error error => rw [hs.write_of_error (Query.keeps_insert _ _ _) hinsert]; rfl
    | ok _ =>
      obtain ⟨s', hwrite, hs'⟩ := hs.write (Query.keeps_insert _ _ _) hinsert
      rw [hsound.finished_set] at hs'
      exact ⟨s', by rw [hwrite]; rfl, hs'⟩

theorem insertEach_cons (m : Matching) (row : List Value) (rows : List (List Value)) (s : Session) :
    insertEach m table columns (row :: rows) s = match execute m (.insert table columns [row]) s with
      | (.ok _, s') => insertEach m table columns rows s'
      | (.error error, s') => (.error error, s') := by
  change ((execute m (.insert table columns [row]) >>= fun _ => (pure ⟨⟩ : Attempt Session PUnit)) >>= fun _ =>
    insertEach m table columns rows) s = _
  rw [bind_apply, bind_apply]
  cases execute m (.insert table columns [row]) s with
  | mk outcome s' => cases outcome <;> rfl

/-- **Insertions one by one add what the rows together add**, up to the first row that cannot be added. -/
theorem insertEach_eq (m : Matching) (columns : Option (List String)) :
    ∀ (rows : List (List Value)) {i : Image} {s : Session} {c : Container}, s.Commits i → i.find? table = some c →
    match Query.addRows (columns.getD (Query.columnsOf i table)) rows c with
    | (.ok _, d) => ∃ s', insertEach m table columns rows s = (.ok ⟨⟩, s') ∧ s'.Commits (i.set table d)
    | (.error error, _) => ∃ s', insertEach m table columns rows s = (.error error, s')
  | [], i, s, c, hs, hc => ⟨s, rfl, (Image.set_of_find? hs.wellFormed.sound.sorted hc).symm ▸ hs⟩
  | row :: rows, i, s, c, hs, hc => by
    have hsorted := hs.wellFormed.sound.sorted
    have hfirst := execute_insert_of_commits hs hc m columns [row]
    rw [Query.addRows_singleton] at hfirst
    rw [insertEach_cons, Query.addRows, Attempt.forEach, bind_apply]
    cases hr : Query.addRow (columns.getD (Query.columnsOf i table)) row c with
    | mk outcome d =>
      rw [hr] at hfirst
      cases outcome with
      | error error =>
        rw [hfirst]
        exact ⟨s, rfl⟩
      | ok _ =>
        obtain ⟨s', hexecute, hs'⟩ := hfirst
        have hd : (i.set table d).find? table = some d := by rw [Image.find?_set hsorted, if_pos rfl]
        have hrest := insertEach_eq m columns rows hs' hd
        simp only [Image.set_set hsorted] at hrest
        rw [hexecute]
        exact hrest

/-- An insertion into a table that is not there, of all rows or of the first one. -/
theorem insertEach_of_none {s : Session} (hs : s.Commits i) (hc : i.find? table = none) (m : Matching)
    {rows : List (List Value)} (hrows : rows ≠ []) :
    execute m (.insert table columns rows) s = (.error (.tableNotFound table), s) ∧
      insertEach m table columns rows s = (.error (.tableNotFound table), s) := by
  have hexecute : ∀ rows, execute m (.insert table columns rows) s = (.error (.tableNotFound table), s) := by
    intro rows
    rw [execute_insert, hs.write_of_error (Query.keeps_insert _ _ _) (Query.insert_of_none hc columns rows)]
    rfl
  obtain ⟨row, rows', rfl⟩ := List.exists_cons_of_ne_nil hrows
  exact ⟨hexecute _, by rw [insertEach_cons, hexecute [row]]⟩

/-- One insertion and an insertion for each row fail with the same error, the one without a trace, or lead to the same
image. -/
theorem insertion_cases {s : Session} (hs : s.Commits i) (m : Matching) (table : String)
    (columns : Option (List String)) {rows : List (List Value)} (hrows : rows ≠ []) :
    (∃ error s', execute m (.insert table columns rows) s = (.error error, s) ∧
      insertEach m table columns rows s = (.error error, s')) ∨
    ∃ c d s' s'', execute m (.insert table columns rows) s = (.ok (inserted rows.length table), s') ∧
      insertEach m table columns rows s = (.ok ⟨⟩, s'') ∧ i.find? table = some c ∧
      s'.live = some (i.set table d) ∧ s''.live = some (i.set table d) ∧
      c.records.entries.Sublist d.records.entries ∧ d.records.size = c.records.size + rows.length := by
  cases hc : i.find? table with
  | none => exact .inl ⟨_, s, insertEach_of_none hs hc m hrows⟩
  | some c =>
    have hinsertion := execute_insert_of_commits hs hc m columns rows
    have hsequence := insertEach_eq m columns rows hs hc
    cases hr : Query.addRows (columns.getD (Query.columnsOf i table)) rows c with
    | mk outcome d =>
      rw [hr] at hinsertion hsequence
      cases outcome with
      | error error =>
        obtain ⟨s', hsequence⟩ := hsequence
        exact .inl ⟨error, s', hinsertion, hsequence⟩
      | ok _ =>
        obtain ⟨s', hinsertion, hs'⟩ := hinsertion
        obtain ⟨s'', hsequence, hs''⟩ := hsequence
        exact .inr ⟨c, d, s', s'', hinsertion, hsequence, rfl, hs'.live, hs''.live, Container.sublist_of_addRows hr⟩

/-- **An insertion of many rows comes to the same as an insertion for each, or to nothing.** On every image that
requests over a new store have led to, and if commits reach the medium: the one insertion succeeds if and only if all
insertions of a row succeed, one after another. Then both lead to the same image, in which the table has a record more
for each row beside those that it had, and the number of rows is reported. Otherwise it fails with the error of the
first insertion of a row that fails, and leaves the image and the store as they were. -/
theorem insertion_is_sequence_of_rows (he : e.IsNew) (rs : List Request) (hi : (after rs e).session.live = some i)
    (hs : (after rs e).session.store.Steadfast) (m : Matching) (table : String) (columns : Option (List String))
    {rows : List (List Value)} (hrows : rows ≠ []) :
    let insertion := execute m (.insert table columns rows) (after rs e).session
    let sequence := insertEach m table columns rows (after rs e).session
    ((∃ r, insertion.1 = .ok r) ↔ sequence.1 = .ok ⟨⟩) ∧
    (∀ r, insertion.1 = .ok r → r = inserted rows.length table ∧ ∃ c d, i.find? table = some c ∧
      insertion.2.live = some (i.set table d) ∧ sequence.2.live = some (i.set table d) ∧
      c.records.entries.Sublist d.records.entries ∧ d.records.size = c.records.size + rows.length) ∧
    ∀ error, insertion.1 = .error error → sequence.1 = .error error ∧ insertion.2 = (after rs e).session := by
  intro insertion sequence
  obtain ⟨error, s', hinsertion, hsequence⟩ | ⟨c, d, s', s'', hinsertion, hsequence, hc, hlive, hlive', hadded⟩ :=
    insertion_cases (he.commits_of_live hi hs) m table columns hrows
  · rw [show insertion = _ from hinsertion, show sequence = _ from hsequence]
    refine ⟨by simp, fun r hr => ?_, fun error' hr => ⟨?_, rfl⟩⟩
    · cases hr
    · cases hr
      rfl
  · rw [show insertion = _ from hinsertion, show sequence = _ from hsequence]
    refine ⟨by simp, fun r hr => ?_, fun error' hr => ?_⟩
    · cases hr
      exact ⟨rfl, c, d, hc, hlive, hlive', hadded⟩
    · cases hr

/-- A new table whose keys are integers. -/
def creation : List Request := [.run "CREATE TABLE t (id INTEGER, x TEXT)"]

/-- Three rows, the second of which moves the generator on for the third. -/
def movingRows : List (List Value) := [[.null, .text "a"], [.integer 5, .null], [.null, .text "b"]]

/-- Three rows, the last of which has the key that the first one is given. -/
def collidingRows : List (List Value) := [[.null, .text "a"], [.integer 5, .null], [.real ⟨0x3FF0000000000000⟩, .null]]

theorem colliding_row_undoes_insertion :
    ((execute .key (.insert "t" none movingRows) (after creation (overKeyspace {} [])).session).1 =
      .ok (inserted 3 "t") ∧
    (insertEach .key "t" none movingRows (after creation (overKeyspace {} [])).session).1 = .ok ⟨⟩) ∧
    (insertEach .key "t" none collidingRows (after creation (overKeyspace {} [])).session).1 =
      .error (.duplicateKey "t" "1") ∧
    (execute .key (.insert "t" none collidingRows) (after creation (overKeyspace {} [])).session).2 =
      (after creation (overKeyspace {} [])).session := by
  have hs : (after creation (overKeyspace {} [])).session.store.Steadfast :=
    Store.steadfast_of_nil (by decide +kernel) (by decide +kernel)
  have hlive : (after creation (overKeyspace {} [])).session.live.isSome := by decide +kernel
  obtain ⟨i, hi⟩ := Option.isSome_iff_exists.1 hlive
  have hmoving : movingRows ≠ [] := List.cons_ne_nil _ _
  have hcolliding : collidingRows ≠ [] := List.cons_ne_nil _ _
  obtain ⟨hsucceeds, -, -⟩ :=
    insertion_is_sequence_of_rows (isNew_overKeyspace {} []) creation hi hs .key "t" none hmoving
  obtain ⟨-, -, hfails⟩ :=
    insertion_is_sequence_of_rows (isNew_overKeyspace {} []) creation hi hs .key "t" none hcolliding
  have hok : (execute .key (.insert "t" none movingRows) (after creation (overKeyspace {} [])).session).1 =
      .ok (inserted 3 "t") := by decide +kernel
  have herror : (execute .key (.insert "t" none collidingRows) (after creation (overKeyspace {} [])).session).1 =
      .error (.duplicateKey "t" "1") := by decide +kernel
  exact ⟨⟨hok, hsucceeds.1 ⟨_, hok⟩⟩, hfails _ herror⟩

end Engine

end TableStore
