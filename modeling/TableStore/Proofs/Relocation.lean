import TableStore.Proofs.Filtering
import TableStore.Proofs.Renaming
import TableStore.Proofs.Separation

/-!
# Tables that are moved

- a rename to a name that is vacant cannot fail before its commit, and makes the image in which the table has the other
  name and its records are what they were (`Image.renamed`, `Migration.run_rename`);
- an engine that is asked for a rename moves the table, or leaves the image as it was, or was asked for the name that
  the table has (`Engine.rename_moves_table`, `Engine.serve_rename_self`).
-/

namespace TableStore

open Attempt

/-! ## Images -/

namespace Image

/-- No table and no container has a name. -/
def Vacant (i : Image) (name : String) : Prop := i.catalog.find? name = none ∧ i.find? name = none

instance (i : Image) : DecidablePred i.Vacant := fun _ => inferInstanceAs (Decidable (_ ∧ _))

/-- The next image, in which a table has another name, with its container. -/
def renamed (i : Image) (source target : String) (t : Table) (c : Container) : Image where
  version := i.version + 1
  catalog := (i.catalog.erase source).put ⟨target, t.columns⟩
  containers := (i.containers.insert target (c.renewed target)).erase source

/-- In the second image a table and its container have another name, and nothing else has changed but the version. -/
structure Moved (source target : String) (t : Table) (c : Container) (i j : Image) : Prop where
  version : j.version = i.version + 1
  table : j.catalog.find? target = some ⟨target, t.columns⟩
  container : ∃ d, j.find? target = some d ∧ d.keyPath = c.keyPath ∧ d.autoIncrement = c.autoIncrement ∧
    d.records = c.records
  left : j.Vacant source
  others : j.AgreeOn {source, target}ᶜ i

variable {i : Image} {source target : String} {t : Table} {c : Container}

theorem contains_iff_not_vacant : (i.catalog.contains target || i.contains target) = true ↔ ¬i.Vacant target := by
  have hcatalog : i.catalog.contains target = (i.catalog.find? target).isSome := OrderedMap.contains_eq_isSome _ _
  rw [hcatalog, contains_eq_isSome, Vacant, Bool.or_eq_true, Option.isSome_iff_ne_none, Option.isSome_iff_ne_none,
    not_and_or]

theorem catalog_find?_renamed (hi : i.WellFormed) (name : String) :
    (i.renamed source target t c).catalog.find? name =
      if name = target then some ⟨target, t.columns⟩ else if name = source then none else i.catalog.find? name := by
  have htables := hi.filed.sorted
  have hput : (i.renamed source target t c).catalog.find? name = if name = target then some ⟨target, t.columns⟩ else
      (i.catalog.tables.erase source).find? name :=
    (htables.erase (k := source) trivial).find?_insert trivial (⟨target, t.columns⟩ : Table) trivial
  rw [hput, htables.find?_erase trivial trivial]
  rfl

theorem find?_renamed (hi : i.WellFormed) (name : String) : (i.renamed source target t c).find? name =
    if name = source then none else if name = target then some (c.renewed target) else i.find? name := by
  have hset := hi.sound.sorted.insert (k := target) trivial (c.renewed target)
  have hfind : (i.renamed source target t c).find? name = _ := hset.find?_erase (k := source) trivial trivial
  rw [hfind, hi.sound.sorted.find?_insert trivial _ trivial]
  rfl

theorem moved_renamed (hi : i.WellFormed) (hne : source ≠ target) :
    Moved source target t c i (i.renamed source target t c) where
  version := rfl
  table := by rw [catalog_find?_renamed hi, if_pos rfl]
  container := by
    refine ⟨c.renewed target, ?_, rfl, rfl, rfl⟩
    rw [find?_renamed hi, if_neg hne.symm, if_pos rfl]
  left := by
    constructor
    · rw [catalog_find?_renamed hi, if_neg hne, if_pos rfl]
    · rw [find?_renamed hi, if_pos rfl]
  others := by
    constructor <;> intro name hn <;>
      simp only [Set.mem_compl_iff, Set.mem_insert_iff, Set.mem_singleton_iff, not_or] at hn
    · rw [catalog_find?_renamed hi, if_neg hn.2, if_neg hn.1]
    · rw [find?_renamed hi, if_neg hn.1, if_neg hn.2]

end Image

/-! ## Upgrades -/

namespace Upgrade

variable {u : Upgrade} {name : String} {c : Container}

/-- Work on a container that was created opens no journal. -/
theorem edit_created {α : Type} (hsorted : u.image.containers.Sorted fun _ => True) (hcreated : u.created.contains name)
    (f : Attempt Container α) : edit name f { u with image := u.image.set name c } =
      ((f c).1, { u with image := u.image.set name (f c).2 }) := by
  have hfound : (u.image.set name c).find? name = some c := by rw [Image.find?_set hsorted, if_pos rfl]
  have hready : ({ u with image := u.image.set name c } : Upgrade).ready name c = c := by
    rw [ready, if_pos hcreated, id]
  simp only [edit, Image.edit, hfound, hready, Image.set_set hsorted]

theorem create_of_none (h : u.image.find? name = none) (keyPath : String) (autoIncrement : Bool) :
    create name keyPath autoIncrement u = (.ok { name, keyPath, autoIncrement },
      { u with image := u.image.set name { name, keyPath, autoIncrement }, created := u.created.insert name () }) := by
  have hfree : u.image.contains name = false := by rw [Image.contains_eq_isSome, h, Option.isSome_none]
  rw [create, if_neg (Bool.eq_false_iff.1 hfree)]

theorem delete_of_find? (h : u.image.find? name = some c) :
    ∃ v, delete name u = (.ok true, v) ∧ v.image = (u.without name).image := by
  rw [delete, h]
  dsimp only
  split <;> exact ⟨_, rfl, rfl⟩

end Upgrade

namespace Migration

open Upgrade

variable {i : Image} {source target : String} {t : Table} {c : Container} {u : Upgrade}

/-- Records are put one after another into a container that was created, each under its own key. -/
theorem putAll_eq (hsorted : u.image.containers.Sorted fun _ => True) (hcreated : u.created.contains target) :
    ∀ {es : List (Key × Record)} {c : Container}, (∀ e ∈ es, Key.ofValue? (e.2.valueOf c.keyPath) = some e.1) →
    putAll target (es.map Prod.snd) { u with image := u.image.set target c } =
      (.ok ⟨⟩, { u with image := u.image.set target (es.foldl (fun d e => d.store e.1 e.2) c) })
  | [], _, _ => rfl
  | e :: es, c, h => by
    obtain ⟨he, hes⟩ := List.forall_mem_cons.1 h
    change (edit target _ >>= fun _ => putAll target (es.map Prod.snd)) _ = _
    rw [bind_apply, edit_created hsorted hcreated, Attempt.whole,
      Container.put_of_keyed (Container.keyed_of_ofValue? he), Except.map]
    exact putAll_eq hsorted hcreated hes

/-- A new container is filled with the records of another one. -/
theorem putAll_scan (hk : c.Keyed) (hsorted : u.image.containers.Sorted fun _ => True)
    (hcreated : u.created.contains target) :
    putAll target c.scan { u with image := u.image.set target ⟨target, c.keyPath, c.autoIncrement, 1, .empty, none⟩ } =
      (.ok ⟨⟩, { u with image := u.image.set target (c.renewed target) }) := by
  rw [← hk.foldl_store_eq]
  exact putAll_eq hsorted hcreated fun e he => hk.key_eq he

theorem renameParts_of_vacant (ht : u.image.catalog.find? source = some t) (hc : u.image.find? source = some c)
    (hv : u.image.Vacant target) : source ≠ target ∧ renameParts source target u = .ok (some (t, c)) := by
  have hne : source ≠ target := by
    rintro rfl
    cases hv.1.symm.trans ht
  rw [renameParts, ht, hc]
  dsimp only
  exact ⟨hne, by rw [if_neg hne, if_neg fun h => Image.contains_iff_not_vacant.1 h hv]⟩

/-- **A table whose container is there gets a name that is vacant.** -/
theorem run_rename (hi : i.WellFormed) (ht : i.catalog.find? source = some t) (hc : i.find? source = some c)
    (hk : c.Keyed) (hv : i.Vacant target) :
    ∃ u, (Migration.rename source target).run (start i (i.version + 1)) = (.ok ⟨⟩, u) ∧
      u.image = i.renamed source target t c := by
  obtain ⟨hne, hparts⟩ := @renameParts_of_vacant source target t c (start i (i.version + 1)) ht hc hv
  have hsorted : (start i (i.version + 1)).image.containers.Sorted fun _ => True := hi.sound.sorted
  have hput := @putAll_scan target c { start i (i.version + 1) with created := .insert .empty target () } hk hsorted
    (OrderedMap.contains_insert_self _ _ _)
  have hold : ((start i (i.version + 1)).image.set target (c.renewed target)).find? source = some c := by
    rw [Image.find?_set hsorted, if_neg hne]
    exact hc
  obtain ⟨u, hdelete, himage⟩ := @delete_of_find? { start i (i.version + 1) with
    image := (start i (i.version + 1)).image.set target (c.renewed target)
    created := .insert .empty target () } source c hold
  refine ⟨{ u with image := { u.image with
    catalog := (u.image.catalog.erase source).put ⟨target, t.columns⟩ } }, ?_, by rw [himage]; rfl⟩
  have hread : Attempt.read (renameParts source target) (start i (i.version + 1)) = (.ok (some (t, c)), _) :=
    Prod.ext hparts rfl
  exact (bind_of_ok hread).trans ((bind_of_ok (create_of_none hv.2 _ _)).trans ((bind_of_ok hput).trans
    (bind_of_ok hdelete)))

/-- A table is not moved if it is missing, if its container is, or if another one has the name. -/
theorem run_rename_of_error {error : Error} (h : renameParts source target u = .error error) :
    (Migration.rename source target).run u = (.error error, u) := by
  rw [run, bind_apply, read_apply, h]

theorem renameParts_of_missing (ht : u.image.catalog.find? source = none) :
    renameParts source target u = .error (.tableNotFound source) := by
  rw [renameParts, ht]

theorem renameParts_of_taken (ht : u.image.catalog.find? source = some t) (hne : source ≠ target)
    (hv : ¬u.image.Vacant target) : renameParts source target u = .error (.tableAlreadyExists target) := by
  rw [renameParts, ht]
  dsimp only
  rw [if_neg hne, if_pos (Image.contains_iff_not_vacant.2 hv)]

theorem renameParts_of_lost (ht : u.image.catalog.find? source = some t) (hc : u.image.find? source = none)
    (hv : u.image.Vacant target) : renameParts source target u = .error (.containerNotFound source) := by
  have hne : source ≠ target := by
    rintro rfl
    cases hv.1.symm.trans ht
  rw [renameParts, ht, hc]
  dsimp only
  rw [if_neg hne, if_neg fun h => Image.contains_iff_not_vacant.1 h hv]

/-- A table that has the name already is left alone. -/
theorem run_rename_self (ht : u.image.catalog.find? source = some t) :
    (Migration.rename source source).run u = (.ok ⟨⟩, u) := by
  have hparts : renameParts source source u = .ok none := by
    rw [renameParts, ht]
    dsimp only
    rw [if_pos rfl]
  rw [run, bind_apply, read_apply, hparts]
  rfl

end Migration

/-! ## Engines -/

/-- A selection shows the same from the table under its new name. -/
theorem Query.select_renamed {i : Image} (hi : i.WellFormed) {source target : String} {t : Table} {c : Container}
    (ht : i.catalog.find? source = some t) (hc : i.find? source = some c) (hne : source ≠ target) (m : Matching)
    (projection : Projection) (condition : Option Condition) :
    select m projection target condition (i.renamed source target t c) = select m projection source condition i := by
  have hcolumns : columnsOf (i.renamed source target t c) target = columnsOf i source := by
    rw [columnsOf, columnsOf, Image.catalog_find?_renamed hi, if_pos rfl, ht]
    rfl
  have hrecords : chosen m condition (c.renewed target) = chosen m condition c := by cases condition <;> rfl
  have hc' : (i.renamed source target t c).find? target = some (c.renewed target) := by
    rw [Image.find?_renamed hi, if_neg hne.symm, if_pos rfl]
  unfold select
  rw [hc', hc]
  simp only [hcolumns, hrecords]

namespace Engine

variable {e : Engine} {i : Image} {source target : String} {t : Table} {c : Container} {u : Upgrade}

theorem serve_rename (h : e.Shows i) (source target : String) : serve (.rename source target) e =
    ((migrate [.rename source target] (serve .ready e).2.session).1.map fun _ => .done,
      { e with session := (migrate [.rename source target] (serve .ready e).2.session).2 }) := by
  obtain ⟨b, hr⟩ := exists_of_shows h
  have hrename : rename e.settings source target e.session =
      (migrate [.rename source target] >>= fun _ => pure ()) (serve .ready e).2.session := bind_of_ok hr
  change ((rename e.settings source target e.session).1.map fun _ => Answer.done,
    { e with session := (rename e.settings source target e.session).2 }) = _
  rw [hrename, bind_apply]
  cases migrate [.rename source target] (serve .ready e).2.session with
  | mk outcome s => cases outcome <;> rfl

theorem serve_rename_of_error (hi : i.WellFormed) (h : e.Shows i) {error : Error}
    (hparts : Migration.renameParts source target (.start i (i.version + 1)) = .error error) :
    serve (.rename source target) e = (.error error, (serve .ready e).2) := by
  have hr : Migration.runAll [.rename source target] (.start i (i.version + 1)) =
      (.error error, .start i (i.version + 1)) := by
    rw [Migration.runAll_singleton]
    exact Migration.run_rename_of_error hparts
  rw [serve_rename h]
  cases hs : (serve .ready e).2.session with
  | mk store live =>
    obtain rfl : live = some i := (congrArg Session.live hs).symm.trans h
    rw [migrate_of_error hi hr, ← hs]
    rfl

/-- A rename whose work succeeds is committed, or its commit fails and leaves the image as it was. -/
theorem serve_rename_of_ok (hi : i.WellFormed) (h : e.Shows i)
    (hr : (Migration.rename source target).run (.start i (i.version + 1)) = (.ok ⟨⟩, u)) :
    ((serve (.rename source target) e).1 = .ok .done ∧
        (serve (.rename source target) e).2.session.live = some u.image) ∨
      ∃ error, (serve (.rename source target) e).1 = .error error ∧
        (serve (.rename source target) e).2.session.live = some i := by
  rw [← Migration.runAll_singleton] at hr
  rw [serve_rename h]
  rcases migrate_settles hi h [.rename source target] with ⟨v, store, hv, -, hm⟩ | ⟨error, store, hm⟩
  · cases hr.symm.trans hv
    rw [hm]
    exact .inl ⟨rfl, rfl⟩
  · rw [hm]
    exact .inr ⟨error, rfl, rfl⟩

/-- It is committed where commits reach the medium. -/
theorem serve_rename_of_commits (h : (serve .ready e).2.session.Commits i)
    (hr : (Migration.rename source target).run (.start i (i.version + 1)) = (.ok ⟨⟩, u)) :
    (serve (.rename source target) e).1 = .ok .done := by
  rw [← Migration.runAll_singleton] at hr
  rw [serve_rename h.live]
  cases hs : (serve .ready e).2.session with
  | mk store live =>
    rw [hs] at h
    obtain rfl : live = some i := h.live
    obtain ⟨-, -, store', -, -, hmigrate⟩ := migrate_of_ok h.retains h.steadfast h.wellFormed hr
    rw [hmigrate]
    rfl

/-- What an engine shows after requests to a new one, and that it will commit if its store takes commits. -/
theorem IsNew.of_shows (he : e.IsNew) {rs : List Request} (hi : (after rs e).Shows i) :
    i.WellFormed ∧ i.Each Container.Keyed ∧
      ((after rs e).session.store.Steadfast → (serve .ready (after rs e)).2.session.Commits i) := by
  have hlive : (after (rs ++ [.ready]) e).session.live = some i := by rw [after_ready]; exact hi
  obtain ⟨hw, hk⟩ := he.keyed_of_live hlive
  refine ⟨hw, hk, fun hs => ?_⟩
  have hs' : (after (rs ++ [.ready]) e).session.store.Steadfast := by rw [after_ready]; exact steadfast_ready hs
  rw [← after_ready]
  exact he.commits_of_live hlive hs'

/-- A table gets a name that is vacant, unless the commit fails. -/
theorem serve_rename_of_vacant (hw : i.WellFormed) (hi : e.Shows i) (ht : i.catalog.find? source = some t)
    (hc : i.find? source = some c) (hk : c.Keyed) (hv : i.Vacant target) :
    ((serve .ready e).2.session.Commits i → (serve (.rename source target) e).1 = .ok .done) ∧
    ((serve (.rename source target) e).1 = .ok .done → ∃ j, (serve (.rename source target) e).2.session.live = some j ∧
      Image.Moved source target t c i j ∧ ∀ m projection condition,
        (execute m (.select projection target condition) (serve (.rename source target) e).2.session).1 =
          (execute m (.select projection source condition) (serve .ready e).2.session).1) ∧
    ∀ error, (serve (.rename source target) e).1 = .error error →
      (serve (.rename source target) e).2.session.live = some i := by
  have hne : source ≠ target := by
    rintro rfl
    cases hv.1.symm.trans ht
  obtain ⟨u, hr, hu⟩ := Migration.run_rename hw ht hc hk hv
  refine ⟨fun h => serve_rename_of_commits h hr, ?_⟩
  rcases serve_rename_of_ok hw hi hr with ⟨hok, hlive⟩ | ⟨error, herror, hlive⟩
  · rw [hu] at hlive
    refine ⟨fun _ => ⟨_, hlive, Image.moved_renamed hw hne, fun m projection condition => ?_⟩, fun error h => ?_⟩
    · rw [execute_selection hlive, execute_selection hi]
      exact Query.select_renamed hw ht hc hne m projection condition
    · cases hok.symm.trans h
  · exact ⟨fun h => (by cases herror.symm.trans h), fun _ _ => hlive⟩

/-- A table that has the name already is left alone, and the version moves on, unless the commit fails. -/
theorem serve_rename_self (hw : i.WellFormed) (hi : e.Shows i) (ht : i.catalog.find? source = some t) :
    ((serve .ready e).2.session.Commits i → (serve (.rename source source) e).1 = .ok .done) ∧
    ((serve (.rename source source) e).1 = .ok .done →
      (serve (.rename source source) e).2.session.live = some { i with version := i.version + 1 }) ∧
    ∀ error, (serve (.rename source source) e).1 = .error error →
      (serve (.rename source source) e).2.session.live = some i := by
  have hr := @Migration.run_rename_self source t (.start i (i.version + 1)) ht
  refine ⟨fun h => serve_rename_of_commits h hr, ?_⟩
  rcases serve_rename_of_ok hw hi hr with ⟨hok, hlive⟩ | ⟨error, herror, hlive⟩
  · exact ⟨fun _ => hlive, fun error h => (by cases hok.symm.trans h)⟩
  · exact ⟨fun h => (by cases herror.symm.trans h), fun _ _ => hlive⟩

/-- **A rename moves a table and changes nothing in it.** From every image that requests over a new store lead to, a
table that has its container gets every name that is vacant, if the commit does not fail: under the new name are the
columns, the key column and the key generation of the table, with the same records under the same keys, nothing is left
under the old name, all other tables are the same, and every selection from the new name gives what it gave from the
old one. A missing table gets no name, and no table gets the name of another one; then nothing has changed. Under its
own name a table is left alone, and so is all but the version. A rename that fails leaves the image as it was. -/
theorem rename_moves_table (he : e.IsNew) (rs : List Request) (hi : (after rs e).Shows i) (source target : String) :
    let before := (serve .ready (after rs e)).2
    let result := serve (.rename source target) (after rs e)
    (∀ t c, i.catalog.find? source = some t → i.find? source = some c → i.Vacant target →
      ((after rs e).session.store.Steadfast → result.1 = .ok .done) ∧
      (result.1 = .ok .done → ∃ j, result.2.session.live = some j ∧ Image.Moved source target t c i j ∧
        ∀ m projection condition, (execute m (.select projection target condition) result.2.session).1 =
          (execute m (.select projection source condition) before.session).1)) ∧
    (i.catalog.find? source = none → result = (.error (.tableNotFound source), before)) ∧
    (∀ t, i.catalog.find? source = some t → source ≠ target → ¬i.Vacant target →
      result = (.error (.tableAlreadyExists target), before)) ∧
    (∀ t, i.catalog.find? source = some t → i.find? source = none → i.Vacant target →
      result = (.error (.containerNotFound source), before)) ∧
    (∀ t, i.catalog.find? source = some t → source = target →
      ((after rs e).session.store.Steadfast → result.1 = .ok .done) ∧
      (result.1 = .ok .done → result.2.session.live = some { i with version := i.version + 1 })) ∧
    ∀ error, result.1 = .error error → result.2.session.live = some i := by
  intro before result
  obtain ⟨hw, hk, hcommits⟩ := he.of_shows hi
  have hmissing : i.catalog.find? source = none → result = (.error (.tableNotFound source), before) := fun ht =>
    serve_rename_of_error hw hi (Migration.renameParts_of_missing ht)
  have htaken : ∀ t, i.catalog.find? source = some t → source ≠ target → ¬i.Vacant target →
      result = (.error (.tableAlreadyExists target), before) := fun t ht hne hv =>
    serve_rename_of_error hw hi (Migration.renameParts_of_taken ht hne hv)
  have hlost : ∀ t, i.catalog.find? source = some t → i.find? source = none → i.Vacant target →
      result = (.error (.containerNotFound source), before) := fun t ht hc hv =>
    serve_rename_of_error hw hi (Migration.renameParts_of_lost ht hc hv)
  refine ⟨fun t c ht hc hv => ?_, hmissing, htaken, hlost, fun t ht hst => ?_, fun error h => ?_⟩
  · obtain ⟨hcommit, hmoved, -⟩ := serve_rename_of_vacant hw hi ht hc (hk.of_find? hc) hv
    exact ⟨fun hs => hcommit (hcommits hs), hmoved⟩
  · subst hst
    obtain ⟨hcommit, hsame, -⟩ := serve_rename_self hw hi ht
    exact ⟨fun hs => hcommit (hcommits hs), hsame⟩
  · -- each way to fail leaves the image
    have hbefore : ∀ {err}, result = (.error err, before) → result.2.session.live = some i := fun h => by
      rw [h]
      exact hi
    cases ht : i.catalog.find? source with
    | none => exact hbefore (hmissing ht)
    | some t =>
      by_cases hst : source = target
      · subst hst
        exact (serve_rename_self hw hi ht).2.2 error h
      · by_cases hv : i.Vacant target
        · cases hc : i.find? source with
          | none => exact hbefore (hlost t ht hc hv)
          | some c => exact (serve_rename_of_vacant hw hi ht hc (hk.of_find? hc) hv).2.2 error h
        · exact hbefore (htaken t ht hst hv)

/-- A table with keys of three kinds, whose records have their columns in another order than the table. -/
def mixedTable : List Request :=
  [.openStore, .run "CREATE TABLE t (id TEXT, x TEXT)",
    .run "INSERT INTO t (x, id) VALUES ('a', 2), (NULL, 1.5), ('b', 'k'), ('c', NULL)"]

theorem mixed_table_is_moved : ∃ i t c j, (after mixedTable (overKeyspace {} [])).Shows i ∧
    i.catalog.find? "t" = some t ∧ i.find? "t" = some c ∧ c.records.size = 4 ∧
    (serve (.rename "t" "u") (after mixedTable (overKeyspace {} []))).2.session.live = some j ∧
    Image.Moved "t" "u" t c i j ∧
    (serve (.rename "u" "v") (after mixedTable (overKeyspace {} []))).1 = .error (.tableNotFound "u") := by
  have hlive : (serve .ready (after mixedTable (overKeyspace {} []))).2.session.live.any (fun i =>
      (i.catalog.find? "t").isSome && (i.find? "t").any (fun c => c.records.size == 4) &&
        decide (i.Vacant "u")) := by decide +kernel
  obtain ⟨hsome, hall⟩ := (Option.any_eq_true_iff_get _ _).1 hlive
  obtain ⟨i, hi⟩ := Option.isSome_iff_exists.1 hsome
  simp only [hi, Option.get_some, Bool.and_eq_true, decide_eq_true_eq] at hall
  obtain ⟨⟨htable, hcontainer⟩, hv⟩ := hall
  obtain ⟨t, ht⟩ := Option.isSome_iff_exists.1 htable
  obtain ⟨hfound, hsize⟩ := (Option.any_eq_true_iff_get _ _).1 hcontainer
  obtain ⟨c, hc⟩ := Option.isSome_iff_exists.1 hfound
  simp only [hc, Option.get_some, beq_iff_eq] at hsize
  have hs : (after mixedTable (overKeyspace {} [])).session.store.Steadfast :=
    Store.steadfast_of_nil (by decide +kernel) (by decide +kernel)
  obtain ⟨hcommit, hmoved⟩ := (rename_moves_table (isNew_overKeyspace {} []) mixedTable hi "t" "u").1 t c ht hc hv
  obtain ⟨j, hj, hmoved, -⟩ := hmoved (hcommit hs)
  have hmissing := (rename_moves_table (isNew_overKeyspace {} []) mixedTable hi "u" "v").2.1 hv.1
  exact ⟨i, t, c, j, hi, ht, hc, hsize, hj, hmoved, congrArg Prod.fst hmissing⟩

/-- A rename of a table that is there to the name that it has is no error, and makes a new version. -/
theorem own_name_is_accepted : ∃ i t, (after mixedTable (overKeyspace {} [])).Shows i ∧
    i.catalog.find? "t" = some t ∧ ¬i.Vacant "t" ∧
    (serve (.rename "t" "t") (after mixedTable (overKeyspace {} []))).1 = .ok .done ∧
    (serve (.rename "t" "t") (after mixedTable (overKeyspace {} []))).2.session.live =
      some { i with version := i.version + 1 } := by
  have hlive : ((serve .ready (after mixedTable (overKeyspace {} []))).2.session.live.bind fun i =>
      i.catalog.find? "t").isSome := by decide +kernel
  obtain ⟨t, ht⟩ := Option.isSome_iff_exists.1 hlive
  obtain ⟨i, hi, ht⟩ := Option.bind_eq_some_iff.1 ht
  have hs : (after mixedTable (overKeyspace {} [])).session.store.Steadfast :=
    Store.steadfast_of_nil (by decide +kernel) (by decide +kernel)
  obtain ⟨hw, -, hcommits⟩ := (isNew_overKeyspace {} []).of_shows hi
  obtain ⟨hcommit, hsame, -⟩ := serve_rename_self hw hi ht
  have hok := hcommit (hcommits hs)
  exact ⟨i, t, hi, ht, fun hv => (by cases hv.1.symm.trans ht), hok, hsame hok⟩

end Engine

end TableStore
