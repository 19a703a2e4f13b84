import TableStore.Proofs.Invariant
import TableStore.Proofs.KeyText

/-!
# Images in keyspaces

- texts are `Kept` of records when each of them is the text of a record under the text of its key, and under the text
  of a key that its text tells there is the text of its record and nothing else; records whose keys have the same text
  get in each other's way, so there may be fewer texts than records;
- a keyspace `Files` containers when every container has a place of its own with texts kept of its records; a commit
  of a change set that fits keeps that (`Holds.commit`).
-/

namespace TableStore

namespace Keyspace

variable {texts : OrderedMap String String} {records : OrderedMap Key Record}

/-! ## Texts of records -/

/-- The text of a record. -/
def writeRecord (r : Record) : String := String.ofList (Json.writeRecord r)

/-- The text of a record under the text of its key. -/
def recordText (e : Key × Record) : String × String := (keyText e.1, writeRecord e.2)

/-- Texts in order, each of them that of a record; where the key is told by its text, that of the record with the key.
-/
structure Kept (texts : OrderedMap String String) (records : OrderedMap Key Record) : Prop where
  sorted : texts.Sorted fun _ => True
  of_record : ∀ x ∈ texts.entries, ∃ e ∈ records.entries, recordText e = x
  found : ∀ {k : Key}, k.Proper → k.Written → texts.find? (keyText k) = (records.find? k).map writeRecord

namespace Kept

theorem empty : Kept .empty .empty := ⟨OrderedMap.sorted_empty, fun _ h => absurd h List.not_mem_nil, fun _ _ => rfl⟩

theorem put (hr : records.Sorted Key.Proper) (h : Kept texts records) {e : Key × Record} (he : e.1.Proper) :
    Kept (putRecord texts e) (records.insert e.1 e.2) := by
  refine ⟨h.sorted.insert trivial _, fun x hx => ?_, fun {k} hk hw => ?_⟩
  · rcases (OrderedMap.mem_insertIn_iff (P := fun _ => True) trivial h.sorted).1 hx with rfl | ⟨hx, hne⟩
    · exact ⟨e, (OrderedMap.mem_insertIn_iff he hr).2 (.inl rfl), rfl⟩
    · obtain ⟨f, hf, rfl⟩ := h.of_record x hx
      have hne' : f.1 ≠ e.1 := fun hfe => hne (congrArg keyText hfe)
      exact ⟨f, (OrderedMap.mem_insertIn_iff he hr).2 (.inr ⟨hf, hne'⟩), rfl⟩
  · rw [putRecord, h.sorted.find?_insert trivial _ trivial, hr.find?_insert he _ hk]
    by_cases hke : k = e.1
    · rw [hke, if_pos rfl, if_pos rfl]
      rfl
    · rw [if_neg hke, if_neg fun ht => hke (keyText_inj hw ht.symm).symm]
      exact h.found hk hw

theorem erase (hr : records.Sorted Key.Proper) (h : Kept texts records) {k : Key} (hk : k.Proper) :
    Kept (eraseRecord texts k) (records.erase k) := by
  refine ⟨h.sorted.erase trivial, fun x hx => ?_, fun {l} hl hw => ?_⟩
  · obtain ⟨hx, hne⟩ := (OrderedMap.mem_eraseIn_iff (P := fun _ => True) trivial h.sorted).1 hx
    obtain ⟨f, hf, rfl⟩ := h.of_record x hx
    have hne' : f.1 ≠ k := fun hfk => hne (congrArg keyText hfk)
    exact ⟨f, (OrderedMap.mem_eraseIn_iff hk hr).2 ⟨hf, hne'⟩, rfl⟩
  · rw [eraseRecord, h.sorted.find?_erase trivial trivial, hr.find?_erase hk hl]
    by_cases hlk : l = k
    · rw [hlk, if_pos rfl, if_pos rfl]
      rfl
    · rw [if_neg hlk, if_neg fun ht => hlk (keyText_inj hw ht.symm).symm]
      exact h.found hl hw

theorem foldl_put : ∀ {es : List (Key × Record)} {texts : OrderedMap String String} {records : OrderedMap Key Record},
    records.Sorted Key.Proper → Kept texts records → (∀ e ∈ es, e.1.Proper) →
      Kept (es.foldl putRecord texts) (es.foldl (fun m e => m.insert e.1 e.2) records)
  | [], _, _, _, h, _ => h
  | e :: _, _, _, hr, h, hes => by
    obtain ⟨he, hes⟩ := List.forall_mem_cons.1 hes
    have ih := foldl_put (hr.insert he e.2) (h.put hr he) hes
    exact ih

theorem foldl_erase : ∀ {ks : List Key} {texts : OrderedMap String String} {records : OrderedMap Key Record},
    records.Sorted Key.Proper → Kept texts records → (∀ k ∈ ks, k.Proper) →
      Kept (ks.foldl eraseRecord texts) (ks.foldl .erase records)
  | [], _, _, _, h, _ => h
  | k :: _, _, _, hr, h, hks => by
    obtain ⟨hk, hks⟩ := List.forall_mem_cons.1 hks
    have ih := foldl_erase (hr.erase hk) (h.erase hr hk) hks
    exact ih

/-- All records of a container are written to an empty place. -/
theorem entries (hr : records.Sorted Key.Proper) : Kept (records.entries.foldl putRecord .empty) records := by
  have h := Kept.empty.foldl_put OrderedMap.sorted_empty hr.2
  rwa [hr.foldl_entries] at h

end Kept

/-! ## Places of containers -/

/-- A place keeps a container. -/
structure Keeps (k : Keyspace) (shelf : Shelf) (c : Container) : Prop where
  shelf_eq : shelf = ⟨shelf.partition, c.keyPath, c.autoIncrement, c.nextKey⟩
  ordered : c.Ordered
  kept : Kept (k.texts shelf.partition) c.records

/-- Every container has a place of its own, and there are no other places. -/
structure Files (k : Keyspace) (containers : OrderedMap String Container) : Prop where
  sorted : containers.Sorted fun _ => True
  shelves_sorted : k.shelves.Sorted fun _ => True
  partitions_sorted : k.partitions.Sorted fun _ => True
  same : ∀ name, (k.shelves.find? name).isSome = (containers.find? name).isSome
  keeps : ∀ {name shelf c}, k.shelves.find? name = some shelf → containers.find? name = some c → k.Keeps shelf c
  bounded : ∀ {name shelf}, k.shelves.find? name = some shelf → shelf.partition < k.nextPartition
  distinct : ∀ {m n s t}, k.shelves.find? m = some s → k.shelves.find? n = some t → s.partition = t.partition → m = n

variable {k : Keyspace} {containers : OrderedMap String Container}

/-- Containers are kept by whatever has the same texts in their place. -/
theorem Keeps.of_texts {k' : Keyspace} {shelf : Shelf} {c : Container} (h : k.Keeps shelf c)
    (ht : k'.texts shelf.partition = k.texts shelf.partition) : k'.Keeps shelf c :=
  ⟨h.shelf_eq, h.ordered, by rw [ht]; exact h.kept⟩

theorem Files.empty : Files {} .empty where
  sorted := OrderedMap.sorted_empty
  shelves_sorted := OrderedMap.sorted_empty
  partitions_sorted := OrderedMap.sorted_empty
  same _ := rfl
  keeps h := by cases h
  bounded h := by cases h
  distinct h := by cases h

/-- One name gets another place and another container, or neither; the texts in the other places stay. -/
theorem Files.replace (h : k.Files containers) {k' : Keyspace} {containers' : OrderedMap String Container}
    {name : String} {place : Option Shelf} {now : Option Container} (hcs : containers'.Sorted fun _ => True)
    (hss : k'.shelves.Sorted fun _ => True) (hps : k'.partitions.Sorted fun _ => True)
    (hshelves : ∀ n, k'.shelves.find? n = if n = name then place else k.shelves.find? n)
    (hcontainers : ∀ n, containers'.find? n = if n = name then now else containers.find? n)
    (hnext : k.nextPartition ≤ k'.nextPartition)
    (hplace : place = none ∧ now = none ∨
      ∃ s c, place = some s ∧ now = some c ∧ k'.Keeps s c ∧ s.partition < k'.nextPartition)
    (hothers : ∀ {n s}, n ≠ name → k.shelves.find? n = some s →
      k'.texts s.partition = k.texts s.partition ∧ ∀ t, place = some t → s.partition ≠ t.partition) :
    k'.Files containers' := by
  have hcases : ∀ {n s}, k'.shelves.find? n = some s →
      n = name ∧ place = some s ∨ n ≠ name ∧ k.shelves.find? n = some s := by
    intro n s hn
    rw [hshelves] at hn
    split at hn
    · rename_i hname
      exact .inl ⟨hname, hn⟩
    · rename_i hname
      exact .inr ⟨hname, hn⟩
  refine ⟨hcs, hss, hps, fun n => ?_, fun {n s c} hs hc => ?_, fun {n s} hs => ?_, fun {m n s t} hs ht he => ?_⟩
  · rw [hshelves, hcontainers]
    by_cases hname : n = name
    · rw [if_pos hname, if_pos hname]
      rcases hplace with ⟨hp, hn⟩ | ⟨s, c, hp, hn, -⟩ <;> rw [hp, hn] <;> rfl
    · rw [if_neg hname, if_neg hname]
      exact h.same n
  · rw [hcontainers] at hc
    rcases hcases hs with ⟨hname, hp⟩ | ⟨hname, hs⟩
    · rw [if_pos hname] at hc
      rcases hplace with ⟨hn, -⟩ | ⟨s', c', hp', hn', hk, -⟩
      · rw [hn] at hp
        cases hp
      · rw [hp] at hp'
        rw [hc] at hn'
        cases hp'
        cases hn'
        exact hk
    · rw [if_neg hname] at hc
      exact (h.keeps hs hc).of_texts (hothers hname hs).1
  · rcases hcases hs with ⟨-, hp⟩ | ⟨-, hs⟩
    · rcases hplace with ⟨hn, -⟩ | ⟨s', c', hp', -, -, hlt⟩
      · rw [hn] at hp
        cases hp
      · rw [hp] at hp'
        cases hp'
        exact hlt
    · exact Nat.lt_of_lt_of_le (h.bounded hs) hnext
  · rcases hcases hs with ⟨hm, hp⟩ | ⟨hm, hs⟩ <;> rcases hcases ht with ⟨hn, hq⟩ | ⟨hn, ht⟩
    · rw [hm, hn]
    · exact absurd he.symm ((hothers hn ht).2 s hp)
    · exact absurd he ((hothers hm hs).2 t hq)
    · exact h.distinct hs ht he

/-- A container and its place are dropped. -/
theorem Files.drop (h : k.Files containers) (name : String) : (k.drop name).Files (containers.erase name) := by
  have hcontainers : ∀ n, (containers.erase name).find? n = if n = name then none else containers.find? n :=
    fun _ => h.sorted.find?_erase trivial trivial
  cases hs : k.shelves.find? name with
  | none =>
    rw [show k.drop name = k by rw [Keyspace.drop, hs]]
    refine h.replace (h.sorted.erase trivial) h.shelves_sorted h.partitions_sorted (fun n => ?_) hcontainers
      (Nat.le_refl _) (.inl ⟨rfl, rfl⟩) fun _ _ => ⟨rfl, fun _ ht => by cases ht⟩
    split
    · rename_i hname
      rw [hname, hs]
    · rfl
  | some shelf =>
    simp only [Keyspace.drop, hs]
    refine h.replace (h.sorted.erase trivial) (h.shelves_sorted.erase trivial) (h.partitions_sorted.erase trivial)
      (fun n => h.shelves_sorted.find?_erase trivial trivial) hcontainers (Nat.le_refl _) (.inl ⟨rfl, rfl⟩)
      fun {n s} hne hn => ⟨?_, fun _ ht => by cases ht⟩
    show ((k.partitions.erase shelf.partition).find? s.partition).getD .empty = _
    rw [h.partitions_sorted.find?_erase trivial trivial, if_neg fun he => hne (h.distinct hn hs he)]
    rfl

/-- The texts in a place after texts were put there. -/
theorem Files.texts_insert (h : k.Files containers) {k' : Keyspace} {p : Nat} {texts : OrderedMap String String}
    (hp : k'.partitions = k.partitions.insert p texts) (q : Nat) :
    k'.texts q = if q = p then texts else k.texts q := by
  rw [Keyspace.texts, hp, h.partitions_sorted.find?_insert trivial _ trivial]
  split <;> rfl

/-- A new container gets a place that no other has. -/
theorem Files.create (h : k.Files containers) {c : Container} (hc : c.Ordered) :
    (k.create c).Files (containers.insert c.name c) := by
  have htexts : ∀ q, (k.create c).texts q = if q = k.nextPartition then _ else k.texts q := h.texts_insert rfl
  refine h.replace (h.sorted.insert trivial c) (h.shelves_sorted.insert trivial _)
    (h.partitions_sorted.insert trivial _)
    (fun n => h.shelves_sorted.find?_insert trivial _ trivial) (fun n => h.sorted.find?_insert trivial c trivial)
    (Nat.le_succ _) (.inr ⟨_, c, rfl, rfl, ⟨rfl, hc, ?_⟩, Nat.lt_succ_self _⟩) fun {n s} _ hn => ⟨?_, fun t ht => ?_⟩
  · rw [htexts, if_pos rfl]
    exact .entries hc
  · rw [htexts, if_neg (Nat.ne_of_lt (h.bounded hn))]
  · cases ht
    exact Nat.ne_of_lt (h.bounded hn)

/-! ## Changed records -/

/-- The changed records of a container are written to its place. -/
theorem Files.writeChanges (h : k.Files containers) {changes : Changes} {ks : List Key} (hex : changes.Exact ks)
    {shelf : Shelf} (hs : k.shelves.find? changes.name = some shelf) {c : Container}
    (hc : containers.find? changes.name = some c) :
    (k.writeChanges changes shelf).Files (containers.insert changes.name (c.apply changes)) := by
  have hk := h.keeps hs hc
  have hbound := h.bounded hs
  have hput := OrderedMap.Sorted.foldl_insert hk.ordered hex.proper_put
  have htexts : ∀ q, (k.writeChanges changes shelf).texts q = if q = shelf.partition then _ else k.texts q :=
    h.texts_insert rfl
  have hkept : Kept ((k.writeChanges changes shelf).texts shelf.partition) (c.apply changes).records := by
    rw [htexts, if_pos rfl]
    exact (hk.kept.foldl_put hk.ordered hex.proper_put).foldl_erase hput hex.proper_deleted
  have hshelf : { shelf with nextKey := changes.nextKey } =
      (⟨shelf.partition, c.keyPath, c.autoIncrement, changes.nextKey⟩ : Shelf) := by
    rw [hk.shelf_eq]
  refine h.replace (h.sorted.insert trivial _) (h.shelves_sorted.insert trivial _)
    (h.partitions_sorted.insert trivial _) (fun n => h.shelves_sorted.find?_insert trivial _ trivial)
    (fun n => h.sorted.find?_insert trivial _ trivial) (Nat.le_refl _)
    (.inr ⟨_, _, rfl, rfl, ⟨hshelf, hput.foldl_erase hex.proper_deleted, hkept⟩, hbound⟩)
    fun {n s} hne hn => ?_
  have hpart : s.partition ≠ shelf.partition := fun he => hne (h.distinct hn hs he)
  refine ⟨?_, fun t ht => ?_⟩
  · rw [htexts, if_neg hpart]
  · cases ht
    exact hpart

theorem Files.update : ∀ {updated : List Changes} {k : Keyspace} {i : Image}, k.Files i.containers →
    (∀ c ∈ updated, (i.find? c.name).isSome) → (∀ c ∈ updated, c.isEmpty = false) →
    (∀ c ∈ updated, ∃ ks, c.Exact ks) →
      ∃ k', k.update updated = .ok k' ∧ k'.tables = k.tables ∧ k'.Files (updated.foldl Image.update i).containers
  | [], k, _, h, _, _, _ => ⟨k, rfl, rfl, h⟩
  | changes :: updated, k, i, h, hpresent, hne, hex => by
    obtain ⟨hp, hpresent⟩ := List.forall_mem_cons.1 hpresent
    obtain ⟨hn, hne⟩ := List.forall_mem_cons.1 hne
    obtain ⟨⟨ks, hks⟩, hex⟩ := List.forall_mem_cons.1 hex
    obtain ⟨c, hc⟩ := Option.isSome_iff_exists.1 hp
    have hsame := h.same changes.name
    obtain ⟨shelf, hs⟩ : ∃ shelf, k.shelves.find? changes.name = some shelf :=
      Option.isSome_iff_exists.1 (hsame.trans hp)
    have hstep : i.update changes = i.set changes.name (c.apply changes) := by rw [Image.update, hc]
    have hfiles : (k.writeChanges changes shelf).Files (i.update changes).containers := by
      rw [hstep]
      exact h.writeChanges hks hs hc
    have hstill : ∀ c ∈ updated, ((i.update changes).find? c.name).isSome := by
      intro d hd
      rw [Image.find?_update h.sorted]
      split
      · rw [Option.isSome_map]
        exact hpresent d hd
      · exact hpresent d hd
    obtain ⟨k', hk', ht, hf⟩ := Files.update hfiles hstill hne hex
    refine ⟨k', ?_, ht, hf⟩
    rw [Keyspace.update, if_neg (by simp [hn]), hs]
    exact hk'

/-! ## Commits -/

theorem Files.foldl_drop : ∀ (names : List String) {k : Keyspace} {containers : OrderedMap String Container},
    k.Files containers → (names.foldl Keyspace.drop k).Files (names.foldl .erase containers)
  | [], _, _, h => h
  | name :: names, _, _, h => Files.foldl_drop names (h.drop name)

theorem Files.foldl_create : ∀ {cs : List Container} {k : Keyspace} {containers : OrderedMap String Container},
    k.Files containers → (∀ c ∈ cs, c.Ordered) →
      (cs.foldl Keyspace.create k).Files (cs.foldl (fun m c => m.insert c.name c) containers)
  | [], _, _, h, _ => h
  | _ :: _, _, _, h, hcs => by
    obtain ⟨hc, hcs⟩ := List.forall_mem_cons.1 hcs
    have ih := Files.foldl_create (h.create hc) hcs
    exact ih

theorem tables_foldl_drop : ∀ (names : List String) (k : Keyspace), (names.foldl Keyspace.drop k).tables = k.tables
  | [], _ => rfl
  | name :: names, k => by
    rw [List.foldl_cons, tables_foldl_drop names, Keyspace.drop]
    cases k.shelves.find? name <;> rfl

theorem tables_foldl_create : ∀ (cs : List Container) (k : Keyspace), (cs.foldl Keyspace.create k).tables = k.tables
  | [], _ => rfl
  | c :: cs, k => tables_foldl_create cs (k.create c)

theorem Files.of_tables (h : k.Files containers) (version : Option Nat) (tables : OrderedMap String String) :
    Files { k with version, tables } containers :=
  ⟨h.sorted, h.shelves_sorted, h.partitions_sorted, h.same, fun hs hc => (h.keeps hs hc).of_texts rfl, h.bounded,
    h.distinct⟩

/-- A keyspace keeps an image: the texts of its tables, and its containers. -/
structure Holds (k : Keyspace) (i : Image) : Prop where
  tables : k.tables = tableTexts i.catalog
  files : k.Files i.containers

/-- **A keyspace that keeps an image keeps the image that a commit makes of it.** -/
theorem Holds.commit {changes : ChangeSet} {i i' : Image} (h : k.Holds i) (hf : changes.Fits i i') :
    ∃ k', k.commit changes = .ok k' ∧ k'.version = some i'.version ∧ k'.Holds i' := by
  obtain rfl := hf.applied_eq
  have hcontainers : (i.renewed changes).containers =
      changes.created.foldl (fun m c => m.insert c.name c) (changes.dropped.foldl .erase i.containers) := by
    rw [Image.renewed, Image.foldl_set, List.foldl_map]
  have hfiles := (h.files.foldl_drop changes.dropped).foldl_create hf.ordered
  rw [← hcontainers] at hfiles
  obtain ⟨k', hk', ht, hf'⟩ := hfiles.update hf.present hf.nonempty hf.exact
  rw [tables_foldl_create, tables_foldl_drop, h.tables] at ht
  have hcommit : k.commit changes = .ok
      { k' with version := some changes.version, tables := (changes.catalog.map tableTexts).getD k'.tables } := by
    rw [Keyspace.commit]
    simp only [hk', Except.bind, bind]
    cases changes.catalog <;> rfl
  refine ⟨_, hcommit, congrArg some (Image.version_applied i changes).symm, ?_, hf'.of_tables _ _⟩
  rw [Image.catalog_applied]
  cases changes.catalog with
  | none => exact ht
  | some c => rfl

end Keyspace

end TableStore
