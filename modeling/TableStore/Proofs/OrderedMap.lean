import TableStore.OrderedMap
import Mathlib.Data.List.Pairwise

/-!
# Ordered maps as finite functions

- `LawfulOn P`: on the keys with the property `P` the order is linear and tells keys apart; maps are `Sorted P` when
  their keys are strictly increasing and have it;
- a sorted map is known by what it gives for its keys (`Sorted.ext`), and `insert`, `erase`, `mapValues` and folds of
  them change what it gives as they should (`find?_insert`, `find?_erase`, `find?_mapValues`, `find?_foldl_erase`,
  `find?_foldl_insert`);
- every operation keeps maps sorted.
-/

namespace TableStore

universe u v w

/-- On the elements with a property, the order is linear and equal elements are the same. -/
class LawfulOn {κ : Type u} [Ord κ] (P : κ → Prop) : Prop where
  compare_self : ∀ {a : κ}, P a → compare a a = .eq
  eq_of_compare : ∀ {a b : κ}, P a → P b → compare a b = .eq → a = b
  lt_of_gt : ∀ {a b : κ}, P a → P b → compare a b = .gt → compare b a = .lt
  gt_of_lt : ∀ {a b : κ}, P a → P b → compare a b = .lt → compare b a = .gt
  lt_trans : ∀ {a b c : κ}, P a → P b → P c → compare a b = .lt → compare b c = .lt → compare a c = .lt

/-- A linear order is lawful on everything. -/
instance {κ : Type u} [Ord κ] [Std.TransOrd κ] [Std.LawfulEqOrd κ] : LawfulOn fun _ : κ => True where
  compare_self _ := Std.ReflOrd.compare_self
  eq_of_compare _ _ h := Std.LawfulEqOrd.eq_of_compare h
  lt_of_gt _ _ h := Std.OrientedCmp.lt_of_gt h
  gt_of_lt _ _ h := Std.OrientedCmp.gt_of_lt h
  lt_trans _ _ _ h h' := Std.TransCmp.lt_trans h h'

namespace OrderedMap

variable {κ : Type u} [Ord κ] {P : κ → Prop} {α : Type v} {β : Type w}

/-! ## Sorted entries -/

/-- Entries whose keys are strictly increasing and have a property. -/
def SortedIn (P : κ → Prop) (l : List (κ × α)) : Prop :=
  l.Pairwise (fun e f => compare e.1 f.1 = .lt) ∧ ∀ e ∈ l, P e.1

theorem sortedIn_nil : SortedIn P ([] : List (κ × α)) := ⟨.nil, fun _ h => by cases h⟩

theorem sortedIn_cons {e : κ × α} {l : List (κ × α)} :
    SortedIn P (e :: l) ↔ P e.1 ∧ (∀ f ∈ l, compare e.1 f.1 = .lt) ∧ SortedIn P l := by
  simp only [SortedIn, List.pairwise_cons, List.forall_mem_cons]
  exact ⟨fun ⟨⟨h1, h2⟩, h3, h4⟩ => ⟨h3, h1, h2, h4⟩, fun ⟨h3, h1, h2, h4⟩ => ⟨⟨h1, h2⟩, h3, h4⟩⟩

section Lawful

variable [LawfulOn P]

theorem ne_of_lt {a b : κ} (ha : P a) (h : compare a b = .lt) : a ≠ b := by
  rintro rfl
  rw [LawfulOn.compare_self ha] at h
  cases h

/-- A look-up finds the entry with the key. -/
theorem findIn_eq_some {k : κ} (hk : P k) {e : κ × α} :
    ∀ {l : List (κ × α)}, SortedIn P l → (findIn k l = some e ↔ e ∈ l ∧ e.1 = k)
  | [], _ => by simp [findIn]
  | d :: l, hl => by
    obtain ⟨hd, hlt, hl⟩ := sortedIn_cons.1 hl
    rw [findIn]
    split
    · -- `k` comes before all keys
      rename_i h
      constructor
      · intro h'; cases h'
      · rintro ⟨he, rfl⟩
        rcases List.mem_cons.1 he with rfl | he
        · exact absurd rfl (ne_of_lt hd h)
        · exact absurd rfl (ne_of_lt hk (LawfulOn.lt_trans hk hd (hl.2 e he) h (hlt e he)))
    · rename_i h
      obtain rfl := LawfulOn.eq_of_compare hk hd h
      constructor
      · intro h'
        obtain rfl := Option.some.inj h'
        exact ⟨List.mem_cons_self, rfl⟩
      · rintro ⟨he, h'⟩
        rcases List.mem_cons.1 he with rfl | he
        · rfl
        · exact absurd h'.symm (ne_of_lt hd (hlt e he))
    · rename_i h
      rw [findIn_eq_some hk hl]
      constructor
      · rintro ⟨he, h'⟩
        exact ⟨List.mem_cons_of_mem _ he, h'⟩
      · rintro ⟨he, h'⟩
        rcases List.mem_cons.1 he with rfl | he
        · exact absurd h' (ne_of_lt hd (LawfulOn.lt_of_gt hk hd h))
        · exact ⟨he, h'⟩

/-- The entries after a key was set. -/
theorem mem_insertIn_iff {k : κ} (hk : P k) {a : α} {e : κ × α} :
    ∀ {l : List (κ × α)}, SortedIn P l → (e ∈ insertIn k a l ↔ e = (k, a) ∨ e ∈ l ∧ e.1 ≠ k)
  | [], _ => by simp [insertIn]
  | d :: l, hl => by
    obtain ⟨hd, hlt, hl⟩ := sortedIn_cons.1 hl
    rw [insertIn]
    split
    · rename_i h
      have hne : ∀ f ∈ d :: l, f.1 ≠ k := by
        intro f hf
        rcases List.mem_cons.1 hf with rfl | hf
        · exact (ne_of_lt hk h).symm
        · exact (ne_of_lt hk (LawfulOn.lt_trans hk hd (hl.2 f hf) h (hlt f hf))).symm
      simp only [List.mem_cons]
      exact or_congr_right ⟨fun he => ⟨he, hne e (List.mem_cons.2 he)⟩, And.left⟩
    · rename_i h
      obtain rfl := LawfulOn.eq_of_compare hk hd h
      have hne : ∀ f ∈ l, f.1 ≠ d.1 := fun f hf => (ne_of_lt hd (hlt f hf)).symm
      simp only [List.mem_cons]
      refine or_congr_right ⟨fun he => ⟨.inr he, hne e he⟩, ?_⟩
      rintro ⟨rfl | he, h'⟩
      · exact absurd rfl h'
      · exact he
    · rename_i h
      have hne : d.1 ≠ k := ne_of_lt hd (LawfulOn.lt_of_gt hk hd h)
      simp only [List.mem_cons, mem_insertIn_iff hk hl]
      constructor
      · rintro (rfl | rfl | ⟨he, h'⟩)
        · exact .inr ⟨.inl rfl, hne⟩
        · exact .inl rfl
        · exact .inr ⟨.inr he, h'⟩
      · rintro (rfl | ⟨rfl | he, h'⟩)
        · exact .inr (.inl rfl)
        · exact .inl rfl
        · exact .inr (.inr ⟨he, h'⟩)

/-- The entries after a key was taken out. -/
theorem mem_eraseIn_iff {k : κ} (hk : P k) {e : κ × α} :
    ∀ {l : List (κ × α)}, SortedIn P l → (e ∈ eraseIn k l ↔ e ∈ l ∧ e.1 ≠ k)
  | [], _ => by simp [eraseIn]
  | d :: l, hl => by
    obtain ⟨hd, hlt, hl⟩ := sortedIn_cons.1 hl
    rw [eraseIn]
    split
    · rename_i h
      refine ⟨fun he => ⟨he, ?_⟩, And.left⟩
      rcases List.mem_cons.1 he with rfl | he
      · exact (ne_of_lt hk h).symm
      · exact (ne_of_lt hk (LawfulOn.lt_trans hk hd (hl.2 e he) h (hlt e he))).symm
    · rename_i h
      obtain rfl := LawfulOn.eq_of_compare hk hd h
      simp only [List.mem_cons]
      refine ⟨fun he => ⟨.inr he, (ne_of_lt hd (hlt e he)).symm⟩, ?_⟩
      rintro ⟨rfl | he, h'⟩
      · exact absurd rfl h'
      · exact he
    · rename_i h
      have hne : d.1 ≠ k := ne_of_lt hd (LawfulOn.lt_of_gt hk hd h)
      simp only [List.mem_cons, mem_eraseIn_iff hk hl]
      constructor
      · rintro (rfl | ⟨he, h'⟩)
        · exact ⟨.inl rfl, hne⟩
        · exact ⟨.inr he, h'⟩
      · rintro ⟨rfl | he, h'⟩
        · exact .inl rfl
        · exact .inr ⟨he, h'⟩

theorem SortedIn.insertIn {k : κ} (hk : P k) (a : α) : ∀ {l : List (κ × α)}, SortedIn P l → SortedIn P (insertIn k a l)
  | [], _ => sortedIn_cons.2 ⟨hk, by simp, sortedIn_nil⟩
  | d :: l, h => by
    obtain ⟨hd, hlt, hl⟩ := sortedIn_cons.1 h
    rw [OrderedMap.insertIn]
    split
    · rename_i hc
      refine sortedIn_cons.2 ⟨hk, fun f hf => ?_, h⟩
      rcases List.mem_cons.1 hf with rfl | hf
      · exact hc
      · exact LawfulOn.lt_trans hk hd (hl.2 f hf) hc (hlt f hf)
    · exact sortedIn_cons.2 ⟨hd, hlt, hl⟩
    · rename_i hc
      refine sortedIn_cons.2 ⟨hd, fun f hf => ?_, hl.insertIn hk a⟩
      rcases (mem_insertIn_iff hk hl).1 hf with rfl | ⟨hf, _⟩
      · exact LawfulOn.lt_of_gt hk hd hc
      · exact hlt f hf

theorem SortedIn.eraseIn {k : κ} (hk : P k) : ∀ {l : List (κ × α)}, SortedIn P l → SortedIn P (eraseIn k l)
  | [], _ => sortedIn_nil
  | d :: l, h => by
    obtain ⟨hd, hlt, hl⟩ := sortedIn_cons.1 h
    rw [OrderedMap.eraseIn]
    split
    · exact h
    · exact hl
    · exact sortedIn_cons.2 ⟨hd, fun f hf => hlt f ((mem_eraseIn_iff hk hl).1 hf).1, hl.eraseIn hk⟩

/-- Sorted lists with the same entries are the same. -/
theorem SortedIn.eq_of_mem_iff : ∀ {l m : List (κ × α)}, SortedIn P l → SortedIn P m → (∀ e, e ∈ l ↔ e ∈ m) → l = m
  | [], [], _, _, _ => rfl
  | [], e :: _, _, _, h => by simpa using h e
  | e :: _, [], _, _, h => by simpa using h e
  | d :: l, e :: m, hdl, hem, h => by
    obtain ⟨hd, hlt, hl⟩ := sortedIn_cons.1 hdl
    obtain ⟨he, hmt, hm⟩ := sortedIn_cons.1 hem
    have hde : d = e := by
      rcases List.mem_cons.1 ((h d).1 List.mem_cons_self) with hd' | hd'
      · exact hd'
      · rcases List.mem_cons.1 ((h e).2 List.mem_cons_self) with he' | he'
        · exact he'.symm
        · have := LawfulOn.gt_of_lt hd he (hlt e he')
          rw [hmt d hd'] at this
          cases this
    subst hde
    refine congrArg (d :: ·) (hl.eq_of_mem_iff hm fun f => ⟨fun hf => ?_, fun hf => ?_⟩)
    · rcases List.mem_cons.1 ((h f).1 (List.mem_cons_of_mem _ hf)) with rfl | hf'
      · exact absurd rfl (ne_of_lt hd (hlt f hf))
      · exact hf'
    · rcases List.mem_cons.1 ((h f).2 (List.mem_cons_of_mem _ hf)) with rfl | hf'
      · exact absurd rfl (ne_of_lt hd (hmt f hf))
      · exact hf'

end Lawful

/-! ## Sorted maps -/

/-- The keys are strictly increasing and have a property. -/
def Sorted (P : κ → Prop) (m : OrderedMap κ α) : Prop := SortedIn P m.entries

theorem sorted_empty : (empty : OrderedMap κ α).Sorted P := sortedIn_nil

theorem Sorted.of_mem_keys {m : OrderedMap κ α} (hm : m.Sorted P) {k : κ} (hk : k ∈ m.keys) : P k := by
  obtain ⟨e, he, rfl⟩ := List.mem_map.1 hk
  exact hm.2 e he

theorem Sorted.ascending {m : OrderedMap κ α} (hm : m.Sorted P) : m.Ascending := List.pairwise_map.2 hm.1

/-- The keys are those of the entries that have a value. -/
theorem contains_eq_isSome (m : OrderedMap κ α) (k : κ) : m.contains k = (m.find? k).isSome := by
  simp [contains, find?]

theorem contains_insert_self [Std.ReflOrd κ] (m : OrderedMap κ α) (k : κ) (a : α) : (m.insert k a).contains k := by
  rw [contains_eq_isSome, find?_insert_self]
  rfl

@[simp] theorem find?_empty (k : κ) : (empty : OrderedMap κ α).find? k = none := rfl

section Lawful

variable [LawfulOn P]

/-- A look-up finds the value that stands beside the key. -/
theorem Sorted.find?_eq_some {m : OrderedMap κ α} (hm : m.Sorted P) {k : κ} (hk : P k) {a : α} :
    m.find? k = some a ↔ (k, a) ∈ m.entries := by
  simp only [find?, findEntry?, Option.map_eq_some_iff, findIn_eq_some hk hm]
  constructor
  · rintro ⟨e, ⟨he, rfl⟩, rfl⟩
    exact he
  · exact fun h => ⟨(k, a), ⟨h, rfl⟩, rfl⟩

theorem Sorted.mem_keys {m : OrderedMap κ α} (hm : m.Sorted P) {k : κ} (hk : P k) :
    k ∈ m.keys ↔ ∃ a, m.find? k = some a := by
  simp only [keys, List.mem_map, hm.find?_eq_some hk]
  constructor
  · rintro ⟨e, he, rfl⟩
    exact ⟨e.2, he⟩
  · exact fun ⟨a, ha⟩ => ⟨(k, a), ha, rfl⟩

theorem Sorted.mem_keys_iff_contains {m : OrderedMap κ α} (hm : m.Sorted P) {k : κ} (hk : P k) :
    k ∈ m.keys ↔ m.contains k = true := by
  rw [hm.mem_keys hk, contains_eq_isSome, Option.isSome_iff_exists]

theorem Sorted.mem_values {m : OrderedMap κ α} (hm : m.Sorted P) {a : α} :
    a ∈ m.values ↔ ∃ k, P k ∧ m.find? k = some a := by
  simp only [values, List.mem_map]
  constructor
  · rintro ⟨e, he, rfl⟩
    exact ⟨e.1, hm.2 e he, (hm.find?_eq_some (hm.2 e he)).2 he⟩
  · rintro ⟨k, hk, h⟩
    exact ⟨(k, a), (hm.find?_eq_some hk).1 h, rfl⟩

theorem Sorted.nodup_keys {m : OrderedMap κ α} (hm : m.Sorted P) : m.keys.Nodup :=
  hm.ascending.imp_of_mem fun ha _ hlt => ne_of_lt (hm.of_mem_keys ha) hlt

/-- A look-up of an entry gives the key that was asked for. -/
theorem Sorted.findEntry?_eq {m : OrderedMap κ α} (hm : m.Sorted P) {k : κ} (hk : P k) :
    m.findEntry? k = (m.find? k).map (k, ·) := by
  cases h : m.findEntry? k with
  | none => simp [find?, h]
  | some e =>
    obtain ⟨_, rfl⟩ := (findIn_eq_some hk hm).1 h
    simp [find?, h]

/-- **Sorted maps that give the same are the same.** -/
theorem Sorted.ext {m n : OrderedMap κ α} (hm : m.Sorted P) (hn : n.Sorted P)
    (h : ∀ k, P k → m.find? k = n.find? k) : m = n := by
  have he : ∀ e, e ∈ m.entries ↔ e ∈ n.entries := by
    rintro ⟨k, a⟩
    constructor
    · intro hm'
      have hk := hm.2 _ hm'
      rw [← hn.find?_eq_some hk, ← h k hk, hm.find?_eq_some hk]
      exact hm'
    · intro hn'
      have hk := hn.2 _ hn'
      rw [← hm.find?_eq_some hk, h k hk, hn.find?_eq_some hk]
      exact hn'
  cases m
  cases n
  exact congrArg OrderedMap.mk (SortedIn.eq_of_mem_iff hm hn he)

/-! ## Changes -/

theorem Sorted.insert {m : OrderedMap κ α} (hm : m.Sorted P) {k : κ} (hk : P k) (a : α) : (m.insert k a).Sorted P :=
  SortedIn.insertIn hk a hm

theorem Sorted.erase {m : OrderedMap κ α} (hm : m.Sorted P) {k : κ} (hk : P k) : (m.erase k).Sorted P :=
  SortedIn.eraseIn hk hm

theorem Sorted.foldl_erase {m : OrderedMap κ α} (hm : m.Sorted P) {ks : List κ} (hks : ∀ k ∈ ks, P k) :
    (ks.foldl OrderedMap.erase m).Sorted P := by
  induction ks generalizing m with
  | nil => exact hm
  | cons k ks ih =>
    obtain ⟨hk, hks⟩ := List.forall_mem_cons.1 hks
    exact ih (hm.erase hk) hks

theorem Sorted.foldl_insert {m : OrderedMap κ α} (hm : m.Sorted P) {es : List (κ × α)} (hes : ∀ e ∈ es, P e.1) :
    (es.foldl (fun m e => m.insert e.1 e.2) m).Sorted P := by
  induction es generalizing m with
  | nil => exact hm
  | cons e es ih =>
    obtain ⟨he, hes⟩ := List.forall_mem_cons.1 hes
    exact ih (hm.insert he e.2) hes

variable [DecidableEq κ]

theorem Sorted.find?_insert {m : OrderedMap κ α} (hm : m.Sorted P) {k : κ} (hk : P k) (a : α) {k' : κ} (hk' : P k') :
    (m.insert k a).find? k' = if k' = k then some a else m.find? k' := by
  apply Option.ext
  intro b
  rw [(hm.insert hk a).find?_eq_some hk']
  show (k', b) ∈ insertIn k a m.entries ↔ _
  rw [mem_insertIn_iff hk hm]
  split
  · rename_i h
    subst h
    simp [eq_comm]
  · rename_i h
    simp [h, hm.find?_eq_some hk']

theorem Sorted.find?_erase {m : OrderedMap κ α} (hm : m.Sorted P) {k : κ} (hk : P k) {k' : κ} (hk' : P k') :
    (m.erase k).find? k' = if k' = k then none else m.find? k' := by
  apply Option.ext
  intro b
  rw [(hm.erase hk).find?_eq_some hk']
  show (k', b) ∈ eraseIn k m.entries ↔ _
  rw [mem_eraseIn_iff hk hm]
  split
  · rename_i h
    simp [h]
  · rename_i h
    simp [h, hm.find?_eq_some hk']

/-! ## Changes one after another -/

theorem Sorted.find?_foldl_erase {m : OrderedMap κ α} (hm : m.Sorted P) {ks : List κ} (hks : ∀ k ∈ ks, P k)
    {k' : κ} (hk' : P k') : (ks.foldl OrderedMap.erase m).find? k' = if k' ∈ ks then none else m.find? k' := by
  induction ks generalizing m with
  | nil => simp
  | cons k ks ih =>
    obtain ⟨hk, hks⟩ := List.forall_mem_cons.1 hks
    rw [List.foldl_cons, ih (hm.erase hk) hks, hm.find?_erase hk hk']
    by_cases h : k' ∈ ks
    · simp [h]
    · simp [h]

/-- A key that is not set keeps its value. -/
theorem Sorted.find?_foldl_insert_of_notMem {m : OrderedMap κ α} (hm : m.Sorted P) {es : List (κ × α)}
    (hes : ∀ e ∈ es, P e.1) {k' : κ} (hk' : P k') (h : k' ∉ es.map Prod.fst) :
    (es.foldl (fun m e => m.insert e.1 e.2) m).find? k' = m.find? k' := by
  induction es generalizing m with
  | nil => rfl
  | cons e es ih =>
    obtain ⟨he, hes⟩ := List.forall_mem_cons.1 hes
    rw [List.map_cons, List.mem_cons, not_or] at h
    rw [List.foldl_cons, ih (hm.insert he e.2) hes h.2, hm.find?_insert he e.2 hk', if_neg h.1]

/-- A key that is set once has the value that it is set to. -/
theorem Sorted.find?_foldl_insert_of_mem {m : OrderedMap κ α} (hm : m.Sorted P) {es : List (κ × α)}
    (hes : ∀ e ∈ es, P e.1) (hnd : (es.map Prod.fst).Nodup) {k' : κ} {a : α} (h : (k', a) ∈ es) :
    (es.foldl (fun m e => m.insert e.1 e.2) m).find? k' = some a := by
  induction es generalizing m with
  | nil => cases h
  | cons e es ih =>
    obtain ⟨he, hes'⟩ := List.forall_mem_cons.1 hes
    rw [List.map_cons, List.nodup_cons] at hnd
    rw [List.foldl_cons]
    rcases List.mem_cons.1 h with rfl | h
    · rw [(hm.insert he a).find?_foldl_insert_of_notMem hes' he hnd.1, hm.find?_insert he a he, if_pos rfl]
    · exact ih (hm.insert he e.2) hes' hnd.2 h

/-- All entries of a sorted map set in another one. -/
theorem Sorted.find?_foldl_entries {m n : OrderedMap κ α} (hm : m.Sorted P) (hn : n.Sorted P) {k : κ} (hk : P k) :
    (n.entries.foldl (fun m e => m.insert e.1 e.2) m).find? k = (n.find? k).or (m.find? k) := by
  cases h : n.find? k with
  | none =>
    refine hm.find?_foldl_insert_of_notMem hn.2 hk fun hk' => ?_
    obtain ⟨a, ha⟩ := (hn.mem_keys hk).1 hk'
    simp [h] at ha
  | some a =>
    refine hm.find?_foldl_insert_of_mem hn.2 ?_ ((hn.find?_eq_some hk).1 h)
    exact hn.nodup_keys

/-- All entries of a sorted map set in the empty one. -/
theorem Sorted.foldl_entries {n : OrderedMap κ α} (hn : n.Sorted P) :
    n.entries.foldl (fun m e => m.insert e.1 e.2) empty = n := by
  refine (sorted_empty.foldl_insert hn.2).ext hn fun k hk => ?_
  rw [sorted_empty.find?_foldl_entries hn hk, find?_empty, Option.or_none]

/-- All keys of a sorted map taken out of another one. -/
theorem Sorted.find?_foldl_erase_keys {m : OrderedMap κ α} {n : OrderedMap κ β} (hm : m.Sorted P) (hn : n.Sorted P)
    {k : κ} (hk : P k) : (n.keys.foldl OrderedMap.erase m).find? k = if n.contains k then none else m.find? k := by
  rw [hm.find?_foldl_erase (fun _ => hn.of_mem_keys) hk]
  exact if_congr (hn.mem_keys_iff_contains hk) rfl rfl

end Lawful

/-! ## Values -/

omit [Ord κ] in
@[simp] theorem values_mapValues (f : α → β) (m : OrderedMap κ α) : (m.mapValues f).values = m.values.map f := by
  simp [values, mapValues]

theorem of_mem_insertIn {k : κ} {a : α} {e : κ × α} :
    ∀ {l : List (κ × α)}, e ∈ insertIn k a l → e.2 = a ∨ e ∈ l
  | [], h => .inl (congrArg Prod.snd (List.mem_singleton.1 h))
  | d :: l, h => by
    rw [insertIn] at h
    split at h
    · rcases List.mem_cons.1 h with rfl | h
      · exact .inl rfl
      · exact .inr h
    · rcases List.mem_cons.1 h with rfl | h
      · exact .inl rfl
      · exact .inr (List.mem_cons_of_mem _ h)
    · rcases List.mem_cons.1 h with rfl | h
      · exact .inr List.mem_cons_self
      · exact (of_mem_insertIn h).imp id (List.mem_cons_of_mem _)

theorem sublist_eraseIn (k : κ) : ∀ l : List (κ × α), (eraseIn k l).Sublist l
  | [] => .slnil
  | (k', a') :: rest => by
    rw [eraseIn]
    split
    · exact List.Sublist.refl _
    · exact List.sublist_cons_self _ _
    · exact (sublist_eraseIn k rest).cons_cons _

theorem of_mem_eraseIn {k : κ} {e : κ × α} {l : List (κ × α)} (h : e ∈ eraseIn k l) : e ∈ l :=
  (sublist_eraseIn k l).subset h

theorem of_findIn {k : κ} {e : κ × α} : ∀ {l : List (κ × α)}, findIn k l = some e → e ∈ l
  | [], h => by cases h
  | d :: l, h => by
    rw [findIn] at h
    split at h
    · cases h
    · cases h
      exact List.mem_cons_self
    · exact List.mem_cons_of_mem _ (of_findIn h)

/-- The key that is found is equal to the one that was asked for. -/
theorem compare_of_findIn {k : κ} {e : κ × α} : ∀ {l : List (κ × α)}, findIn k l = some e → compare k e.1 = .eq
  | [], h => by cases h
  | d :: l, h => by
    rw [findIn] at h
    split at h
    · cases h
    · rename_i hd
      cases h
      exact hd
    · exact compare_of_findIn h

/-! ### Keys beyond all others -/

theorem findIn_of_gt {k : κ} : ∀ {l : List (κ × α)}, (∀ e ∈ l, compare k e.1 = .gt) → findIn k l = none
  | [], _ => rfl
  | e :: l, h => by
    obtain ⟨he, hl⟩ := List.forall_mem_cons.1 h
    simp only [findIn, he]
    exact findIn_of_gt hl

/-- A key beyond all others comes last. -/
theorem insertIn_of_gt {k : κ} (a : α) : ∀ {l : List (κ × α)}, (∀ e ∈ l, compare k e.1 = .gt) →
    insertIn k a l = l ++ [(k, a)]
  | [], _ => rfl
  | e :: l, h => by
    obtain ⟨he, hl⟩ := List.forall_mem_cons.1 h
    simp only [insertIn, he, List.cons_append, insertIn_of_gt a hl]

/-- A value is the one that was set, or was there. -/
theorem of_mem_values_insert {m : OrderedMap κ α} {k : κ} {a b : α} (h : b ∈ (m.insert k a).values) :
    b = a ∨ b ∈ m.values := by
  obtain ⟨e, he, rfl⟩ := List.mem_map.1 h
  exact (of_mem_insertIn he).imp id List.mem_map_of_mem

theorem of_mem_values_erase {m : OrderedMap κ α} {k : κ} {b : α} (h : b ∈ (m.erase k).values) : b ∈ m.values := by
  obtain ⟨e, he, rfl⟩ := List.mem_map.1 h
  exact List.mem_map_of_mem (of_mem_eraseIn he)

theorem mem_values_of_find? {m : OrderedMap κ α} {k : κ} {a : α} (h : m.find? k = some a) : a ∈ m.values := by
  obtain ⟨e, he, rfl⟩ := Option.map_eq_some_iff.1 h
  exact List.mem_map_of_mem (of_findIn he)

theorem findIn_map (f : α → β) (k : κ) :
    ∀ l : List (κ × α), findIn k (l.map fun e => (e.1, f e.2)) = (findIn k l).map fun e => (e.1, f e.2)
  | [] => rfl
  | e :: l => by
    simp only [List.map_cons, findIn]
    split
    · rfl
    · rfl
    · exact findIn_map f k l

@[simp] theorem find?_mapValues (f : α → β) (m : OrderedMap κ α) (k : κ) :
    (m.mapValues f).find? k = (m.find? k).map f := by
  simp only [find?, findEntry?, mapValues, findIn_map, Option.map_map]
  rfl

theorem Sorted.mapValues {m : OrderedMap κ α} (hm : m.Sorted P) (f : α → β) : (m.mapValues f).Sorted P := by
  refine ⟨List.pairwise_map.2 hm.1, fun e he => ?_⟩
  obtain ⟨d, hd, rfl⟩ := List.mem_map.1 he
  exact hm.2 d hd

end OrderedMap

end TableStore
