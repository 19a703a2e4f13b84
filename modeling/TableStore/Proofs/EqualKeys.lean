import TableStore.Proofs.KeyOrder
import Mathlib.Data.List.Forall2

/-!
# Records under equal keys

- two keys can be equal in the order without being the same: a real that is an integer is equal to the integer. Maps are
  the `Same` when they hold the same values under equal keys;
- a map is `Regular` when its keys increase by their parts and none is a NaN: so are the maps under proper keys, and
  everything that is the same as a regular map (`Same.regular`);
- equality is not transitive, as each zero among the reals is equal to the integer but not to the other; yet every key
  that is equal to a key of a regular map tells it from the others. So what was set or taken out is brought back in
  every map that is the same as the changed one (`SameIn.undo_insertIn`, `SameIn.undo_eraseIn`).
-/

namespace TableStore

/-! ## Equal keys -/

namespace Key

variable {a a' b b' k : Key}

/-- Keys with different parts are in the order of these. -/
theorem compare_of_parts_ne (ha : a.Comparable) (hb : b.Comparable) (h : compareParts a b ≠ .eq) :
    compare a b = compareParts a b := by
  have hamount : ∀ r : Binary64, r.units = 0 → r.signedUnits = 0 := fun r hr => by
    rw [Binary64.signedUnits, hr]
    split <;> rfl
  refine compare_of_units ha hb fun r s hr hs => ?_
  by_contra h0
  obtain ⟨hr0, hs0⟩ := not_or.1 h0
  subst hr hs
  refine h ?_
  rw [compareParts_numbers rfl rfl]
  exact Int.compare_eq_eq.2 ((hamount r (not_not.1 hr0)).trans (hamount s (not_not.1 hs0)).symm)

/-- Equal keys have equal parts. -/
theorem parts_of_compare_eq (ha : a.Comparable) (hb : b.Comparable) (h : compare a b = .eq) :
    compareParts a b = .eq := by
  by_contra hne
  exact hne (compare_of_parts_ne ha hb hne ▸ h)

/-- What is equal to a key that is no NaN is no NaN. -/
theorem comparable_of_compare_eq (hb : b.Comparable) (h : compare a b = .eq) : a.Comparable := by
  cases a with
  | integer i => trivial
  | text s => trivial
  | real r =>
    by_contra hn
    exact compare_ne_eq_of_nan (by simpa [Comparable] using hn) hb h

/-- A proper key is ordered alike with equal keys. -/
theorem compare_congr_of_proper (hk : k.Proper) (ha : a.Comparable) (h : compare a' a = .eq) :
    compare k a' = compare k a := by
  have ha' := comparable_of_compare_eq ha h
  rw [compare_of_proper hk ha', compare_of_proper hk ha]
  exact Std.TransCmp.congr_right (parts_of_compare_eq ha' ha h)

/-- Keys with different parts are ordered as the keys that they are equal to. -/
theorem compare_congr_of_parts {o : Ordering} (ha : a.Comparable) (hb : b.Comparable) (ha' : compare a' a = .eq)
    (hb' : compare b' b = .eq) (h : compareParts a b = o) (ho : o ≠ .eq) : compare a' b' = o := by
  have hca := comparable_of_compare_eq ha ha'
  have hcb := comparable_of_compare_eq hb hb'
  have hparts : compareParts a' b' = o := by
    rw [Std.TransCmp.congr_left (parts_of_compare_eq hca ha ha'),
      Std.TransCmp.congr_right (parts_of_compare_eq hcb hb hb'), h]
  rw [compare_of_parts_ne hca hcb (hparts ▸ ho), hparts]

end Key

namespace OrderedMap

open Key

variable {α : Type} {k : Key} {r : α} {e : Key × α} {l n : List (Key × α)}

/-! ## Regular entries -/

/-- Entries whose keys increase by their parts, and of which none is a NaN. -/
def RegularIn (l : List (Key × α)) : Prop :=
  l.Pairwise (fun e f => compareParts e.1 f.1 = .lt) ∧ ∀ e ∈ l, e.1.Comparable

theorem regularIn_cons :
    RegularIn (e :: l) ↔ e.1.Comparable ∧ (∀ f ∈ l, compareParts e.1 f.1 = .lt) ∧ RegularIn l := by
  simp only [RegularIn, List.pairwise_cons, List.forall_mem_cons]
  exact ⟨fun ⟨⟨h1, h2⟩, h3, h4⟩ => ⟨h3, h1, h2, h4⟩, fun ⟨h3, h1, h2, h4⟩ => ⟨⟨h1, h2⟩, h3, h4⟩⟩

theorem SortedIn.regularIn (h : SortedIn Proper l) : RegularIn l := by
  refine ⟨h.1.imp_of_mem fun he hf hlt => ?_, fun e he => (h.2 e he).comparable⟩
  rwa [← compare_eq_compareParts (h.2 _ he) (h.2 _ hf)]

theorem RegularIn.eraseIn (k : Key) (h : RegularIn l) : RegularIn (eraseIn k l) :=
  ⟨h.1.sublist (sublist_eraseIn k l), fun e he => h.2 e (of_mem_eraseIn he)⟩

theorem RegularIn.insertIn (hk : k.Proper) (r : α) (h : RegularIn l) : RegularIn (insertIn k r l) := by
  induction l with
  | nil => exact regularIn_cons.2 ⟨hk.comparable, by simp, h⟩
  | cons e l ih =>
    obtain ⟨he, hlt, hl⟩ := regularIn_cons.1 h
    rw [OrderedMap.insertIn]
    split
    · rename_i hc
      rw [compare_of_proper hk he] at hc
      refine regularIn_cons.2 ⟨hk.comparable, fun f hf => ?_, h⟩
      rcases List.mem_cons.1 hf with rfl | hf
      · exact hc
      · exact Std.TransCmp.lt_trans hc (hlt f hf)
    · exact regularIn_cons.2 ⟨he, hlt, hl⟩
    · rename_i hc
      rw [compare_of_proper hk he] at hc
      refine regularIn_cons.2 ⟨he, fun f hf => ?_, ih hl⟩
      rcases mem_insertIn hf with hf | ⟨b, hb⟩
      · rw [hf]
        exact Std.OrientedCmp.lt_of_gt hc
      · exact hlt (f.1, b) hb

/-! ## Entries with equal keys -/

/-- The same values under equal keys, entry by entry. -/
def SameIn (l n : List (Key × α)) : Prop := List.Forall₂ (fun e f => compare e.1 f.1 = .eq ∧ e.2 = f.2) l n

theorem SameIn.refl (l : List (Key × α)) : SameIn l l :=
  List.forall₂_same.2 fun _ _ => ⟨Std.ReflCmp.compare_self, rfl⟩

/-- Every key has an equal one on the other side. -/
theorem SameIn.exists_mem (h : SameIn n l) : ∀ f ∈ n, ∃ e ∈ l, compare f.1 e.1 = .eq := by
  induction h with
  | nil => exact fun f hf => absurd hf List.not_mem_nil
  | cons hef _ ih =>
    intro f hf
    rcases List.mem_cons.1 hf with rfl | hf
    · exact ⟨_, List.mem_cons_self, hef.1⟩
    · obtain ⟨e, he, heq⟩ := ih f hf
      exact ⟨e, List.mem_cons_of_mem _ he, heq⟩

theorem SameIn.regularIn (h : SameIn n l) (hl : RegularIn l) : RegularIn n := by
  induction h with
  | nil => exact hl
  | @cons f e n l hfe hrest ih =>
    obtain ⟨he, hlt, hl⟩ := regularIn_cons.1 hl
    have hf := comparable_of_compare_eq he hfe.1
    refine regularIn_cons.2 ⟨hf, fun g hg => ?_, ih hl⟩
    obtain ⟨d, hd, hgd⟩ := SameIn.exists_mem hrest g hg
    have hcomparable := comparable_of_compare_eq (hl.2 d hd) hgd
    rw [Std.TransCmp.congr_left (parts_of_compare_eq hf he hfe.1),
      Std.TransCmp.congr_right (parts_of_compare_eq hcomparable (hl.2 d hd) hgd)]
    exact hlt d hd

/-! ## Changes undone -/

/-- What was set under a proper key is undone by what the key held before. -/
theorem SameIn.undo_insertIn (hk : k.Proper) (hl : RegularIn l) (h : SameIn n (insertIn k r l)) :
    match findIn k l with
    | some e => SameIn (OrderedMap.insertIn k e.2 n) l
    | none => SameIn (OrderedMap.eraseIn k n) l := by
  induction l generalizing n with
  | nil =>
    obtain ⟨f, n', ⟨hf, -⟩, hnil, rfl⟩ := List.forall₂_cons_right_iff.1 h
    obtain rfl := List.forall₂_nil_right_iff.1 hnil
    simp only [findIn, OrderedMap.eraseIn, Std.OrientedCmp.eq_symm hf]
    exact .nil
  | cons e l ih =>
    obtain ⟨he, hlt, hl⟩ := regularIn_cons.1 hl
    rw [insertIn] at h
    cases hke : compare k e.1 with
    | lt =>
      -- the key was new, and stands before the first entry
      rw [hke] at h
      obtain ⟨f, n', ⟨hf, -⟩, hrest, rfl⟩ := List.forall₂_cons_right_iff.1 h
      simp only [findIn, hke, OrderedMap.eraseIn, Std.OrientedCmp.eq_symm hf]
      exact hrest
    | eq =>
      rw [hke] at h
      obtain ⟨f, n', ⟨hf, -⟩, hrest, rfl⟩ := List.forall₂_cons_right_iff.1 h
      have hkf : compare k f.1 = .eq := (compare_congr_of_proper hk he hf).trans hke
      simp only [findIn, hke, OrderedMap.insertIn, hkf]
      exact .cons ⟨hf, rfl⟩ hrest
    | gt =>
      rw [hke] at h
      obtain ⟨f, n', hf, hrest, rfl⟩ := List.forall₂_cons_right_iff.1 h
      have hkf : compare k f.1 = .gt := (compare_congr_of_proper hk he hf.1).trans hke
      have hfound := ih hl hrest
      simp only [findIn, hke]
      cases hfind : findIn k l with
      | none =>
        rw [hfind] at hfound
        simp only [OrderedMap.eraseIn, hkf]
        exact .cons hf hfound
      | some d =>
        rw [hfind] at hfound
        simp only [OrderedMap.insertIn, hkf]
        exact .cons hf hfound

/-- An entry that was taken out comes back under the key that was asked for. -/
theorem SameIn.undo_eraseIn (hl : RegularIn l) (he : findIn k l = some e) (h : SameIn n (eraseIn k l)) :
    SameIn (insertIn k e.2 n) l := by
  induction l generalizing n with
  | nil => cases he
  | cons d l ih =>
    obtain ⟨hd, hlt, hl⟩ := regularIn_cons.1 hl
    rw [findIn] at he
    rw [OrderedMap.eraseIn] at h
    cases hkd : compare k d.1 with
    | lt =>
      rw [hkd] at he
      cases he
    | eq =>
      rw [hkd] at he h
      cases he
      -- the other keys are above, so the key is put in front of them
      cases h with
      | nil => exact .cons ⟨hkd, rfl⟩ .nil
      | @cons f g n' l' hfg hrest =>
        have hg : compareParts d.1 g.1 = .lt := hlt g List.mem_cons_self
        have hkf : compare k f.1 = .lt :=
          compare_congr_of_parts hd (hl.2 g List.mem_cons_self) hkd hfg.1 hg (by decide)
        simp only [insertIn, hkf]
        exact .cons ⟨hkd, rfl⟩ (.cons hfg hrest)
    | gt =>
      rw [hkd] at he h
      obtain ⟨f, n', hf, hrest, rfl⟩ := List.forall₂_cons_right_iff.1 h
      -- the key is equal to one further on, which is above the first one
      have hmem := of_findIn he
      have hke := compare_of_findIn he
      have hgt : compareParts e.1 d.1 = .gt := Std.OrientedCmp.gt_of_lt (hlt e hmem)
      have hkf : compare k f.1 = .gt := compare_congr_of_parts (hl.2 e hmem) hd hke hf.1 hgt (by decide)
      simp only [insertIn, hkf]
      exact .cons hf (ih hl he hrest)

/-! ## Maps -/

/-- The keys increase by their parts, and none is a NaN. -/
def Regular (m : OrderedMap Key α) : Prop := RegularIn m.entries

/-- The same values under equal keys. -/
def Same (n m : OrderedMap Key α) : Prop := SameIn n.entries m.entries

variable {m n : OrderedMap Key α}

theorem Sorted.regular (hm : m.Sorted Proper) : m.Regular := SortedIn.regularIn hm

theorem regular_empty : (empty : OrderedMap Key α).Regular := sorted_empty.regular

theorem Same.refl (m : OrderedMap Key α) : m.Same m := SameIn.refl m.entries

theorem Same.regular (h : n.Same m) (hm : m.Regular) : n.Regular := SameIn.regularIn h hm

end OrderedMap

end TableStore
