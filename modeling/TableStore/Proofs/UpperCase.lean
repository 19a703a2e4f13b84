import Mathlib.Data.Nat.Bitwise
import TableStore.Proofs.Literal

/-!
# Upper case is its own upper case

- `upperSources` are the code points from U+0080 on that have another character in upper case, and `upperTargets`
  those of the characters that upper case consists of; no code point is in both lists (`disjoint_sources_targets`);
- so upper case once more changes nothing (`upperChar_of_mem`, `upper_upper`), and a text is in upper case when none of
  its characters has another one in upper case (`upper_eq_self`).
-/

namespace TableStore.Text

/-! ## Code points with upper case -/

/-- As many numbers from a start as there are steps between the ends of a run. -/
def spread (first last step start : Nat) : List Nat := (List.range ((last - first) / step + 1)).map (start + step * ·)

/-- The code points that have another character in upper case. -/
def upperSources : List Nat :=
  upperSequences.map Prod.fst ++ upperRuns.flatMap fun r => spread r.1 r.2.1 r.2.2.1 r.1

/-- The code points of the characters in upper case. -/
def upperTargets : List Nat :=
  upperSequences.flatMap Prod.snd ++ upperRuns.flatMap fun r => spread r.1 r.2.1 r.2.2.1 r.2.2.2

/-- Numbers as the bits of one number. -/
def bits (ns : List Nat) : Nat := ns.foldr (fun n m => 2 ^ n ||| m) 0

theorem testBit_bits (n : Nat) : ∀ ns : List Nat, (bits ns).testBit n = decide (n ∈ ns)
  | [] => by simp [bits]
  | m :: ns => by
    have ih := testBit_bits n ns
    change (2 ^ m ||| bits ns).testBit n = _
    rw [Nat.testBit_or, Nat.testBit_two_pow, ih]
    simp [eq_comm]

/-- Two long lists have no number in common when their bits, compared at once, have none. -/
theorem notMem_of_bits {ms ns : List Nat} (h : bits ms &&& bits ns = 0) {n : Nat} (hn : n ∈ ms) : n ∉ ns := by
  intro hn'
  have hbit : (bits ms &&& bits ns).testBit n = true := by
    rw [Nat.testBit_and, testBit_bits, testBit_bits, decide_eq_true hn, decide_eq_true hn']
    rfl
  rw [h, Nat.zero_testBit] at hbit
  cases hbit

/-- **No character of upper case has another one in upper case.** -/
theorem disjoint_sources_targets {n : Nat} (ht : n ∈ upperTargets) : n ∉ upperSources :=
  notMem_of_bits (by decide +kernel) ht

theorem mem_spread {n first last step start : Nat} (h : first ≤ n ∧ n ≤ last ∧ (n - first) % step = 0) :
    start + (n - first) ∈ spread first last step start := by
  obtain ⟨-, hn, hstep⟩ := h
  have hdiv : step * ((n - first) / step) = n - first := by
    have := Nat.div_add_mod (n - first) step
    omega
  have hle : (n - first) / step ≤ (last - first) / step := Nat.div_le_div_right (by omega)
  exact List.mem_map.2 ⟨(n - first) / step, List.mem_range.2 (Nat.lt_succ_of_le hle), by rw [hdiv]⟩

/-- What a run gives a code point is a target, and the code point a source. -/
theorem mem_of_upperInRuns {n m : Nat} : ∀ {runs : List (Nat × Nat × Nat × Nat)}, upperInRuns n runs = some m →
    (n ∈ runs.flatMap fun r => spread r.1 r.2.1 r.2.2.1 r.1) ∧
      m ∈ runs.flatMap fun r => spread r.1 r.2.1 r.2.2.1 r.2.2.2
  | [], h => by cases h
  | (first, last, step, target) :: runs, h => by
    rw [upperInRuns] at h
    rw [List.flatMap_cons, List.flatMap_cons, List.mem_append, List.mem_append]
    split at h
    · rename_i hn
      cases h
      have hsource : first + (n - first) ∈ spread first last step first := mem_spread hn
      rw [Nat.add_sub_cancel' hn.1] at hsource
      exact ⟨.inl hsource, .inl (mem_spread hn)⟩
    · exact (mem_of_upperInRuns h).imp .inr .inr

theorem mem_of_lookup {n : Nat} {ns : List Nat} : ∀ {l : List (Nat × List Nat)}, l.lookup n = some ns → (n, ns) ∈ l
  | [], h => by cases h
  | (m, ms) :: l, h => by
    rw [List.lookup_cons] at h
    split at h
    · rename_i hn
      cases h
      rw [eq_of_beq hn]
      exact List.mem_cons_self
    · exact List.mem_cons_of_mem _ (mem_of_lookup h)

/-! ## Characters -/

/-- A character from U+0080 on either is its own upper case or is in the table, with characters of the table. -/
theorem upperChar_cases {c : Char} (hc : ¬c.toNat < 0x80) : upperChar c = [c] ∨
    c.toNat ∈ upperSources ∧ ∃ ns, ns ≠ [] ∧ upperChar c = ns.map Char.ofNat ∧ ∀ n ∈ ns, n ∈ upperTargets := by
  have hnonempty : ∀ e ∈ upperSequences, e.2 ≠ [] := by decide +kernel
  rw [upperChar, if_neg hc]
  cases hl : upperSequences.lookup c.toNat with
  | some ns =>
    have hmem := mem_of_lookup hl
    exact .inr ⟨List.mem_append_left _ (List.mem_map_of_mem hmem), ns, hnonempty _ hmem, rfl,
      fun n hn => List.mem_append_left _ (List.mem_flatMap.2 ⟨_, hmem, hn⟩)⟩
  | none =>
    cases hr : upperInRuns c.toNat upperRuns with
    | some n =>
      have hmem := mem_of_upperInRuns hr
      exact .inr ⟨List.mem_append_right _ hmem.1, [n], List.cons_ne_nil n [], rfl,
        List.forall_mem_singleton.2 (List.mem_append_right _ hmem.2)⟩
    | none => exact .inl rfl

/-- A character that is no source is its own upper case. -/
theorem upperChar_of_notMem {c : Char} (hc : ¬c.toNat < 0x80) (h : c.toNat ∉ upperSources) : upperChar c = [c] :=
  (upperChar_cases hc).resolve_right fun hsource => h hsource.1

/-- Targets are code points, and those below U+0080 are no letters of lower case. -/
theorem valid_of_mem_targets {n : Nat} (hn : n ∈ upperTargets) :
    n.isValidChar ∧ (n < 0x80 → (Char.ofNat n).toUpper = Char.ofNat n) := by
  have hall : (upperTargets.all fun n =>
      decide (n.isValidChar ∧ (n < 0x80 → (Char.ofNat n).toUpper = Char.ofNat n))) = true := by decide +kernel
  exact of_decide_eq_true (List.all_eq_true.1 hall n hn)

theorem toNat_of_mem_targets {n : Nat} (hn : n ∈ upperTargets) : (Char.ofNat n).toNat = n := by
  rw [Char.ofNat, dif_pos (valid_of_mem_targets hn).1]
  rfl

theorem upperChar_of_target {n : Nat} (hn : n ∈ upperTargets) : upperChar (Char.ofNat n) = [Char.ofNat n] := by
  have hnat := toNat_of_mem_targets hn
  by_cases hlt : n < 0x80
  · rw [upperChar, hnat, if_pos hlt, (valid_of_mem_targets hn).2 hlt]
  · exact upperChar_of_notMem (hnat.symm ▸ hlt) (hnat.symm ▸ disjoint_sources_targets hn)

/-- **Characters of upper case are their own upper case.** -/
theorem upperChar_of_mem {c d : Char} (hd : d ∈ upperChar c) : upperChar d = [d] := by
  by_cases hc : c.toNat < 0x80
  · have hascii : c.toUpper.toNat < 0x80 ∧ c.toUpper.toUpper = c.toUpper :=
      forall_ascii (P := fun c => c.toUpper.toNat < 0x80 ∧ c.toUpper.toUpper = c.toUpper) (by decide +kernel) hc
    rw [upperChar, if_pos hc] at hd
    obtain rfl := List.mem_singleton.1 hd
    rw [upperChar, if_pos hascii.1, hascii.2]
  · rcases upperChar_cases hc with h | ⟨-, ns, -, h, htargets⟩
    · rw [h] at hd
      rw [List.mem_singleton.1 hd, h]
    · rw [h] at hd
      obtain ⟨n, hn, rfl⟩ := List.mem_map.1 hd
      exact upperChar_of_target (htargets n hn)

/-! ## Texts -/

theorem upper_eq_self : ∀ {cs : List Char}, (∀ c ∈ cs, upperChar c = [c]) → upper cs = cs
  | [], _ => rfl
  | c :: cs, h => by
    obtain ⟨hc, hcs⟩ := List.forall_mem_cons.1 h
    have ih : cs.flatMap upperChar = cs := upper_eq_self hcs
    rw [upper, List.flatMap_cons, hc, ih, List.singleton_append]

/-- **Upper case once more changes nothing.** -/
theorem upper_upper (cs : List Char) : upper (upper cs) = upper cs := by
  refine upper_eq_self fun d hd => ?_
  obtain ⟨c, -, hd⟩ := List.mem_flatMap.1 hd
  exact upperChar_of_mem hd

end TableStore.Text
