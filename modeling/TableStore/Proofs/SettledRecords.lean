import Mathlib.Data.List.Forall2
import TableStore.Proofs.Fidelity
import TableStore.Proofs.JsonReaders
import TableStore.Proofs.Replay

/-!
# Records survive JSON

- a quotient of a finite real is finite, and so is an integer below 2^64 (`Binary64.isFinite_dividedBy`,
  `Binary64.isFinite_ofNat`), so every real that JSON gives is finite (`Json.finite_of_readRecord?`);
- what is read of the text of a record has the same names in the same order, and every value as it was but for reals,
  which stay reals (`Record.cells_reread`);
- so a record survives its text exactly if its reals do, one by one (`Json.records_survive`).
-/

namespace TableStore

/-! ## Reals that stay finite -/

namespace Binary64

theorem isFinite_ofRatio {num den s : Nat} (hs : s ≤ 2044) (h : num * one / den < Nat.pow 2 (s + 53))
    (negative : Bool) : (ofRatio negative num den).isFinite := by
  have hle : rankOfRatio num den ≤ 2046 * fractions :=
    Nat.le_trans (rankOfRatio_le h) (Nat.mul_le_mul_right _ (by omega))
  have hrank : (ofRatio negative num den).rank = rankOfRatio num den :=
    rank_ofRank negative (rankOfRatio_lt_signBit num den)
  rw [isFinite, hrank]
  exact decide_eq_true (Nat.lt_of_le_of_lt hle (by decide))

/-- The real nearest to an integer below 2^64 is finite. -/
theorem isFinite_ofNat {n : Nat} (hn : n < UInt64.size) : (ofNat n).isFinite := by
  obtain ⟨m, hone, hm⟩ := exists_one_eq
  have hsize : UInt64.size = Nat.pow 2 64 := rfl
  have hpow : Nat.pow 2 64 * Nat.pow 2 m = Nat.pow 2 (m + 11 + 53) := by
    rw [Nat.add_assoc, Nat.mul_comm]
    exact (Nat.pow_add 2 m 64).symm
  refine isFinite_ofRatio (s := m + 11) (by omega) ?_ false
  rw [Nat.div_one, hone, ← hpow, ← hsize]
  exact Nat.mul_lt_mul_of_pos_right hn (Nat.two_pow_pos m)

theorem isFinite_neg {r : Binary64} (hr : r.isFinite) : r.neg.isFinite := by
  have hlt : r.rank < signBit := Nat.mod_lt _ (by decide)
  rw [isFinite, neg, rank_ofRank _ hlt]
  exact hr

/-- The quotient of a finite real is finite, whatever it is divided by. -/
theorem isFinite_dividedBy {r : Binary64} (hr : r.isFinite) : ∀ n : Nat, (r.dividedBy n).isFinite
  | 0 => by
    refine isFinite_ofRatio (s := 0) (Nat.zero_le _) ?_ r.negative
    rw [Nat.mul_zero, Nat.div_zero]
    exact Nat.two_pow_pos 53
  | 1 => by
    have hrank : (r.dividedBy 1).rank = r.rank := by
      rw [dividedBy, Nat.mul_one, ofRatio, rank_ofRank _ (rankOfRatio_lt_signBit _ _), rankOfRatio_units hr]
    rw [isFinite, hrank]
    exact hr
  | n + 2 => by
    obtain ⟨s, hs⟩ : ∃ s, s = 2044 := ⟨_, rfl⟩
    have hunits : r.units < 2 * Nat.pow 2 (s + 53) := by
      have hexponent : r.rank / fractions < s + 3 := by
        have hlt : r.rank < 2047 * fractions := of_decide_eq_true hr
        refine Nat.div_lt_of_lt_mul ?_
        rw [hs, Nat.mul_comm]
        exact hlt
      have hscaled : scaled (s + 3) 0 = fractions * Nat.pow 2 (s + 2) := rfl
      have hpow : fractions * Nat.pow 2 (s + 2) = 2 * Nat.pow 2 (s + 53) := by
        have hsplit : Nat.pow 2 (52 + (s + 2)) = fractions * Nat.pow 2 (s + 2) := Nat.pow_add 2 52 (s + 2)
        rw [← hsplit, show 52 + (s + 2) = s + 53 + 1 by omega]
        exact Nat.mul_comm _ 2
      rw [← hpow, ← hscaled]
      exact scaled_lt_of_exponent (Nat.mod_lt _ (by decide)) hexponent
    refine isFinite_ofRatio (s := s) (by omega) ?_ r.negative
    rw [Nat.mul_comm one, Nat.mul_div_mul_right _ _ one_pos]
    refine Nat.div_lt_of_lt_mul (Nat.lt_of_lt_of_le hunits ?_)
    exact Nat.mul_le_mul_right _ (by omega)

end Binary64

theorem Record.Finite.set {r : Record} (hr : r.Finite) {v : Value} (hv : v.Finite) (name : String) :
    (r.set name v).Finite := by
  intro cell hcell
  rcases Record.of_mem_setIn hcell with h | h
  · exact h ▸ hv
  · exact hr cell h

namespace Json

variable {cs rest : List Char} {v : Value} {r : Record}

/-! ## What JSON gives is finite -/

/-- Every way to scale a finite real leaves a finite one. -/
theorem isFinite_of_scale? {fuel : Nat} {f g : Binary64} {e : Int} (hf : f.isFinite) (h : scale? fuel f e = some g) :
    g.isFinite := by
  fun_induction scale? fuel f e with
  -- a product that is finite
  | case1 _ f n _ product hproduct => exact Option.some.inj h ▸ hproduct
  -- a product that is too large
  | case2 | case4 => cases h
  -- zero stays
  | case3 | case6 =>
    cases h
    exact hf
  -- one division
  | case5 =>
    cases h
    exact Binary64.isFinite_dividedBy hf _
  -- as many divisions as make every real zero
  | case7 =>
    cases h
    decide
  -- one division of several
  | case8 _ _ _ _ _ ih => exact ih (Binary64.isFinite_dividedBy hf _) h

theorem isFinite_of_realOfParts? {negative : Bool} {n : Nat} {e : Int} {g : Binary64} (hn : n < UInt64.size)
    (h : realOfParts? negative n e = some g) : g.isFinite := by
  obtain ⟨f, hf, rfl⟩ := Option.map_eq_some_iff.1 h
  have hfinite := isFinite_of_scale? (Binary64.isFinite_ofNat hn) hf
  cases negative with
  | true => exact Binary64.isFinite_neg hfinite
  | false => exact hfinite

theorem absorb_lt : ∀ {s : Nat} (ds : List Char), s < UInt64.size → (absorb s ds).1 < UInt64.size
  | s, [], hs => hs
  | s, d :: ds, hs => by
    rw [absorb]
    dsimp only
    split
    · rename_i hnext
      exact absorb_lt ds hnext
    · exact hs

theorem finite_ofInteger {n : Nat} (hn : n < UInt64.size) (negative : Bool) : (ofInteger negative n).Finite := by
  have hfinite := Binary64.isFinite_ofNat hn
  have hneg := Binary64.isFinite_neg hfinite
  simp only [ofInteger]
  split
  · split
    · exact hneg
    split
    · trivial
    · exact hneg
  split
  · trivial
  · exact hfinite

theorem finite_of_ofParts? {negative : Bool} {whole : List Char} {fraction : Option (List Char)}
    {exponent : Option (Bool × List Char)} (h : ofParts? negative whole fraction exponent = some v) : v.Finite := by
  have hmap : ∀ {n : Nat} {e : Int}, n < UInt64.size → (realOfParts? negative n e).map .real = some v → v.Finite := by
    intro n e hn h
    obtain ⟨g, hg, rfl⟩ := Option.map_eq_some_iff.1 h
    exact isFinite_of_realOfParts? hn hg
  have hzero : (Value.real (if negative then Binary64.zero.neg else .zero)).Finite := by
    cases negative <;> decide
  unfold ofParts? at h
  split at h
  rename_i s taken hwhole
  extract_lets left at h
  split at h
  rename_i s' left' hparts
  -- the significand stays below 2^64, with the digits after the point as without
  have hs : s < UInt64.size := by
    have hlt := absorb_lt whole (show 0 < UInt64.size by decide)
    rwa [hwhole] at hlt
  have hs' : s' < UInt64.size := by
    cases fraction with
    | none =>
      cases hparts
      exact hs
    | some ds =>
      cases hparts
      exact absorb_lt ds hs
  cases exponent with
  | none =>
    dsimp only at h
    split at h
    · cases h
      exact finite_ofInteger hs' negative
    · exact hmap hs' h
  | some e =>
    dsimp only at h
    split at h
    · split at h <;> cases h
      exact hzero
    · exact hmap hs' h

theorem finite_of_readUnsigned? {negative : Bool} (h : readUnsigned? negative cs = some (v, rest)) : v.Finite := by
  obtain ⟨⟨whole, cs₁⟩, -, h⟩ := Option.bind_eq_some_iff.1 h
  obtain ⟨⟨fraction, cs₂⟩, -, h⟩ := Option.bind_eq_some_iff.1 h
  obtain ⟨⟨exponent, cs₃⟩, -, h⟩ := Option.bind_eq_some_iff.1 h
  obtain ⟨w, hw, h⟩ := Option.bind_eq_some_iff.1 h
  obtain ⟨rfl, -⟩ := Prod.mk.inj (Option.some.inj h)
  exact finite_of_ofParts? hw

theorem finite_of_readValue? (h : readValue? cs = some (v, rest)) : v.Finite := by
  rw [readValue?] at h
  split at h
  case h_5 =>
    unfold readNumber? at h
    split at h <;> exact finite_of_readUnsigned? h
  -- a text, NULL and the booleans
  all_goals
    obtain ⟨_, -, h⟩ := Option.map_eq_some_iff.1 h
    obtain ⟨rfl, -⟩ := Prod.mk.inj h
    trivial

/-- **Every record that JSON gives is finite.** -/
theorem finite_of_readRecord? (h : readRecord? cs = some r) : r.Finite := by
  obtain ⟨cs, rest, h⟩ := given_of_whole? h
  obtain ⟨cs', -, hmembers⟩ := Option.bind_eq_some_iff.1 h
  refine readMembers?_keeps (P := Record.Finite) (fun name s cs s' rest hs hcell => ?_)
    (fun x hx => absurd hx List.not_mem_nil) hmembers
  obtain ⟨⟨v, cs''⟩, hv, h⟩ := Option.map_eq_some_iff.1 hcell
  obtain ⟨rfl, -⟩ := Prod.mk.inj h
  exact hs.set (finite_of_readValue? hv) _

end Json

/-! ## Records cell by cell -/

/-- The JSON text of a finite real is read as a number whose nearest real is the same real. -/
def Binary64.ReadsBack (x : Binary64) : Prop := (Json.rereadReal? x).bind Value.toReal? = some x

instance (x : Binary64) : Decidable x.ReadsBack := inferInstanceAs (Decidable (_ = _))

/-- A cell that comes back from JSON: with its name, and with its value, but for a real, of which another real may come
back. -/
def CameBack (c d : String × Value) : Prop :=
  d.1 = c.1 ∧ (d.2 = c.2 ∨ ∃ x y : Binary64, c.2 = .real x ∧ d.2 = .real y)

namespace Value

/-- A finite value that is read from its text is read in its own kind. -/
theorem reread?_eq_or {v w : Value} (hv : v.Finite) (h : v.reread? = some w) :
    w = v ∨ ∃ x y : Binary64, v = .real x ∧ w = .real y := by
  cases v with
  | real x =>
    have hx : x.isFinite := hv
    rw [reread?, if_pos hx] at h
    obtain ⟨y, rfl⟩ := Json.rereadReal?_real hx h
    exact .inr ⟨x, y, rfl, rfl⟩
  | _ => exact .inl (Option.some.inj h).symm

/-- A value is read back as it was exactly if its real is, if it is one. -/
theorem reread?_self_iff {v : Value} : v.reread? = some v ↔ v.Finite ∧ ∀ x ∈ v.reals, x.ReadsBack := by
  cases v with
  | real x =>
    rw [reals, List.forall_mem_singleton, reread?, Finite]
    by_cases hx : x.isFinite
    · rw [if_pos hx]
      simp only [hx, true_and, Binary64.ReadsBack]
      cases hread : Json.rereadReal? x with
      | none => simp
      | some v =>
        obtain ⟨y, rfl⟩ := Json.rereadReal?_real hx hread
        simp [toReal?]
    · rw [if_neg hx]
      simp [hx]
  | _ => simp [reread?, reals, Finite]

end Value

namespace Record

variable {r s : Record}

/-- The cells that are read are those that were written, each read from its text. -/
theorem cells_of_foldlM {cells : List (String × Value)} {s t : Record}
    (hs : ((s.cells ++ cells).map Prod.fst).Nodup)
    (h : cells.foldlM (fun s c => c.2.reread?.map fun v => s.set c.1 v) s = some t) :
    ∃ cells', t.cells = s.cells ++ cells' ∧
      List.Forall₂ (fun c d => d.1 = c.1 ∧ c.2.reread? = some d.2) cells cells' := by
  induction cells generalizing s with
  | nil =>
    cases h
    exact ⟨[], (List.append_nil _).symm, .nil⟩
  | cons c cells ih =>
    have hnew : c.1 ∉ s.cells.map Prod.fst := by
      rw [List.map_append, List.map_cons] at hs
      exact fun hmem => (List.nodup_append.1 hs).2.2 _ hmem _ List.mem_cons_self rfl
    rw [List.foldlM_cons] at h
    obtain ⟨s', hs', h⟩ := Option.bind_eq_some_iff.1 h
    obtain ⟨v, hv, rfl⟩ := Option.map_eq_some_iff.1 hs'
    have hset : (s.set c.1 v).cells = s.cells ++ [(c.1, v)] := setIn_of_notMem hnew
    obtain ⟨cells', ht, hcells⟩ := ih (s := s.set c.1 v) (by simpa [hset] using hs) h
    exact ⟨(c.1, v) :: cells', by rw [ht, hset, List.append_assoc, List.singleton_append], .cons ⟨rfl, hv⟩ hcells⟩

theorem cells_reread (h : r.reread? = some s) :
    List.Forall₂ (fun c d => d.1 = c.1 ∧ c.2.reread? = some d.2) r.cells s.cells := by
  obtain ⟨cells', hs, hcells⟩ := cells_of_foldlM (s := .empty) (by simpa [empty] using r.distinct) h
  rw [hs]
  exact hcells

/-- A record is read back as it was exactly if it is finite and each of its reals is read back. -/
theorem reread?_self_iff : r.reread? = some r ↔ r.Finite ∧ ∀ x ∈ r.reals, x.ReadsBack := by
  have hcells : (∀ c ∈ r.cells, c.2.reread? = some c.2) ↔ r.Finite ∧ ∀ x ∈ r.reals, x.ReadsBack := by
    simp only [Value.reread?_self_iff, Finite, reals, List.mem_flatMap]
    exact ⟨fun h => ⟨fun c hc => (h c hc).1, fun x ⟨c, hc, hx⟩ => (h c hc).2 x hx⟩,
      fun h c hc => ⟨h.1 c hc, fun x hx => h.2 x ⟨c, hc, hx⟩⟩⟩
  rw [← hcells]
  refine ⟨fun h => ?_, reread?_eq⟩
  have hsame := cells_reread h
  rw [List.forall₂_same] at hsame
  exact fun c hc => (hsame c hc).2

end Record

/-- **Records survive JSON.** A record is read back from its text, with its names in the same order and every value in
its kind, exactly if it is finite and each of its reals is read back from its own text; where some real is not, the
names and all other values still are, and what comes back in its place is a real. A record that some text is read as is
finite, so it is read back as soon as its reals are. -/
theorem Json.records_survive :
    (∀ r : Record, readRecord? (writeRecord r) = some r ↔ r.Finite ∧ ∀ x ∈ r.reals, x.ReadsBack) ∧
    (∀ r s : Record, r.Finite → readRecord? (writeRecord r) = some s → List.Forall₂ CameBack r.cells s.cells) ∧
    ∀ text r, readRecord? text = some r → r.Finite ∧
      ((∀ x ∈ r.reals, x.ReadsBack) → readRecord? (writeRecord r) = some r) := by
  refine ⟨fun r => ?_, fun r s hr h => ?_, fun text r h => ?_⟩
  · rw [readRecord?_writeRecord, Record.reread?_self_iff]
  · rw [readRecord?_writeRecord] at h
    obtain ⟨hlength, hzip⟩ := List.forall₂_iff_zip.1 (Record.cells_reread h)
    refine List.forall₂_iff_zip.2 ⟨hlength, fun {c d} hcd => ⟨(hzip hcd).1, ?_⟩⟩
    exact Value.reread?_eq_or (hr c (List.of_mem_zip hcd).1) (hzip hcd).2
  · have hfinite := finite_of_readRecord? h
    refine ⟨hfinite, fun hreals => ?_⟩
    rw [readRecord?_writeRecord, Record.reread?_self_iff]
    exact ⟨hfinite, hreals⟩

/-- A real that is an integer, the negative zero and the least real above zero stay what they are next to the integers
at the ends of 64 bits, and so do quotes and ends of lines in names and texts. For the real 0.000010622314641308373 the
one before it comes back. Of two members of the same name the later value stands in the place of the earlier. -/
theorem Json.odd_records_survive :
    let r : Record := .ofList [("a\"b\n", .real ⟨0x3FF0000000000000⟩), ("zero", .real ⟨0x8000000000000000⟩),
      ("least", .real ⟨1⟩), ("one", .integer 1), ("min", .integer Int64.minValue), ("max", .integer Int64.maxValue),
      ("null", .null), ("true", .boolean true), ("text", .text "1.0\\\"\t日")]
    let near : Record := .ofList [("n", .integer 1), ("x", .real ⟨4532387933336424750⟩)]
    let before : Record := .ofList [("n", .integer 1), ("x", .real ⟨4532387933336424749⟩)]
    let text := "\x7b\"x\": 1e0, \"y\": 18446744073709551615, \"x\": -7 \x7d".toList
    let s : Record := .ofList [("x", .integer (-7)), ("y", .real ⟨0x43F0000000000000⟩)]
    readRecord? (writeRecord r) = some r ∧
    readRecord? (writeRecord near) = some before ∧ List.Forall₂ CameBack near.cells before.cells ∧
    readRecord? text = some s ∧ readRecord? (writeRecord s) = some s := by
  intro r near before text s
  have hreals : r.Finite ∧ ∀ x ∈ r.reals, x.ReadsBack := by decide +kernel
  have hnear : readRecord? (writeRecord near) = some before := by decide +kernel
  have htext : readRecord? text = some s := by decide +kernel
  have hfinite : near.Finite := by decide +kernel
  have hback : ∀ x ∈ s.reals, x.ReadsBack := by decide +kernel
  exact ⟨(records_survive.1 r).2 hreals, hnear, records_survive.2.1 near before hfinite hnear, htext,
    (records_survive.2.2 text s htext).2 hback⟩

end TableStore
