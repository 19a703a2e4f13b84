import TableStore.Proofs.Slices

/-!
# Values survive their literals

- every way to read a text must be missed but the one that the literal was written for: texts by their quotes, NULL by
  its word, integers by having neither point nor exponent, and reals by always having a point (`Literal.read_write`);
- the values that survive are all but booleans, which no text is read as, and reals that are not finite, which are
  written as NULL (`Literal.read_write_iff`);
- a literal is scanned into one token, which takes all of its characters (`Piece.fits_literal`).
-/

namespace TableStore.Literal

open Text

variable {v : Value}

/-- The values that survive are those that have a literal. -/
theorem read_write_iff : read (write v) = v ↔ v.Writable := by
  refine ⟨fun h => ?_, read_write⟩
  cases v with
  | null | integer | text => trivial
  | boolean b => exact (read_ne_boolean _ b h).elim
  | real r =>
    by_contra hr
    have hnull : write (.real r) = "NULL".toList := if_neg hr
    rw [hnull] at h
    exact absurd h (by rw [show read "NULL".toList = .null by decide]; exact fun he => nomatch he)

/-- **Values survive their literals.** What has a literal is read back from it bit by bit and with its kind, and nothing
else is; so no two values have the same literal. A literal is one token that takes the whole text. -/
theorem values_survive_literals (v : Value) :
    (read (write v) = v ↔ v.Writable) ∧
    (v.Writable →
      (∀ w : Value, w.Writable → write w = write v → w = v) ∧
      scan (write v) = .ok [⟨Piece.literalToken v, 0, byteLength (write v)⟩,
        ⟨.finish, byteLength (write v), byteLength (write v)⟩]) := by
  refine ⟨read_write_iff, fun hv => ⟨fun w hw h => ?_, ?_⟩⟩
  · rw [← read_write hw, h, read_write hv]
  · exact Scan.scan_of_fits (Piece.fits_literal hv Scan.ends_nil)

/-- The negative zero, the least real above zero, the least integer and a text with quotes, a comment and blanks at its
end survive; the infinity does not. -/
theorem edge_values_survive :
    let negativeZero : Value := .real ⟨0x8000000000000000⟩
    let least : Value := .real ⟨1⟩
    let text : Value := .text "1'--NULL\n "
    (write negativeZero = "-0.0".toList ∧ read "-0.0".toList = negativeZero) ∧
    (read (write least) = least ∧ scan (write least) = .ok [⟨Piece.literalToken least, 0, byteLength (write least)⟩,
      ⟨.finish, byteLength (write least), byteLength (write least)⟩]) ∧
    (write (.integer Int64.minValue) = "-9223372036854775808".toList ∧
      read "-9223372036854775808".toList = .integer Int64.minValue) ∧
    (write text = "'1''--NULL\n '".toList ∧ read "'1''--NULL\n '".toList = text ∧
      scan "'1''--NULL\n '".toList = .ok [⟨.string "1'--NULL\n ", 0, 13⟩, ⟨.finish, 13, 13⟩]) ∧
    read (write (.real ⟨0x7FF0000000000000⟩)) ≠ .real ⟨0x7FF0000000000000⟩ := by
  intro negativeZero least text
  have hzero : write negativeZero = "-0.0".toList := by decide +kernel
  have hleast : least.Writable := show Binary64.isFinite ⟨1⟩ = true by decide
  have hmin : write (.integer Int64.minValue) = "-9223372036854775808".toList := by decide +kernel
  have htext : write text = "'1''--NULL\n '".toList := by decide +kernel
  have hscan := ((values_survive_literals text).2 trivial).2
  refine ⟨⟨hzero, ?_⟩, ⟨(values_survive_literals least).1.2 hleast, ((values_survive_literals least).2 hleast).2⟩,
    ⟨hmin, ?_⟩, ⟨htext, ?_, ?_⟩, ?_⟩
  · rw [← hzero]
    exact (values_survive_literals negativeZero).1.2 (show Binary64.isFinite ⟨0x8000000000000000⟩ = true by decide)
  · rw [← hmin]
    exact (values_survive_literals _).1.2 trivial
  · rw [← htext]
    exact (values_survive_literals text).1.2 trivial
  · rwa [htext] at hscan
  · exact fun h => absurd (show Binary64.isFinite ⟨0x7FF0000000000000⟩ = true from (values_survive_literals _).1.1 h)
      (by decide)

end TableStore.Literal
