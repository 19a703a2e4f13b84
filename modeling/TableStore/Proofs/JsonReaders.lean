import TableStore.Json.Table
import TableStore.Json.Record

/-!
# What JSON readers give

- whatever a text holds, each item of an array is one that the reader for items gave (`Json.given_of_readItems?`), and
  what each member of an object keeps holds after all of them (`Json.readMembers?_keeps`);
- so the two parts of a table or a column are what the readers for the parts gave (`Json.given_of_readParts?`).
-/

namespace TableStore.Json

variable {α β σ : Type} {cs rest : List Char}

/-- A value that a reader gives on some text. -/
def Given (read : List Char → Option (α × List Char)) (a : α) : Prop := ∃ cs rest, read cs = some (a, rest)

/-! ## Items -/

section Items

variable {item : List Char → Option (α × List Char)} {as : List α}

theorem given_of_readMoreItems? : ∀ {fuel : Nat} {cs rest : List Char} {as : List α},
    readMoreItems? item fuel cs = some (as, rest) → ∀ a ∈ as, Given item a
  | fuel + 1, cs, rest, as, h => by
    rw [readMoreItems?] at h
    split at h
    · obtain ⟨rfl, -⟩ := Prod.mk.inj (Option.some.inj h)
      exact fun a ha => absurd ha List.not_mem_nil
    · obtain ⟨⟨a, cs'⟩, ha, h⟩ := Option.bind_eq_some_iff.1 h
      obtain ⟨⟨as', cs''⟩, has, h⟩ := Option.bind_eq_some_iff.1 h
      obtain ⟨rfl, -⟩ := Prod.mk.inj (Option.some.inj h)
      exact List.forall_mem_cons.2 ⟨⟨_, _, ha⟩, given_of_readMoreItems? has⟩
    · cases h

/-- Every item of an array is given by the reader for items. -/
theorem given_of_readItems? (h : readItems? item cs = some (as, rest)) : ∀ a ∈ as, Given item a := by
  rw [readItems?] at h
  split at h
  · obtain ⟨rfl, -⟩ := Prod.mk.inj (Option.some.inj h)
    exact fun a ha => absurd ha List.not_mem_nil
  · obtain ⟨⟨a, cs'⟩, ha, h⟩ := Option.bind_eq_some_iff.1 h
    obtain ⟨⟨as', cs''⟩, has, h⟩ := Option.bind_eq_some_iff.1 h
    obtain ⟨rfl, -⟩ := Prod.mk.inj (Option.some.inj h)
    exact List.forall_mem_cons.2 ⟨⟨_, _, ha⟩, given_of_readMoreItems? has⟩

end Items

/-! ## Members -/

section Members

variable {passedOver : Bool} {member : List Char → σ → List Char → Option (σ × List Char)} {s s' : σ} {P : σ → Prop}

theorem readMember?_keeps (hstep : ∀ name s cs s' rest, P s → member name s cs = some (s', rest) → P s') (hs : P s)
    (h : readMember? passedOver member s cs = some (s', rest)) : P s' := by
  obtain ⟨cs₁, -, h⟩ := Option.bind_eq_some_iff.1 h
  obtain ⟨⟨name, cs₂⟩, -, h⟩ := Option.bind_eq_some_iff.1 h
  obtain ⟨cs₃, -, h⟩ := Option.bind_eq_some_iff.1 h
  exact hstep name s cs₃ s' rest hs h

theorem readMoreMembers?_keeps (hstep : ∀ name s cs s' rest, P s → member name s cs = some (s', rest) → P s') :
    ∀ {fuel : Nat} {s : σ} {cs : List Char}, P s →
      readMoreMembers? passedOver member fuel s cs = some (s', rest) → P s'
  | fuel + 1, s, cs, hs, h => by
    rw [readMoreMembers?] at h
    split at h
    · obtain ⟨rfl, -⟩ := Prod.mk.inj (Option.some.inj h)
      exact hs
    · obtain ⟨⟨s₁, cs₁⟩, h₁, h⟩ := Option.bind_eq_some_iff.1 h
      exact readMoreMembers?_keeps hstep (readMember?_keeps hstep hs h₁) h
    · cases h

/-- What every member keeps, all of them together keep. -/
theorem readMembers?_keeps (hstep : ∀ name s cs s' rest, P s → member name s cs = some (s', rest) → P s') (hs : P s)
    (h : readMembers? passedOver member s cs = some (s', rest)) : P s' := by
  rw [readMembers?] at h
  split at h
  · obtain ⟨rfl, -⟩ := Prod.mk.inj (Option.some.inj h)
    exact hs
  · obtain ⟨⟨s₁, cs₁⟩, h₁, h⟩ := Option.bind_eq_some_iff.1 h
    exact readMoreMembers?_keeps hstep (readMember?_keeps hstep hs h₁) h

end Members

/-! ## Parts -/

section Parts

variable {first second : List Char} {readFirst : List Char → Option (α × List Char)}
  {readSecond : List Char → Option (β × List Char)} {a : α} {b : β}

/-- The parts that have been read so far are given by their readers. -/
def Fields.Given (readFirst : List Char → Option (α × List Char)) (readSecond : List Char → Option (β × List Char))
    (f : Fields α β) : Prop :=
  (∀ a, f.first = some a → Json.Given readFirst a) ∧ ∀ b, f.second = some b → Json.Given readSecond b

theorem readField?_keeps {name : List Char} {f f' : Fields α β}
    (hf : f.Given readFirst readSecond)
    (h : readField? first second readFirst readSecond name f cs = some (f', rest)) : f'.Given readFirst readSecond := by
  rw [readField?] at h
  split at h
  · split at h
    · cases h
    · obtain ⟨⟨a, cs'⟩, ha, h⟩ := Option.map_eq_some_iff.1 h
      obtain ⟨rfl, -⟩ := Prod.mk.inj h
      exact ⟨fun _ he => Option.some.inj he ▸ ⟨_, _, ha⟩, hf.2⟩
  split at h
  · split at h
    · cases h
    · obtain ⟨⟨b, cs'⟩, hb, h⟩ := Option.map_eq_some_iff.1 h
      obtain ⟨rfl, -⟩ := Prod.mk.inj h
      exact ⟨hf.1, fun _ he => Option.some.inj he ▸ ⟨_, _, hb⟩⟩
  · obtain ⟨cs', -, h⟩ := Option.map_eq_some_iff.1 h
    obtain ⟨rfl, -⟩ := Prod.mk.inj h
    exact hf

/-- Both parts are given by their readers, whether they come as an object or as an array. -/
theorem given_of_readParts? (h : readParts? first second readFirst readSecond cs = some ((a, b), rest)) :
    Given readFirst a ∧ Given readSecond b := by
  rw [readParts?] at h
  split at h
  · obtain ⟨⟨f, cs'⟩, hf, h⟩ := Option.bind_eq_some_iff.1 h
    obtain ⟨a', ha, h⟩ := Option.bind_eq_some_iff.1 h
    obtain ⟨b', hb, h⟩ := Option.bind_eq_some_iff.1 h
    obtain ⟨hab, -⟩ := Prod.mk.inj (Option.some.inj h)
    obtain ⟨rfl, rfl⟩ := Prod.mk.inj hab
    have hnone : Fields.Given readFirst readSecond {} := ⟨fun _ he => (nomatch he), fun _ he => (nomatch he)⟩
    obtain ⟨hfirst, hsecond⟩ :=
      readMembers?_keeps (fun _ _ _ _ _ hs hstep => readField?_keeps hs hstep) hnone hf
    exact ⟨hfirst a' ha, hsecond b' hb⟩
  · obtain ⟨⟨a', cs₁⟩, ha, h⟩ := Option.bind_eq_some_iff.1 h
    obtain ⟨cs₂, -, h⟩ := Option.bind_eq_some_iff.1 h
    obtain ⟨⟨b', cs₃⟩, hb, h⟩ := Option.bind_eq_some_iff.1 h
    obtain ⟨cs₄, -, h⟩ := Option.bind_eq_some_iff.1 h
    obtain ⟨hab, -⟩ := Prod.mk.inj (Option.some.inj h)
    obtain ⟨rfl, rfl⟩ := Prod.mk.inj hab
    exact ⟨⟨_, _, ha⟩, ⟨_, _, hb⟩⟩
  · cases h

end Parts

/-- What is read as a whole text is given by the reader. -/
theorem given_of_whole? {read : List Char → Option (α × List Char)} {a : α} (h : whole? read cs = some a) :
    Given read a := by
  rw [whole?] at h
  split at h
  · rename_i hread
    split at h <;> cases h
    exact ⟨_, _, hread⟩
  · cases h

end TableStore.Json
