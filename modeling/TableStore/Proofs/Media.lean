import TableStore.Proofs.Invariant

/-!
# Sessions over media

- a commit fails before it reaches the medium, or is the commit to the medium (`Store.commit_cases`), so what the medium
  takes is there if the commit succeeds, and otherwise nothing has changed;
- a session is `Over` a medium: while the medium is new the session is closed, and once the medium keeps an image, that
  is the live one, if there is one;
- a `Medium.Passage` is what units come to for media alone; it gives the `Passage` of sessions over them
  (`Session.Over.passage`).
-/

namespace TableStore

/-! ## Commits -/

section Commit

variable {store store' : Store} {changes : ChangeSet} {m : Medium}

theorem Medium.commit_memory (stored : Option Image) {i : Image} (h : (stored.getD {}).apply changes = .ok i) :
    (Medium.memory stored).commit changes = (.ok (), .memory (some i)) := by
  simp only [Medium.commit, h]

theorem Medium.commit_keyspace {k k' : Keyspace} (h : k.commit changes = .ok k') :
    (Medium.keyspace k).commit changes = (.ok (), .keyspace k') := by
  simp only [Medium.commit, h]

/-- A commit fails before it reaches the medium, or does what a commit to the medium does. -/
theorem Store.commit_cases {outcome : Except Error Unit} (hc : store.commit changes = (outcome, store')) :
    (∃ e, outcome = .error e) ∧ store'.medium = store.medium ∨
      store.medium.commit changes = (outcome, store'.medium) := by
  unfold Store.commit at hc
  split at hc
  · cases hc
    exact .inl ⟨⟨_, rfl⟩, rfl⟩
  · split at hc <;> cases hc <;> exact .inr ‹_›

/-- A commit that succeeds leaves what the medium makes of the change set. -/
theorem Store.medium_of_commit_ok (hm : store.medium.commit changes = (.ok (), m))
    (hc : store.commit changes = (.ok (), store')) : store'.medium = m := by
  obtain ⟨⟨e, he⟩, -⟩ | hc := commit_cases hc
  · cases he
  · exact congrArg Prod.snd (hc.symm.trans hm)

/-- A commit of what the medium takes fails only before it reaches the medium. -/
theorem Store.medium_of_commit_error (hm : store.medium.commit changes = (.ok (), m)) {e : Error}
    (hc : store.commit changes = (.error e, store')) : store'.medium = store.medium := by
  obtain ⟨-, hsame⟩ | hc := commit_cases hc
  · exact hsame
  · cases hc.symm.trans hm

end Commit

/-! ## Media and the images that they keep -/

/-- What units come to for media: a new one has no image, the image that is opened is kept, and a change set that fits
the image that is kept is taken. `New` and `Kept` are known with the number of upgrades, and `Left` of the images that
are kept while the session is closed; what units make is `Kept'`. -/
structure Medium.Passage (C : Image → Prop) (D : Image → Image → Prop) (New : Nat → Medium → Prop)
    (Kept Kept' : Nat → Medium → Image → Prop) (Left : Image → Prop) : Prop where
  wellFormed : ∀ {n m i}, Kept n m i → i.WellFormed
  new : ∀ {n m}, New n m → m.load = .ok none
  load : ∀ {n m i o}, Kept n m i → Left i → m.load = .ok o → ∃ j, o = some j ∧ Kept n m j
  first : ∀ {n m changes i}, New n m → changes.Fits {} i → ∃ m', m.commit changes = (.ok (), m') ∧
    (i.WellFormed → C i → i.version = 1 → Kept n m' i)
  next : ∀ {n m changes i i'}, Kept n m i → changes.Fits i i' → ∃ m', m.commit changes = (.ok (), m') ∧
    ∀ d, i'.WellFormed → D i i' → i'.version = i.version + d → Kept' (n + d) m' i'

/-- A session over a medium: it is closed while the medium is new, and once the medium keeps an image, that is the live
one, or the session is closed and the image was `Left` in the medium. -/
inductive Session.Over (New : Medium → Prop) (Kept : Medium → Image → Prop) (Left : Image → Prop) (s : Session) : Prop
  | new (hm : New s.store.medium) (hl : s.live = none)
  | kept {i : Image} (hm : Kept s.store.medium i) (hl : s.live = none ∧ Left i ∨ s.live = some i)

namespace Session.Over

variable {New New' : Medium → Prop} {Kept Kept' : Medium → Image → Prop} {Left : Image → Prop} {s s' : Session}
  {store : Store} {i : Image}

theorem of_live (h : Over New Kept Left ⟨store, some i⟩) : Kept store.medium i := by
  cases h with
  | new hm hl => cases hl
  | kept hm hl =>
    obtain ⟨hl, -⟩ | hl := hl
    · cases hl
    · cases hl
      exact hm

theorem of_closed (h : Over New Kept Left ⟨store, none⟩) :
    New store.medium ∨ ∃ i, Kept store.medium i ∧ Left i := by
  cases h with
  | new hm _ => exact .inl hm
  | kept hm hl =>
    obtain ⟨-, hleft⟩ | hl := hl
    · exact .inr ⟨_, hm, hleft⟩
    · cases hl

theorem imp (h : Over New Kept Left s) (hn : ∀ m, New m → New' m) (hk : ∀ m i, Kept m i → Kept' m i) :
    Over New' Kept' Left s := by
  cases h with
  | new hm hl => exact .new (hn _ hm) hl
  | kept hm hl => exact .kept (hk _ _ hm) hl

/-- Of the store only the medium matters. -/
theorem of_medium (h : Over New Kept Left s) (hm : s'.store.medium = s.store.medium) (hl : s'.live = s.live) :
    Over New Kept Left s' := by
  cases h with
  | new hn hs =>
    rw [← hm] at hn
    exact .new hn (hl.trans hs)
  | kept hk hs =>
    rw [← hm] at hk
    rw [← hl] at hs
    exact .kept hk hs

/-- A session that is open can be closed if the live image may be left. -/
theorem restart (h : Over New Kept Left s) (hi : ∀ i, s.live = some i → Left i) : Over New Kept Left s.restart := by
  cases h with
  | new hm _ => exact .new hm rfl
  | kept hm hl => exact .kept hm (.inl ⟨rfl, hl.elim And.right (hi _)⟩)

theorem lasting {New : Nat → Medium → Prop} {Kept : Nat → Medium → Image → Prop} :
    Lasting fun n => Over (New n) (Kept n) fun _ => True where
  restarted h := h.restart fun _ _ => trivial
  medium h hm := h.of_medium hm rfl

/-- **Units do to sessions what they do to the media that the sessions are over.** -/
theorem passage {C : Image → Prop} {D : Image → Image → Prop} {New : Nat → Medium → Prop}
    {Kept Kept' : Nat → Medium → Image → Prop} {J : Nat → Session → Prop}
    (h : Medium.Passage C D New Kept Kept' Left) (hblank : C { version := 1 }) (hfill : Upgrade.Makes C Demo.fill)
    (hJ : ∀ {n store i}, Kept' n store.medium i → J n ⟨store, some i⟩) :
    Passage C D (fun n => Over (New n) (Kept n) Left) J where
  blank := hblank
  filled := hfill
  wellFormed hs := h.wellFormed hs.of_live
  opened hs hl := by
    obtain hnew | ⟨i, hkept, hleft⟩ := hs.of_closed
    · cases (h.new hnew).symm.trans hl
    · obtain ⟨j, hj, hkept'⟩ := h.load hkept hleft hl
      cases hj
      exact .kept hkept' (.inr rfl)
  created hs hl hf hi hC hv hc := by
    obtain hnew | ⟨i, hkept, hleft⟩ := hs.of_closed
    · obtain ⟨m', hm, hk⟩ := h.first hnew hf
      obtain rfl := Store.medium_of_commit_ok hm hc
      exact .kept (hk hi hC hv) (.inr rfl)
    · obtain ⟨j, hj, -⟩ := h.load hkept hleft hl
      cases hj
  notCreated hs hl hf hc := by
    obtain hnew | ⟨i, hkept, hleft⟩ := hs.of_closed
    · obtain ⟨m', hm, -⟩ := h.first hnew hf
      exact hs.of_medium (Store.medium_of_commit_error hm hc) rfl
    · obtain ⟨j, hj, -⟩ := h.load hkept hleft hl
      cases hj
  committed hs hf hi hD hv hc := by
    obtain ⟨m', hm, hk⟩ := h.next hs.of_live hf
    obtain rfl := Store.medium_of_commit_ok hm hc
    exact hJ (hk _ hi hD hv)
  notCommitted hs hf hc := by
    obtain ⟨m', hm, -⟩ := h.next hs.of_live hf
    exact hs.of_medium (Store.medium_of_commit_error hm hc) rfl

end Session.Over

end TableStore
