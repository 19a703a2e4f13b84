import TableStore.Proofs.Tracking

/-!
# Records and their keys

- a container is `Arranged` when each record has a value in the key column, which is the key that the record stands
  under, and a scan goes through the records in the order of their keys, which are all different;
- all containers of reachable images are, at the end of every request and while a unit is at work
  (`Engine.reachable_containers_are_arranged`).
-/

namespace TableStore

namespace Container

/-- Records have their keys, and are scanned in the order of them. -/
structure Arranged (c : Container) : Prop where
  key_eq : ∀ k r, (k, r) ∈ c.records.entries → ∃ v, r.find? c.keyPath = some v ∧ v ≠ .null ∧ Key.ofValue? v = some k
  distinct : c.records.keys.Nodup
  scan_eq : c.scan.map (fun r => Key.ofValue? (r.valueOf c.keyPath)) = c.records.keys.map some
  ascending : c.records.keys.Pairwise fun k l => compare k l = .lt

variable {c : Container}

/-- A column whose value is a key has a value. -/
theorem exists_of_ofValue? {r : Record} {name : String} {k : Key} (h : Key.ofValue? (r.valueOf name) = some k) :
    ∃ v, r.find? name = some v ∧ v ≠ .null ∧ Key.ofValue? v = some k := by
  unfold Record.valueOf at h
  cases hv : r.find? name with
  | none =>
    rw [hv] at h
    cases h
  | some v =>
    rw [hv] at h
    refine ⟨v, rfl, fun hn => ?_, h⟩
    rw [hn] at h
    cases h

theorem Keyed.arranged (hc : c.Keyed) : c.Arranged where
  key_eq _ _ he := exists_of_ofValue? (hc.key_eq he)
  distinct := hc.ordered.nodup_keys
  scan_eq := by
    rw [scan, OrderedMap.values, OrderedMap.keys, List.map_map, List.map_map]
    exact List.map_congr_left fun e he => hc.key_eq he
  ascending := hc.ordered.ascending

end Container

theorem Image.Each.arranged {i : Image} (h : i.Each Container.Keyed) : i.Each Container.Arranged :=
  fun c hc => (h c hc).arranged

namespace Engine

open Container

/-- **Records stand under their own keys.** After every run of requests over a new store, whichever commits fail, and
after any operations of a unit on the image that is live then, whether or not the unit will succeed: every record has
the key in its key column that it stands under, the keys of a container are different, and scans follow their order. -/
theorem reachable_containers_are_arranged {e : Engine} (he : e.IsNew) (rs : List Request) {i : Image}
    (hi : (after rs e).session.live = some i) :
    i.Each Arranged ∧
      (∀ steps, (Script.body TransactionOp.run steps i).2.Each Arranged) ∧
      ∀ steps version, (Script.body UpgradeOp.run steps (Upgrade.start i version)).2.image.Each Arranged := by
  have hkeyed : i.Each Keyed :=
    (live_after steady_keyed.makes_fill (.empty 1 {}) (fun _ _ _ _ _ h => h) (fun r _ => steady_keyed.leads r) he hi).2
  refine ⟨hkeyed.arranged, fun steps => ?_, fun steps version => ?_⟩
  · have hwork := Script.keeps_body steady_keyed.keeps_transaction steps i hkeyed
    exact hwork.arranged
  · have hwork := Script.keeps_body steady_keyed.keeps_upgrade steps (Upgrade.start i version) hkeyed
    exact Image.Each.arranged hwork

/-- A unit that overwrites, deletes and adds records in a keyspace, one that is undone, and a restart. -/
def rearrangements : List Request :=
  [.upgrade [⟨.create "t" "id" true, false⟩, ⟨.common (.on "t" (.add .empty)), false⟩],
    .write [⟨.on "t" (.put (.ofList [("id", .text "a")])), false⟩,
      ⟨.on "t" (.add (.ofList [("id", .integer 9)])), false⟩,
      ⟨.on "t" (.delete (.integer 1)), false⟩],
    .write [⟨.on "t" (.put (.ofList [("id", .integer 9), ("x", .null)])), false⟩, ⟨.abort "stop", false⟩],
    .restart {}, .openStore]

theorem rearranged_container_is_arranged : ∃ i c, (after rearrangements (overKeyspace {} [])).session.live = some i ∧
    i.find? "t" = some c ∧ c.records.keys = [.integer 9, .text "a"] ∧ c.Arranged := by
  have hlive : ((after rearrangements (overKeyspace {} [])).session.live.bind fun i => (i.find? "t").map fun c =>
      c.records.keys) = some [.integer 9, .text "a"] := by decide +kernel
  obtain ⟨i, hi, hc⟩ := Option.bind_eq_some_iff.1 hlive
  obtain ⟨c, hc, hkeys⟩ := Option.map_eq_some_iff.1 hc
  have harranged := (reachable_containers_are_arranged (isNew_overKeyspace {} []) rearrangements hi).1
  exact ⟨i, c, hi, hc, hkeys, harranged.of_find? hc⟩

end Engine

end TableStore
