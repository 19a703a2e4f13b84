import TableStore.Proofs.Media

/-!
# The live image and the store

- over a store in memory, the live image of an open session is the one that the store keeps, with all journals closed,
  and its version counts the upgrades (`Synced`);
- units keep that whichever of their commits fail, so it holds after every run of requests
  (`Engine.live_image_is_stored`).
-/

namespace TableStore

/-- A session over a store in memory: there is no image yet, or the store keeps one whose version is one more than the
number of upgrades, and while the session is open the live image is that one. -/
def Synced (n : Nat) : Session → Prop :=
  Session.Over (fun m => m = .memory none ∧ n = 0)
    (fun m i => m = .memory (some i) ∧ i.WellFormed ∧ i.version = 1 + n) fun _ => True

namespace Synced

/-- A memory takes what fits. -/
theorem passage_memory : Medium.Passage (fun _ => True) (fun _ _ => True) (fun n m => m = .memory none ∧ n = 0)
    (fun n m i => m = .memory (some i) ∧ i.WellFormed ∧ i.version = 1 + n)
    (fun n m i => m = .memory (some i) ∧ i.WellFormed ∧ i.version = 1 + n) fun _ => True where
  wellFormed h := h.2.1
  new h := by
    rw [h.1]
    rfl
  load h _ hl := by
    rw [h.1] at hl
    exact ⟨_, (Except.ok.inj hl).symm, h⟩
  first := by
    rintro n m changes i ⟨rfl, rfl⟩ hf
    exact ⟨_, Medium.commit_memory none hf.apply_eq, fun hi _ hv => ⟨rfl, hi, hv⟩⟩
  next := by
    rintro n m changes i i' ⟨rfl, -, hv⟩ hf
    exact ⟨_, Medium.commit_memory (some i) hf.apply_eq, fun d hi _ hv' => ⟨rfl, hi, by omega⟩⟩

/-- What units do to a session keeps it synced. -/
theorem invariant : Session.Invariant Synced :=
  Session.Over.passage passage_memory trivial (fun _ _ => trivial) fun h => .kept h (.inr rfl)

theorem lasting : Session.Lasting Synced := Session.Over.lasting

end Synced

namespace Engine

/-- A new engine over a new store in memory, some of whose commits will fail. -/
def inMemory (settings : Settings) (fates : List Bool) : Engine :=
  { settings, session := { store := { medium := .memory none, fates } } }

/-- **The live image is the one that the store keeps.** After every run of requests, whichever commits fail, the live
image of an open session is what the store would load, all its journals are closed, and its version is one more than
the number of upgrades that were committed. -/
theorem live_image_is_stored (settings : Settings) (fates : List Bool) (rs : List Request) (i : Image)
    (hi : (after rs (inMemory settings fates)).session.live = some i) :
    (after rs (inMemory settings fates)).session.store.load = .ok (some i) ∧
      (∀ name c, i.find? name = some c → c.journal = none) ∧
      i.version = 1 + committedUpgrades rs (inMemory settings fates) := by
  have h : Synced _ (after rs (inMemory settings fates)).session :=
    invariant_after (n := 0) (fun r _ _ => meets_serve Synced.invariant Synced.lasting r) (.new ⟨rfl, rfl⟩ rfl)
  cases hs : (after rs (inMemory settings fates)).session with
  | mk store live =>
    rw [hs] at h hi
    obtain rfl : live = some i := hi
    obtain ⟨hm, hw, hv⟩ := h.of_live
    rw [Nat.zero_add] at hv
    refine ⟨?_, fun name c hc => (hw.sound.settled hc).closed, hv⟩
    rw [Store.load, hm]
    rfl

/-- A new store, an upgrade whose commit fails, and after a restart an upgrade that creates a container with a record.
-/
theorem stored_after_failed_commit :
    (after [.openStore, .upgrade [⟨.create "t" "id" false, false⟩], .restart {},
      .upgrade [⟨.create "t" "id" true, false⟩, ⟨.common (.on "t" (.add .empty)), false⟩]]
      (inMemory {} [false, true, false])).session.store.load = .ok (some
        { version := 2
          containers := ⟨[("t",
            { name := "t", keyPath := "id", autoIncrement := true, nextKey := 2
              records := ⟨[(.integer 1, .ofList [("id", .integer 1)])]⟩ })]⟩ }) :=
  (live_image_is_stored {} _ _ _ rfl).1

end Engine

end TableStore
