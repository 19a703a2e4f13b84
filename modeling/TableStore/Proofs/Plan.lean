import TableStore.Proofs.Operations

/-!
# Plans

- a `Plan` is the body of a unit in general: what it does next may depend on the outcomes of all operations so far,
  failures included, and in the end it gives a value or fails;
- `Plan.events` are the operations of a run with their outcomes and the states after them, `touchedBy` the keys
  that these have touched in a container;
- a run keeps what is known of the unit (`Plan.since_run`), with the history that its events tell, and what all its
  operations keep (`Plan.keeps_run`); a script is the plan that goes on after the failures of tolerant steps
  (`Script.body_eq_run`).
-/

namespace TableStore

open Attempt

/-- The body of a unit. -/
inductive Plan (ω α : Type) where
  /-- Gives a value. -/
  | done (a : α)
  /-- Fails. -/
  | fail (e : Error)
  /-- Runs an operation and goes on with its outcome. -/
  | next (op : ω) (rest : Except Error Reply → Plan ω α)

/-- An operation that was run, its outcome, and the state after it. -/
structure Event (σ ω : Type) where
  op : ω
  outcome : Except Error Reply
  after : σ

namespace Plan

variable {σ ω α : Type}

/-- The unit of a plan. -/
def run (runOp : ω → Attempt σ Reply) : Plan ω α → Attempt σ α
  | .done a => pure a
  | .fail e => Attempt.fail e
  | .next op rest => fun s => (rest (runOp op s).1).run runOp (runOp op s).2

/-- The operations of a run, the first one first. -/
def events (runOp : ω → Attempt σ Reply) : Plan ω α → σ → List (Event σ ω)
  | .done _, _ => []
  | .fail _, _ => []
  | .next op rest, s => ⟨op, (runOp op s).1, (runOp op s).2⟩ :: (rest (runOp op s).1).events runOp (runOp op s).2

/-- The plan of a script. -/
def ofSteps : List (Step ω) → Plan ω Unit
  | [] => .done ()
  | step :: steps => .next step.op fun outcome =>
    match outcome with
    | .ok _ => ofSteps steps
    | .error e => if step.tolerant then ofSteps steps else .fail e

end Plan

/-! ## Traces -/

/-- What an operation leaves behind: the keys that it has touched by container, and the image after it. -/
structure Trace where
  touched : String → List Key
  image : Image

/-- The trace of an operation of an upgrade. -/
def UpgradeOp.trace (e : Event Upgrade UpgradeOp) : Trace := ⟨fun name => e.op.touched name e.outcome, e.after.image⟩

/-- The trace of an operation of a transaction. -/
def TransactionOp.trace (e : Event Image TransactionOp) : Trace := ⟨fun name => e.op.touched name e.outcome, e.after⟩

/-- The keys that were touched in a container. -/
def touchedBy (traces : List Trace) (name : String) : List Key := traces.flatMap fun t => t.touched name

namespace History

/-- The history with the traces of operations. -/
def through : History → List Trace → History
  | h, [] => h
  | h, t :: ts => ((h.record t.touched).pause t.image).through ts

theorem mem_touched_through {name : String} {k : Key} : ∀ {h : History} {ts : List Trace},
    k ∈ (h.through ts).touched name ↔ k ∈ touchedBy ts name ∨ k ∈ h.touched name
  | h, [] => by simp [through, touchedBy]
  | h, t :: ts => by
    rw [through, mem_touched_through]
    simp only [touchedBy, List.flatMap_cons, List.mem_append, History.pause, History.record]
    exact or_left_comm.trans or_assoc.symm

theorem missing_through_of_missing {name : String} : ∀ {h : History} {ts : List Trace}, h.missing name →
    (h.through ts).missing name
  | _, [], hm => hm
  | h, t :: ts, hm => by
    rw [through]
    exact missing_through_of_missing (.inl hm)

/-- A name under which there was nothing after some operation was missing. -/
theorem missing_through {name : String} : ∀ {h : History} {ts : List Trace} {t : Trace}, t ∈ ts →
    t.image.find? name = none → (h.through ts).missing name
  | h, t' :: ts, t, ht, hn => by
    rcases List.mem_cons.1 ht with rfl | ht
    · exact missing_through_of_missing (h := (h.record t.touched).pause t.image) (.inr hn)
    · exact missing_through (h := (h.record t'.touched).pause t'.image) ht hn

end History

namespace Plan

variable {α : Type} {i : Image} {v : Nat}

/-- **A run of an upgrade keeps what is known of it.** -/
theorem since_run : ∀ (p : Plan UpgradeOp α) {h : History} {u : Upgrade}, Upgrade.Since i v h u →
    Upgrade.Since i v (h.through ((p.events UpgradeOp.run u).map UpgradeOp.trace)) (p.run UpgradeOp.run u).2
  | .done _, _, _, hu => hu
  | .fail _, _, _, hu => hu
  | .next op rest, _, u, hu => since_run (rest (op.run u).1) (op.since_run hu).pause

/-- **A run of a transaction keeps what is known of it.** -/
theorem since_run_transaction : ∀ (p : Plan TransactionOp α) {h : History} {j : Image}, Transaction.Since i h j →
    Transaction.Since i (h.through ((p.events TransactionOp.run j).map TransactionOp.trace))
      (p.run TransactionOp.run j).2
  | .done _, _, _, hj => hj
  | .fail _, _, _, hj => hj
  | .next op rest, _, j, hj => since_run_transaction (rest (op.run j).1) (op.since_run hj).pause

end Plan

/-- A plan keeps what all its operations keep. -/
theorem Plan.keeps_run {σ ω α : Type} {P : σ → Prop} {runOp : ω → Attempt σ Reply} (h : ∀ op, Keeps P (runOp op)) :
    ∀ p : Plan ω α, Keeps P (p.run runOp)
  | .done _ => Keeps.pure _
  | .fail _ => Keeps.fail _
  | .next op rest => fun s hs => Plan.keeps_run h (rest (runOp op s).1) _ (h op s hs)

/-- The unit of a script is that of its plan. -/
theorem Script.body_eq_run {σ ω : Type} (runOp : ω → Attempt σ Reply) :
    ∀ steps : List (Step ω), Script.body runOp steps = (Plan.ofSteps steps).run runOp
  | [] => rfl
  | step :: steps => by
    have ih : ∀ s, (Script.run runOp steps s).2 = (Plan.ofSteps steps).run runOp s :=
      congrFun (Script.body_eq_run runOp steps)
    funext s
    simp only [Script.body, Script.run, Plan.ofSteps, Plan.run]
    cases h : runOp step.op s with
    | mk outcome s' =>
      cases outcome with
      | ok r => exact ih s'
      | error e =>
        cases ht : step.tolerant with
        | true => simpa [ht] using ih s'
        | false => simp [Plan.run]

/-- A script keeps what all its operations keep. -/
theorem Script.keeps_body {σ ω : Type} {P : σ → Prop} {runOp : ω → Attempt σ Reply} (h : ∀ op, Keeps P (runOp op))
    (steps : List (Step ω)) : Keeps P (body runOp steps) := by
  rw [body_eq_run]
  exact (Plan.ofSteps steps).keeps_run h

end TableStore
