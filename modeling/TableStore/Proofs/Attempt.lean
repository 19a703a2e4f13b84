import TableStore.Attempt

/-!
# What attempts keep

- `Attempt.Meets P x Q R`: from a state with `P` the attempt `x` ends in a state with `Q` and its result if it
  succeeds, and in one with `R` if it fails;
- `Attempt.Keeps P x`: whether it succeeds or not, it leads from states with `P` to states with `P`;
- both go through the ways in which attempts are put together.
-/

namespace TableStore.Attempt

universe u

variable {σ α β : Type u}

/-- After a step that succeeds the rest goes on from where it has led. -/
theorem bind_of_ok {x : Attempt σ α} {f : α → Attempt σ β} {s s' : σ} {a : α} (h : x s = (.ok a, s')) :
    (x >>= f) s = f a s' := by
  rw [bind_apply, h]

/-- What holds after an attempt that starts in a state with `P`. -/
def Meets (P : σ → Prop) (x : Attempt σ α) (Q : α → σ → Prop) (R : σ → Prop) : Prop :=
  ∀ s, P s → match x s with
    | (.ok a, s') => Q a s'
    | (.error _, s') => R s'

/-- States with `P` lead to states with `P`. -/
def Keeps (P : σ → Prop) (x : Attempt σ α) : Prop := ∀ s, P s → P (x s).2

variable {P R : σ → Prop}

theorem Meets.bind {x : Attempt σ α} {f : α → Attempt σ β} {Q : α → σ → Prop} {Q' : β → σ → Prop}
    (hx : Meets P x Q R) (hf : ∀ a, Meets (Q a) (f a) Q' R) : Meets P (x >>= f) Q' R := by
  intro s hs
  have h := hx s hs
  rw [bind_apply]
  cases hxs : x s with
  | mk outcome s' =>
    rw [hxs] at h
    cases outcome with
    | ok a => exact hf a s' h
    | error e => exact h

theorem Meets.pure {a : α} {Q : α → σ → Prop} (h : ∀ s, P s → Q a s) : Meets P (pure a) Q R := fun s hs => h s hs

theorem Meets.read {f : σ → Except Error α} (hR : ∀ s, P s → R s) :
    Meets P (read f) (fun a s => P s ∧ f s = .ok a) R := by
  intro s hs
  rw [read_apply]
  cases h : f s with
  | ok a => exact ⟨hs, h⟩
  | error e => exact hR s hs

/-- What holds whether the attempt succeeds or not. -/
theorem Meets.keeps {x : Attempt σ α} (h : Meets P x (fun _ => R) R) {s : σ} (hs : P s) : R (x s).2 := by
  have := h s hs
  cases hx : x s with
  | mk outcome s' =>
    rw [hx] at this
    cases outcome <;> exact this

theorem Keeps.meets {x : Attempt σ α} (h : Keeps P x) : Meets P x (fun _ => P) P := by
  intro s hs
  have := h s hs
  cases hx : x s with
  | mk outcome s' =>
    rw [hx] at this
    cases outcome <;> exact this

/-- What holds of the results of both outcomes may be weakened. -/
theorem Meets.imp {x : Attempt σ α} {P' R' : σ → Prop} {Q Q' : α → σ → Prop} (h : Meets P x Q R)
    (hP : ∀ s, P' s → P s) (hQ : ∀ a s, Q a s → Q' a s) (hR : ∀ s, R s → R' s) : Meets P' x Q' R' := by
  intro s hs
  have := h s (hP s hs)
  cases hx : x s with
  | mk outcome s' =>
    rw [hx] at this
    cases outcome with
    | ok a => exact hQ a s' this
    | error e => exact hR s' this

theorem Meets.forEach {ι : Type u} {f : ι → Attempt σ PUnit} (hf : ∀ i, Meets P (f i) (fun _ => P) R) :
    ∀ is : List ι, Meets P (forEach f is) (fun _ => P) R
  | [] => Meets.pure fun _ hs => hs
  | i :: is => (hf i).bind fun _ => Meets.forEach hf is

theorem Keeps.pure (a : α) : Keeps P (pure a) := fun _ hs => hs

theorem Keeps.fail (e : Error) : Keeps P (fail e : Attempt σ α) := fun _ hs => hs

theorem Keeps.read (f : σ → Except Error α) : Keeps P (read f) := fun _ hs => hs

theorem Keeps.whole {f : σ → Except Error (α × σ)} (h : ∀ {s a s'}, P s → f s = .ok (a, s') → P s') :
    Keeps P (whole f) := by
  intro s hs
  rw [Attempt.whole]
  cases hf : f s with
  | error e => exact hs
  | ok r => exact h hs hf

theorem Keeps.bind {x : Attempt σ α} {f : α → Attempt σ β} (hx : Keeps P x) (hf : ∀ a, Keeps P (f a)) :
    Keeps P (x >>= f) := fun _ hs => (hx.meets.bind fun a => (hf a).meets).keeps hs

theorem Keeps.forEach_of_mem {ι : Type u} {f : ι → Attempt σ PUnit} :
    ∀ {is : List ι}, (∀ i ∈ is, Keeps P (f i)) → Keeps P (forEach f is)
  | [], _ => Keeps.pure _
  | _ :: _, hf => by
    obtain ⟨hi, his⟩ := List.forall_mem_cons.1 hf
    exact hi.bind fun _ => Keeps.forEach_of_mem his

theorem Keeps.forEach {ι : Type u} {f : ι → Attempt σ PUnit} (hf : ∀ i, Keeps P (f i)) (is : List ι) :
    Keeps P (forEach f is) := Keeps.forEach_of_mem fun i _ => hf i

end TableStore.Attempt
