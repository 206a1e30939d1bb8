import Clmm.Refusal

/-!
# Clmm.Outcome

**How a computation ends.** A pool operation either gives a value or fails, and there are three ways
to fail that must not be mixed up:

* `refused`: the operation saw that the request is not admissible and says why;
* `fault`: a machine-sized quantity left its width, a divisor was zero, a shift or an index was out
  of range. Nothing was checked beforehand, so no reason can be given;
* `unfinished`: a bounded loop used up its bound. No operation of this library ends so; the
  constructor is there so that this can be *said*.

Operations on a state that is left behind even when they fail are `Update`s: the state after a
failure is part of the result.
-/

namespace Clmm

/-- How a computation fails. -/
inductive Failure
  | refused (reason : Refusal)
  | fault
  | unfinished
deriving DecidableEq, Repr, Inhabited

/-- A value or a failure. -/
abbrev Outcome (α : Type) := Except Failure α

/-- A computation over a state, which is kept also when the computation fails: whatever was written
before the failing step stays written. -/
abbrev Update (σ α : Type) := EStateM Failure σ α

/-- The state that an update leaves, if it succeeds. -/
def Update.after {σ α : Type} (u : Update σ α) (s : σ) : Outcome σ :=
  match u s with
  | .ok _ s' => .ok s'
  | .error e _ => .error e

/-- A stateless computation inside an update: it writes nothing. -/
instance {σ : Type} : MonadLift Outcome (Update σ) where
  monadLift x := fun s => match x with
    | .ok a => .ok a s
    | .error e => .error e s

/-- Continues if `p` holds and refuses with reason `r` otherwise. -/
def require (p : Prop) [Decidable p] (r : Refusal) : Outcome Unit :=
  if p then .ok () else .error (.refused r)

/-- Continues if `p` holds and faults otherwise. -/
def guardFault (p : Prop) [Decidable p] : Outcome Unit :=
  if p then .ok () else .error .fault

/-! ### Opening a successful computation

These are the lemmas by which proofs read a successful run backwards, one step at a time. -/

@[simp] theorem require_eq_ok {p : Prop} [Decidable p] {r : Refusal} {u : Unit} :
    require p r = .ok u ↔ p := by
  unfold require; split <;> simp_all

@[simp] theorem require_eq_error {p : Prop} [Decidable p] {r : Refusal} {e : Failure} :
    require p r = .error e ↔ ¬ p ∧ e = .refused r := by
  unfold require; split <;> simp_all [eq_comm]

@[simp] theorem guardFault_eq_ok {p : Prop} [Decidable p] {u : Unit} :
    guardFault p = .ok u ↔ p := by
  unfold guardFault; split <;> simp_all

@[simp] theorem guardFault_eq_error {p : Prop} [Decidable p] {e : Failure} :
    guardFault p = .error e ↔ ¬ p ∧ e = .fault := by
  unfold guardFault; split <;> simp_all [eq_comm]

/-- What can be computed of a value. -/
theorem exists_ok_of_any {ε α : Type} {x : Except ε α} {P : α → Bool}
    (h : x.toOption.any P = true) : ∃ a, x = .ok a ∧ P a = true := by
  cases x with
  | error e => cases h
  | ok a => exact ⟨a, rfl, h⟩

namespace Outcome

variable {α β : Type}

/-- A sequence succeeds exactly when its first part does and the rest does on its value. -/
theorem bind_eq_ok {x : Outcome α} {f : α → Outcome β} {b : β} :
    (x >>= f) = .ok b ↔ ∃ a, x = .ok a ∧ f a = .ok b := by
  cases x <;> simp [bind, Except.bind]

/-- A sequence fails exactly when its first part does, or the rest does on its value. -/
theorem bind_eq_error {x : Outcome α} {f : α → Outcome β} {e : Failure} :
    (x >>= f) = .error e ↔ x = .error e ∨ ∃ a, x = .ok a ∧ f a = .error e := by
  cases x <;> simp [bind, Except.bind]

@[simp] theorem ok_bind {a : α} {f : α → Outcome β} : (Except.ok a >>= f) = f a := rfl

/-- Two branches that go on in the same way. -/
theorem ite_bind_eq_ok {c : Prop} [Decidable c] {x y : Outcome α} {f : α → Outcome β} {b : β} :
    (if c then x >>= f else y >>= f) = .ok b ↔
      ∃ a, (if c then x else y) = .ok a ∧ f a = .ok b := by
  by_cases h : c
  · simp only [if_pos h]
    exact bind_eq_ok
  · simp only [if_neg h]
    exact bind_eq_ok

/-- Replaces every failure by the refusal `r`. -/
def orRefuse (x : Outcome α) (r : Refusal) : Outcome α :=
  match x with
  | .ok a => .ok a
  | .error _ => .error (.refused r)

@[simp] theorem orRefuse_eq_ok {x : Outcome α} {r : Refusal} {a : α} :
    x.orRefuse r = .ok a ↔ x = .ok a := by
  cases x <;> simp [orRefuse]

end Outcome

namespace Update

variable {σ α β : Type} {s s' : σ}

/-- A sequence of updates succeeds exactly when its first part does and the rest does from the state
that the first part leaves. -/
theorem bind_eq_ok {u : Update σ α} {f : α → Update σ β} {b : β} :
    (u >>= f) s = .ok b s' ↔ ∃ a t, u s = .ok a t ∧ f a t = .ok b s' := by
  change EStateM.bind u f s = _ ↔ _
  unfold EStateM.bind
  cases u s with
  | ok a t =>
      simp only [EStateM.Result.ok.injEq]
      constructor
      · intro h
        exact ⟨a, t, ⟨rfl, rfl⟩, h⟩
      · rintro ⟨_, _, ⟨rfl, rfl⟩, h⟩
        exact h
  | error e t => simp

@[simp] theorem pure_eq_ok {a b : α} :
    (pure a : Update σ α) s = .ok b s' ↔ b = a ∧ s' = s := by
  change EStateM.Result.ok a s = _ ↔ _
  simp [eq_comm]

@[simp] theorem get_eq_ok {t : σ} : (get : Update σ σ) s = .ok t s' ↔ t = s ∧ s' = s := by
  change EStateM.Result.ok s s = _ ↔ _
  simp [eq_comm]

@[simp] theorem set_eq_ok {t : σ} {u : PUnit} :
    (set t : Update σ PUnit) s = .ok u s' ↔ s' = t := by
  change EStateM.Result.ok _ t = _ ↔ _
  simp [eq_comm]

@[simp] theorem modify_eq_ok {f : σ → σ} {u : PUnit} :
    (modify f : Update σ PUnit) s = .ok u s' ↔ s' = f s := by
  change EStateM.Result.ok _ (f s) = _ ↔ _
  simp [eq_comm]

@[simp] theorem lift_eq_ok {x : Outcome α} {a : α} :
    (liftM x : Update σ α) s = .ok a s' ↔ x = .ok a ∧ s' = s := by
  cases x with
  | ok b =>
      change EStateM.Result.ok b s = _ ↔ _
      simp [eq_comm]
  | error e =>
      change EStateM.Result.error e s = _ ↔ _
      simp

/-- A sequence of updates fails exactly when its first part does, leaving what that part leaves, or the
rest does from the state that the first part leaves. -/
theorem bind_eq_error {u : Update σ α} {f : α → Update σ β} {e : Failure} :
    (u >>= f) s = .error e s' ↔
      u s = .error e s' ∨ ∃ a t, u s = .ok a t ∧ f a t = .error e s' := by
  change EStateM.bind u f s = _ ↔ _
  unfold EStateM.bind
  cases u s with
  | ok a t =>
      simp only [reduceCtorEq, EStateM.Result.ok.injEq, false_or]
      constructor
      · intro h
        exact ⟨a, t, ⟨rfl, rfl⟩, h⟩
      · rintro ⟨_, _, ⟨rfl, rfl⟩, h⟩
        exact h
  | error e' t => simp

@[simp] theorem pure_eq_error {a : α} {e : Failure} :
    (pure a : Update σ α) s = .error e s' ↔ False := by
  change EStateM.Result.ok a s = _ ↔ _
  simp

@[simp] theorem get_eq_error {e : Failure} : (get : Update σ σ) s = .error e s' ↔ False := by
  change EStateM.Result.ok s s = _ ↔ _
  simp

@[simp] theorem set_eq_error {t : σ} {e : Failure} :
    (set t : Update σ PUnit) s = .error e s' ↔ False := by
  change EStateM.Result.ok _ t = _ ↔ _
  simp

@[simp] theorem modify_eq_error {f : σ → σ} {e : Failure} :
    (modify f : Update σ PUnit) s = .error e s' ↔ False := by
  change EStateM.Result.ok _ (f s) = _ ↔ _
  simp

@[simp] theorem lift_eq_error {x : Outcome α} {e : Failure} :
    (liftM x : Update σ α) s = .error e s' ↔ x = .error e ∧ s' = s := by
  cases x with
  | ok a =>
      change EStateM.Result.ok a s = _ ↔ _
      simp
  | error e' =>
      change EStateM.Result.error e' s = _ ↔ _
      simp [eq_comm]

end Update

end Clmm
