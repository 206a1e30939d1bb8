import Clmm.Proofs.Progress

/-!
# Clmm.Proofs.Faults

**When a computation faults.** A computation *decides* if it gives a value or refuses, so that it
neither faults nor runs out of steps (`Outcome.Decides`). Almost all parts of a pool operation decide.
Where one does not, `FaultsIff` says exactly when: under the condition it faults, and otherwise it
decides. The condition of a sequence is that of its first part, or that of the rest on the value which
the first part gave.
-/

namespace Clmm

namespace Outcome

variable {α β : Type} {x : Outcome α} {f : α → Outcome β} {F G : Prop}

/-- The computation gives a value or refuses. -/
def Decides (x : Outcome α) : Prop := ∀ e, x = .error e → ∃ r, e = .refused r

/-- The computation faults if `F` holds and decides otherwise. -/
structure FaultsIff (x : Outcome α) (F : Prop) : Prop where
  fault : F → x = .error .fault
  decides : ¬ F → Decides x

/-! ### Computations that decide -/

theorem Succeeds.decides (h : Succeeds x) : Decides x := by
  obtain ⟨a, rfl⟩ := h
  intro e he
  cases he

theorem decides_ok (a : α) : Decides (.ok a) := (succeeds_ok a).decides

theorem decides_pure (a : α) : Decides (pure a : Outcome α) := (succeeds_pure a).decides

theorem decides_refused (r : Refusal) : Decides (.error (.refused r) : Outcome α) :=
  fun _ he => ⟨r, (Except.error.inj he).symm⟩

theorem Decides.bind (hx : Decides x) (hf : ∀ a, x = .ok a → Decides (f a)) : Decides (x >>= f) := by
  intro e he
  rcases bind_eq_error.1 he with he | ⟨a, ha, he⟩
  · exact hx e he
  · exact hf a ha e he

theorem Decides.ite {c : Prop} [Decidable c] {y : Outcome α} (hx : c → Decides x)
    (hy : ¬ c → Decides y) : Decides (if c then x else y) := by
  by_cases hc : c
  · rw [if_pos hc]
    exact hx hc
  · rw [if_neg hc]
    exact hy hc

theorem decides_require {p : Prop} [Decidable p] {r : Refusal} : Decides (require p r) :=
  .ite (fun _ => decides_ok ()) fun _ => decides_refused r

theorem decides_guardFault {p : Prop} [Decidable p] (h : p) : Decides (guardFault p) :=
  (succeeds_guardFault h).decides

theorem decides_narrow {bits n : Nat} {r : Refusal} : Decides (narrow bits n r) :=
  .ite (fun _ => decides_ok n) fun _ => decides_refused r

theorem decides_signedNarrow {bits : Nat} {z : Int} {r : Refusal} : Decides (signedNarrow bits z r) :=
  .ite (fun _ => decides_ok z) fun _ => decides_refused r

theorem decides_subOrRefuse {a b : Nat} {r : Refusal} : Decides (subOrRefuse a b r) :=
  .ite (fun _ => decides_ok (a - b)) fun _ => decides_refused r

theorem decides_mulDiv {r : Rounding} {a b d : Nat} : Decides (mulDiv r a b d) :=
  decides_require.bind fun _ _ => decides_narrow

theorem decides_addSigned {n : Nat} {z : Int} : Decides (addSigned n z) :=
  .ite (fun _ => decides_subOrRefuse) fun _ => decides_narrow

/-! ### Computations that may fault -/

theorem Decides.faultsIff (h : Decides x) : FaultsIff x False := ⟨False.elim, fun _ => h⟩

theorem FaultsIff.congr (h : FaultsIff x F) (hiff : F ↔ G) : FaultsIff x G :=
  ⟨fun hg => h.fault (hiff.2 hg), fun hg => h.decides (mt hiff.1 hg)⟩

theorem faultsIff_within {bits n : Nat} : FaultsIff (within bits n) (2 ^ bits ≤ n) :=
  ⟨fun h => if_neg (Nat.not_lt.2 h), fun h => (succeeds_within (Nat.not_le.1 h)).decides⟩

theorem FaultsIff.bind {G : α → Prop} (hx : FaultsIff x F)
    (hf : ∀ a, x = .ok a → FaultsIff (f a) (G a)) :
    FaultsIff (x >>= f) (F ∨ ∃ a, x = .ok a ∧ G a) := by
  constructor
  · rintro (hF | ⟨a, ha, hG⟩)
    · exact bind_eq_error.2 (Or.inl (hx.fault hF))
    · exact bind_eq_error.2 (Or.inr ⟨a, ha, (hf a ha).fault hG⟩)
  · intro hnot
    rw [not_or] at hnot
    exact (hx.decides hnot.1).bind fun a ha => (hf a ha).decides fun hG => hnot.2 ⟨a, ha, hG⟩

/-- Only the first part may fault. -/
theorem FaultsIff.bind_decides (hx : FaultsIff x F) (hf : ∀ a, x = .ok a → Decides (f a)) :
    FaultsIff (x >>= f) F :=
  (hx.bind fun a ha => (hf a ha).faultsIff).congr (by simp)

/-- Only the rest may fault. -/
theorem Decides.bind_faultsIff {G : α → Prop} (hx : Decides x)
    (hf : ∀ a, x = .ok a → FaultsIff (f a) (G a)) : FaultsIff (x >>= f) (∃ a, x = .ok a ∧ G a) :=
  (hx.faultsIff.bind hf).congr (by simp)

theorem FaultsIff.ite {c : Prop} [Decidable c] {y : Outcome α} (hx : c → FaultsIff x F)
    (hy : ¬ c → FaultsIff y G) : FaultsIff (if c then x else y) (c ∧ F ∨ ¬ c ∧ G) := by
  by_cases hc : c
  · rw [if_pos hc]
    exact (hx hc).congr (by simp [hc])
  · rw [if_neg hc]
    exact (hy hc).congr (by simp [hc])

end Outcome

namespace Update

variable {σ α β : Type} {s : σ}

/-- The update, run on `s`, gives a value or refuses. -/
def Decides (u : Update σ α) (s : σ) : Prop := ∀ e t, u s = .error e t → ∃ r, e = .refused r

/-- The update, run on `s`, faults with `s` unchanged if `F` holds and decides otherwise. -/
structure FaultsIff (u : Update σ α) (s : σ) (F : Prop) : Prop where
  fault : F → u s = .error .fault s
  decides : ¬ F → Decides u s

theorem Decides.bind {u : Update σ α} {f : α → Update σ β} (hu : Decides u s)
    (hf : ∀ a t, u s = .ok a t → Decides (f a) t) : Decides (u >>= f) s := by
  intro e t h
  change EStateM.bind u f s = _ at h
  unfold EStateM.bind at h
  cases hrun : u s with
  | ok a s' =>
      rw [hrun] at h
      exact hf a s' hrun e t h
  | error e' s' =>
      rw [hrun] at h
      obtain ⟨rfl, rfl⟩ := EStateM.Result.error.inj h
      exact hu _ _ hrun

theorem decides_pure (a : α) : Decides (pure a) s := fun _ _ h => by cases h

theorem decides_get : Decides (get : Update σ σ) s := fun _ _ h => by cases h

theorem decides_modify (f : σ → σ) : Decides (modify f : Update σ PUnit) s := fun _ _ h => by cases h

theorem decides_lift {x : Outcome α} (hx : Outcome.Decides x) : Decides (liftM x : Update σ α) s := by
  intro e t h
  cases x with
  | ok a => cases h
  | error e' =>
      obtain ⟨rfl, -⟩ := EStateM.Result.error.inj h
      exact hx _ rfl

/-- Reading the state neither faults nor changes it. -/
theorem FaultsIff.get_bind {f : σ → Update σ β} {F : Prop} (h : FaultsIff (f s) s F) :
    FaultsIff (get >>= f) s F :=
  ⟨fun hF => h.fault hF, fun hF => h.decides hF⟩

/-- An update that begins with a computation and may fault only there. -/
theorem FaultsIff.lift_bind {x : Outcome α} {f : α → Update σ β} {F : Prop}
    (hx : Outcome.FaultsIff x F) (hf : ∀ a, x = .ok a → Decides (f a) s) :
    FaultsIff ((liftM x : Update σ α) >>= f) s F := by
  constructor
  · intro hF
    rw [hx.fault hF]
    rfl
  · intro hF
    refine (decides_lift (hx.decides hF)).bind ?_
    intro a t hrun
    obtain ⟨ha, rfl⟩ := lift_eq_ok.1 hrun
    exact hf a ha

end Update

end Clmm
