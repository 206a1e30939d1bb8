import Clmm.Arith
import Mathlib.Tactic.Common

/-!
# Clmm.Proofs.Progress

**Going forward through a computation.** Most proofs read a successful computation backwards. Here the
success itself is to be concluded (`Outcome.Succeeds`, `Update.Succeeds`). A sequence succeeds if its
first part does and the rest does on every value that the first part can have given: what is known of
that value is read off, backwards, from how it came about.
-/

namespace Clmm

namespace Outcome

variable {α β : Type}

/-- The computation gives a value. -/
def Succeeds (x : Outcome α) : Prop := ∃ a, x = .ok a

theorem succeeds_ok (a : α) : Succeeds (.ok a) := ⟨a, rfl⟩

theorem succeeds_pure (a : α) : Succeeds (pure a) := ⟨a, rfl⟩

theorem Succeeds.bind {x : Outcome α} {f : α → Outcome β} (hx : Succeeds x)
    (hf : ∀ a, x = .ok a → Succeeds (f a)) : Succeeds (x >>= f) := by
  obtain ⟨a, hx⟩ := hx
  obtain ⟨b, hb⟩ := hf a hx
  exact ⟨b, bind_eq_ok.2 ⟨a, hx, hb⟩⟩

theorem Succeeds.ite {c : Prop} [Decidable c] {x y : Outcome α} (hx : c → Succeeds x)
    (hy : ¬ c → Succeeds y) : Succeeds (if c then x else y) := by
  by_cases hc : c
  · rw [if_pos hc]
    exact hx hc
  · rw [if_neg hc]
    exact hy hc

/-- Two branches that go on in the same way. -/
theorem Succeeds.ite_bind {c : Prop} [Decidable c] {x y : Outcome α} {f : α → Outcome β}
    (h : Succeeds (if c then x else y)) (hf : ∀ a, (if c then x else y) = .ok a → Succeeds (f a)) :
    Succeeds (if c then x >>= f else y >>= f) := by
  obtain ⟨a, h⟩ := h
  obtain ⟨b, hb⟩ := hf a h
  exact ⟨b, ite_bind_eq_ok.2 ⟨a, h, hb⟩⟩

theorem Succeeds.orRefuse {x : Outcome α} (hx : Succeeds x) (r : Refusal) :
    Succeeds (x.orRefuse r) := by
  obtain ⟨a, hx⟩ := hx
  exact ⟨a, orRefuse_eq_ok.2 hx⟩

theorem succeeds_require {p : Prop} [Decidable p] {r : Refusal} (h : p) : Succeeds (require p r) :=
  ⟨(), require_eq_ok.2 h⟩

theorem succeeds_guardFault {p : Prop} [Decidable p] (h : p) : Succeeds (guardFault p) :=
  ⟨(), guardFault_eq_ok.2 h⟩

theorem succeeds_within {bits n : Nat} (h : n < 2 ^ bits) : Succeeds (within bits n) :=
  ⟨n, within_eq_ok.2 ⟨h, rfl⟩⟩

theorem succeeds_narrow {bits n : Nat} {r : Refusal} (h : n < 2 ^ bits) :
    Succeeds (narrow bits n r) :=
  ⟨n, narrow_eq_ok.2 ⟨h, rfl⟩⟩

theorem succeeds_signedWithin {bits : Nat} {z : Int} (hlow : -2 ^ (bits - 1) ≤ z)
    (hhigh : z < 2 ^ (bits - 1)) : Succeeds (signedWithin bits z) :=
  ⟨z, signedWithin_eq_ok.2 ⟨⟨hlow, hhigh⟩, rfl⟩⟩

theorem succeeds_signedNarrow {bits : Nat} {z : Int} {r : Refusal} (hlow : -2 ^ (bits - 1) ≤ z)
    (hhigh : z < 2 ^ (bits - 1)) : Succeeds (signedNarrow bits z r) :=
  ⟨z, signedNarrow_eq_ok.2 ⟨⟨hlow, hhigh⟩, rfl⟩⟩

theorem succeeds_mulDiv {r : Rounding} {a b d : Nat} (hd : d ≠ 0) (h : r.div (a * b) d < 2 ^ 128) :
    Succeeds (mulDiv r a b d) :=
  (succeeds_require hd).bind fun _ _ => succeeds_narrow h

/-- Taking away what is there succeeds. -/
theorem succeeds_addSigned_neg {x n : Nat} (hpos : 0 < n) (h : n ≤ x) :
    Succeeds (addSigned x (-(n : Int))) := by
  have hneg : -(n : Int) < 0 := by omega
  simp only [addSigned]
  rw [if_pos hneg]
  exact ⟨x - n, subOrRefuse_eq_ok.2 ⟨by omega, by omega⟩⟩

end Outcome

namespace Update

variable {σ α β : Type} {s : σ}

/-- The update gives a value when it is run on `s`. -/
def Succeeds (u : Update σ α) (s : σ) : Prop := ∃ a s', u s = .ok a s'

theorem Succeeds.bind {u : Update σ α} {f : α → Update σ β} (hu : Succeeds u s)
    (hf : ∀ a s', u s = .ok a s' → Succeeds (f a) s') : Succeeds (u >>= f) s := by
  obtain ⟨a, t, hu⟩ := hu
  obtain ⟨b, s', hb⟩ := hf a t hu
  exact ⟨b, s', bind_eq_ok.2 ⟨a, t, hu, hb⟩⟩

theorem succeeds_pure (a : α) : Succeeds (pure a) s := ⟨a, s, pure_eq_ok.2 ⟨rfl, rfl⟩⟩

theorem succeeds_get : Succeeds (get : Update σ σ) s := ⟨s, s, get_eq_ok.2 ⟨rfl, rfl⟩⟩

theorem succeeds_modify (f : σ → σ) : Succeeds (modify f : Update σ PUnit) s :=
  ⟨⟨⟩, f s, modify_eq_ok.2 rfl⟩

theorem succeeds_lift {x : Outcome α} (hx : Outcome.Succeeds x) :
    Succeeds (liftM x : Update σ α) s := by
  obtain ⟨a, hx⟩ := hx
  exact ⟨a, s, lift_eq_ok.2 ⟨hx, rfl⟩⟩

end Update

end Clmm
