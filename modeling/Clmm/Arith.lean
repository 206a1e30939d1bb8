import Clmm.Outcome
import Clmm.Power

/-!
# Clmm.Arith

**Exact arithmetic with stated widths.** All quantities are natural numbers or integers, computed
exactly. Where a quantity has to fit a machine word this is said by one of two checks:

* `within`, for an intermediate product that nobody checks: leaving the width is a fault;
* `narrow`, for a result that is checked: leaving the width is refused with a reason.

A product of two 128-bit numbers always has room in 256 bits, so `mulDiv` checks only its result.
-/

namespace Clmm

/-- How a quotient is rounded. -/
inductive Rounding
  | down
  | up
deriving DecidableEq, Repr, Inhabited

/-- The quotient rounded up. -/
def divUp (n d : Nat) : Nat := n / d + if n % d = 0 then 0 else 1

/-- The quotient, rounded as told. -/
def Rounding.div : Rounding → Nat → Nat → Nat
  | .down, n, d => n / d
  | .up, n, d => divUp n d

/-- `n`, which faults if it has more than `bits` bits. -/
def within (bits n : Nat) : Outcome Nat :=
  if n < 2 ^ bits then .ok n else .error .fault

/-- `n`, refused with reason `r` if it has more than `bits` bits. -/
def narrow (bits n : Nat) (r : Refusal) : Outcome Nat :=
  if n < 2 ^ bits then .ok n else .error (.refused r)

/-- `z`, which faults if it does not fit a signed word of `bits` bits. -/
def signedWithin (bits : Nat) (z : Int) : Outcome Int :=
  if -2 ^ (bits - 1) ≤ z ∧ z < 2 ^ (bits - 1) then .ok z else .error .fault

/-- `z`, refused with reason `r` if it does not fit a signed word of `bits` bits. -/
def signedNarrow (bits : Nat) (z : Int) (r : Refusal) : Outcome Int :=
  if -2 ^ (bits - 1) ≤ z ∧ z < 2 ^ (bits - 1) then .ok z else .error (.refused r)

/-- `a - b`, refused with reason `r` if `b` is the larger. -/
def subOrRefuse (a b : Nat) (r : Refusal) : Outcome Nat :=
  if b ≤ a then .ok (a - b) else .error (.refused r)

/-- `a * b / d` in 128 bits, rounded as told; the product is exact. -/
def mulDiv (r : Rounding) (a b d : Nat) : Outcome Nat := do
  require (d ≠ 0) .divisionByZero
  narrow 128 (r.div (a * b) d) .mathOverflow

/-- The upper half of the 256-bit product of two 128-bit numbers. -/
def mulShift128 (a b : Nat) : Nat := a * b / 2 ^ 128

/-- A number given by 64-bit limbs, least significant first, refused beyond 128 bits. -/
def ofLimbs128 (limbs : List Nat) : Outcome Nat :=
  narrow 128 (limbs.foldr (fun limb n => limb + 2 ^ 64 * n) 0) .mathOverflow

/-- Adds a signed change to a 128-bit liquidity. -/
def addSigned (x : Nat) (y : Int) : Outcome Nat :=
  if y < 0 then subOrRefuse x y.natAbs .mathOverflow else narrow 128 (x + y.natAbs) .mathOverflow

/-! ### When a checked quantity is accepted -/

@[simp] theorem within_eq_ok {bits n m : Nat} : within bits n = .ok m ↔ n < 2 ^ bits ∧ n = m := by
  unfold within
  by_cases h : n < 2 ^ bits <;> simp [h]

@[simp] theorem narrow_eq_ok {bits n m : Nat} {r : Refusal} :
    narrow bits n r = .ok m ↔ n < 2 ^ bits ∧ n = m := by
  unfold narrow
  by_cases h : n < 2 ^ bits <;> simp [h]

@[simp] theorem narrow_eq_error {bits n : Nat} {r : Refusal} {e : Failure} :
    narrow bits n r = .error e ↔ 2 ^ bits ≤ n ∧ e = .refused r := by
  unfold narrow
  by_cases h : n < 2 ^ bits
  · simp [h, Nat.not_le.2 h]
  · simp [h, Nat.not_lt.1 h, eq_comm]

@[simp] theorem signedWithin_eq_ok {bits : Nat} {z w : Int} :
    signedWithin bits z = .ok w ↔ (-2 ^ (bits - 1) ≤ z ∧ z < 2 ^ (bits - 1)) ∧ z = w := by
  unfold signedWithin
  by_cases h : -2 ^ (bits - 1) ≤ z ∧ z < 2 ^ (bits - 1)
  · simp [h]
  · rw [if_neg h]
    exact ⟨fun h' => absurd h' (by simp), fun h' => absurd h'.1 h⟩

@[simp] theorem signedNarrow_eq_ok {bits : Nat} {z w : Int} {r : Refusal} :
    signedNarrow bits z r = .ok w ↔ (-2 ^ (bits - 1) ≤ z ∧ z < 2 ^ (bits - 1)) ∧ z = w := by
  unfold signedNarrow
  by_cases h : -2 ^ (bits - 1) ≤ z ∧ z < 2 ^ (bits - 1)
  · simp [h]
  · rw [if_neg h]
    exact ⟨fun h' => absurd h' (by simp), fun h' => absurd h'.1 h⟩

@[simp] theorem subOrRefuse_eq_ok {a b m : Nat} {r : Refusal} :
    subOrRefuse a b r = .ok m ↔ b ≤ a ∧ a - b = m := by
  unfold subOrRefuse
  by_cases h : b ≤ a <;> simp [h]

theorem addSigned_eq_ok {x n : Nat} {y : Int} (h : addSigned x y = .ok n) : (n : Int) = x + y := by
  unfold addSigned at h
  by_cases hy : y < 0
  · rw [if_pos hy, subOrRefuse_eq_ok] at h
    omega
  · rw [if_neg hy, narrow_eq_ok] at h
    omega

/-- Rounding up is the ceiling: the least number whose multiple by `d` reaches `n`. -/
theorem divUp_le_iff {n d k : Nat} (hd : 0 < d) : divUp n d ≤ k ↔ n ≤ k * d := by
  have hdiv := Nat.div_add_mod n d
  have hlt := Nat.mod_lt n hd
  unfold divUp
  by_cases h0 : n % d = 0
  · rw [if_pos h0, Nat.add_zero, Nat.div_le_iff_le_mul_add_pred hd]
    constructor
    · intro h
      obtain ⟨c, hc⟩ := Nat.dvd_of_mod_eq_zero h0
      subst hc
      have : c ≤ k := by
        apply Nat.le_of_lt_succ
        apply Nat.lt_of_mul_lt_mul_left (a := d)
        rw [Nat.mul_succ]
        omega
      exact Nat.mul_comm k d ▸ Nat.mul_le_mul_left d this
    · intro h
      rw [Nat.mul_comm] at h
      omega
  · rw [if_neg h0, Nat.succ_le_iff, Nat.div_lt_iff_lt_mul hd]
    constructor
    · exact Nat.le_of_lt
    · intro h
      rcases Nat.lt_or_eq_of_le h with h | h
      · exact h
      · exact absurd (by rw [h, Nat.mul_mod_left]) h0

/-! ### The upper half of a product -/

/-- A factor below one lowers a number. -/
theorem mulShift128_le {a f : Nat} (hf : f ≤ 2 ^ 128) : mulShift128 a f ≤ a := by
  simp only [mulShift128]
  rw [Nat.div_le_iff_le_mul_add_pred (by decide), Nat.mul_comm (2 ^ 128)]
  exact Nat.le_add_right_of_le (Nat.mul_le_mul_left a hf)

theorem mulShift128_le_mulShift128 {a b f : Nat} (h : a ≤ b) : mulShift128 a f ≤ mulShift128 b f :=
  Nat.div_le_div_right (Nat.mul_le_mul_right f h)

end Clmm
