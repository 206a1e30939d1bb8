import Clmm.Amount
import Clmm.Proofs.Heading
import Mathlib.Algebra.Order.Field.Basic
import Mathlib.Data.Nat.Cast.Order.Field
import Mathlib.Data.Rat.Cast.Order
import Mathlib.Tactic.FieldSimp
import Mathlib.Tactic.Linarith
import Mathlib.Tactic.Positivity
import Mathlib.Tactic.Ring

/-!
# Clmm.Proofs.ExactAmount

**Rounded amounts against exact ones.** One unit of liquidity holds, up to a constant that depends on
its range only, `2 ^ 64 / p` of token 0 and `p / 2 ^ 64` of token 1 at price `p`: this is `holding`,
an exact rational. Moving the price in the direction of a swap does not lower the holding of the input
token (`holding_input_mono`).

Each amount the pool computes is the ceiling or the floor of a difference of holdings. Both are
stated by what they are compared with: the ceiling of `x` is at most `k` when `x` is
(`amountIn_le_iff`), and `k` is at most its floor when it is at most `x` (`le_amountOut_iff`).
-/

namespace Clmm

/-- What one unit of liquidity holds of a token at price `p`, up to a constant. -/
def holding (x : Token) (p : Nat) : ℚ :=
  match x with
  | .zero => 2 ^ 64 / p
  | .one => p / 2 ^ 64

variable {d : Direction} {a b liquidity n : Nat}

/-! ### The price and the holdings -/

theorem holding_zero_anti (ha : 0 < a) (h : a ≤ b) : holding .zero b ≤ holding .zero a := by
  simp only [holding]
  have ha' : (0 : ℚ) < a := by exact_mod_cast ha
  have hab : (a : ℚ) ≤ b := by exact_mod_cast h
  exact div_le_div_of_nonneg_left (by positivity) ha' hab

theorem holding_one_mono (h : a ≤ b) : holding .one a ≤ holding .one b := by
  simp only [holding]
  have hab : (a : ℚ) ≤ b := by exact_mod_cast h
  exact div_le_div_of_nonneg_right hab (by positivity)

/-- On the way of a swap the holding of the input token does not fall. -/
theorem holding_input_mono (hb : 0 < b) (h : d.Leads a b) :
    holding d.input a ≤ holding d.input b := by
  cases d
  · exact holding_zero_anti hb h
  · exact holding_one_mono h

namespace Direction

/-- On the way of a swap the holding of the output token does not rise. -/
theorem holding_output_anti (ha : 0 < a) (h : d.Leads a b) :
    holding d.output b ≤ holding d.output a := by
  cases d
  · exact holding_one_mono h
  · exact holding_zero_anti ha h

theorem leads_of_holding_input_lt (ha : 0 < a) (h : holding d.input a < holding d.input b) :
    d.Leads a b := by
  rcases Leads.total d a b with hab | hba
  · exact hab
  · exact absurd (holding_input_mono ha hba) (not_le.2 h)

end Direction

/-! ### Ceiling and floor -/

theorem cast_divUp_le_iff {m k q : Nat} (hq : 0 < q) : divUp m q ≤ k ↔ (m : ℚ) / q ≤ k := by
  have hq' : (0 : ℚ) < q := by exact_mod_cast hq
  rw [divUp_le_iff hq, div_le_iff₀ hq']
  exact_mod_cast Iff.rfl

theorem le_cast_div_iff {m k q : Nat} (hq : 0 < q) : k ≤ m / q ↔ (k : ℚ) ≤ m / q := by
  have hq' : (0 : ℚ) < q := by exact_mod_cast hq
  rw [Nat.le_div_iff_mul_le hq, le_div_iff₀ hq']
  exact_mod_cast Iff.rfl

/-- Rounding twice is rounding once, by the product of the divisors. -/
theorem Rounding.div_div {r : Rounding} {m : Nat} (ha : 0 < a) (hb : 0 < b) :
    r.div (r.div m b) a = r.div m (a * b) := by
  cases r with
  | down =>
      change m / b / a = m / (a * b)
      rw [Nat.div_div_eq_div_mul, Nat.mul_comm]
  | up =>
      change divUp (divUp m b) a = divUp m (a * b)
      have hiff : ∀ k, divUp (divUp m b) a ≤ k ↔ divUp m (a * b) ≤ k := by
        intro k
        rw [divUp_le_iff ha, divUp_le_iff hb, divUp_le_iff (Nat.mul_pos ha hb), Nat.mul_assoc]
      exact Nat.le_antisymm ((hiff _).2 (Nat.le_refl _)) ((hiff _).1 (Nat.le_refl _))

theorem mulDiv_eq_ok {r : Rounding} {x y q : Nat} (h : mulDiv r x y q = .ok n) :
    0 < q ∧ r.div (x * y) q = n := by
  simp only [mulDiv] at h
  rw [Outcome.bind_eq_ok] at h
  obtain ⟨_, hq, h⟩ := h
  rw [require_eq_ok] at hq
  rw [narrow_eq_ok] at h
  exact ⟨Nat.pos_of_ne_zero hq, h.2⟩

/-! ### The amounts between two prices -/

/-- Token 0 between two prices, as one quotient. -/
theorem holding_zero_sub (ha : 0 < a) (h : a ≤ b) :
    (liquidity : ℚ) * (holding .zero a - holding .zero b) =
      (liquidity * 2 ^ 64 * (b - a) : Nat) / (a * b : Nat) := by
  simp only [holding]
  have ha' : (a : ℚ) ≠ 0 := by
    have : (0 : ℚ) < a := by exact_mod_cast ha
    exact this.ne'
  have hb' : (b : ℚ) ≠ 0 := by
    have : (0 : ℚ) < b := by exact_mod_cast Nat.lt_of_lt_of_le ha h
    exact this.ne'
  push_cast [Nat.cast_sub h]
  field_simp
  ring

/-- Token 1 between two prices, as one quotient. -/
theorem holding_one_sub (h : a ≤ b) :
    (liquidity : ℚ) * (holding .one b - holding .one a) =
      (liquidity * (b - a) : Nat) / (2 ^ 64 : Nat) := by
  simp only [holding]
  push_cast [Nat.cast_sub h]
  ring

theorem amount0_eq_ok {r : Rounding} (h : amount0 a b liquidity r = .ok n) :
    0 < min a b ∧
      r.div (r.div (liquidity * 2 ^ 64 * (max a b - min a b)) (max a b)) (min a b) = n := by
  simp only [amount0] at h
  simp only [Outcome.bind_eq_ok, require_eq_ok, within_eq_ok, narrow_eq_ok] at h
  obtain ⟨_, hpos, _, ⟨-, rfl⟩, -, hn⟩ := h
  exact ⟨hpos, hn⟩

theorem amount0_up_le_iff (hab : a ≤ b) (h : amount0 a b liquidity .up = .ok n) (k : Nat) :
    n ≤ k ↔ (liquidity : ℚ) * (holding .zero a - holding .zero b) ≤ k := by
  obtain ⟨ha, rfl⟩ := amount0_eq_ok h
  rw [Nat.min_eq_left hab] at ha
  have hb : 0 < b := Nat.lt_of_lt_of_le ha hab
  rw [Nat.min_eq_left hab, Nat.max_eq_right hab, holding_zero_sub ha hab,
    Rounding.div_div ha hb]
  exact cast_divUp_le_iff (Nat.mul_pos ha hb)

theorem le_amount0_down_iff (hab : a ≤ b) (h : amount0 a b liquidity .down = .ok n) (k : Nat) :
    k ≤ n ↔ (k : ℚ) ≤ liquidity * (holding .zero a - holding .zero b) := by
  obtain ⟨ha, rfl⟩ := amount0_eq_ok h
  rw [Nat.min_eq_left hab] at ha
  have hb : 0 < b := Nat.lt_of_lt_of_le ha hab
  rw [Nat.min_eq_left hab, Nat.max_eq_right hab, holding_zero_sub ha hab,
    Rounding.div_div ha hb]
  exact le_cast_div_iff (Nat.mul_pos ha hb)

theorem amount1_up_le_iff (hab : a ≤ b) (h : amount1 a b liquidity .up = .ok n) (k : Nat) :
    n ≤ k ↔ (liquidity : ℚ) * (holding .one b - holding .one a) ≤ k := by
  obtain ⟨hq, rfl⟩ := mulDiv_eq_ok h
  rw [Nat.max_eq_right hab, Nat.min_eq_left hab, holding_one_sub hab]
  exact cast_divUp_le_iff hq

theorem le_amount1_down_iff (hab : a ≤ b) (h : amount1 a b liquidity .down = .ok n) (k : Nat) :
    k ≤ n ↔ (k : ℚ) ≤ liquidity * (holding .one b - holding .one a) := by
  obtain ⟨hq, rfl⟩ := mulDiv_eq_ok h
  rw [Nat.max_eq_right hab, Nat.min_eq_left hab, holding_one_sub hab]
  exact le_cast_div_iff hq

theorem amount0_comm (a b liquidity : Nat) (r : Rounding) :
    amount0 a b liquidity r = amount0 b a liquidity r := by
  simp only [amount0]
  rw [Nat.min_comm, Nat.max_comm]

theorem amount1_comm (a b liquidity : Nat) (r : Rounding) :
    amount1 a b liquidity r = amount1 b a liquidity r := by
  simp only [amount1]
  rw [Nat.min_comm, Nat.max_comm]

/-! ### The amounts of a move -/

/-- The input of a move is the ceiling of what the holding rises by. -/
theorem amountIn_le_iff (hab : d.Leads a b) (h : d.amountIn a b liquidity = .ok n) (k : Nat) :
    n ≤ k ↔ (liquidity : ℚ) * (holding d.input b - holding d.input a) ≤ k := by
  cases d
  · exact amount0_up_le_iff hab (amount0_comm _ _ _ _ ▸ h) k
  · exact amount1_up_le_iff hab h k

/-- The output of a move is the floor of what the holding falls by. -/
theorem le_amountOut_iff (hab : d.Leads a b) (h : d.amountOut a b liquidity = .ok n) (k : Nat) :
    k ≤ n ↔ (k : ℚ) ≤ liquidity * (holding d.output a - holding d.output b) := by
  cases d
  · exact le_amount1_down_iff hab (amount1_comm _ _ _ _ ▸ h) k
  · exact le_amount0_down_iff hab h k

@[simp] theorem tokenAmount_eq_ok {m : Nat} : tokenAmount m = .ok n ↔ m < 2 ^ 64 ∧ m = n := by
  simp only [tokenAmount]
  rw [narrow_eq_ok]

theorem tokens0_eq_ok {r : Rounding} (h : tokens0 a b liquidity r = .ok n) :
    amount0 a b liquidity r = .ok n := by
  simp only [tokens0] at h
  rw [Outcome.bind_eq_ok] at h
  obtain ⟨_, hamount, h⟩ := h
  rw [tokenAmount_eq_ok] at h
  obtain ⟨-, rfl⟩ := h
  exact hamount

theorem tokens1_eq_ok {r : Rounding} (h : tokens1 a b liquidity r = .ok n) :
    amount1 a b liquidity r = .ok n := by
  simp only [tokens1] at h
  rw [Outcome.bind_eq_ok] at h
  obtain ⟨_, hamount, h⟩ := h
  rw [tokenAmount_eq_ok] at h
  obtain ⟨-, rfl⟩ := h
  exact hamount

end Clmm
