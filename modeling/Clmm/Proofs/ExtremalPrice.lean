import Clmm.Proofs.InputReach
import Mathlib.Data.Rat.Floor
import Mathlib.Order.Bounds.Basic

/-!
# Clmm.Proofs.ExtremalPrice

**The price an amount leads to is the best one there is.** Moving a liquidity between two prices
exchanges an exact, rational amount of each token (`exchanged`). An input leads as far as it pays for:
to the last price whose ceiling of that amount it covers. An output leads no further than it has to: to
the first price whose floor of it covers the output (`next_prices_extremal`).

The amounts of a move that the pool itself computes are that ceiling and that floor
(`amountIn_eq_ceil`, `amountOut_eq_floor`), though they are found by other quotients than the prices.
-/

namespace Clmm

variable {d : Direction} {p q t liquidity amount n : Nat}

/-- The exact amount of a token that liquidity exchanges between the prices `p` and `n`. -/
def exchanged (x : Token) (liquidity p n : Nat) : ℚ :=
  match x with
  | .zero => liquidity * 2 ^ 64 * |(p : ℚ) - n| / (p * n)
  | .one => liquidity * |(p : ℚ) - n| / 2 ^ 64

theorem exchanged_comm (x : Token) (liquidity p n : Nat) :
    exchanged x liquidity p n = exchanged x liquidity n p := by
  cases x with
  | zero =>
      simp only [exchanged]
      rw [abs_sub_comm, mul_comm (p : ℚ) n]
  | one =>
      simp only [exchanged]
      rw [abs_sub_comm]

theorem exchanged_nonneg (x : Token) (liquidity p n : Nat) : 0 ≤ exchanged x liquidity p n := by
  cases x with
  | zero =>
      simp only [exchanged]
      positivity
  | one =>
      simp only [exchanged]
      positivity

theorem exchanged_zero (hp : 0 < p) (h : p ≤ n) :
    exchanged .zero liquidity p n = liquidity * (holding .zero p - holding .zero n) := by
  have hle : (p : ℚ) ≤ n := by exact_mod_cast h
  simp only [exchanged]
  rw [holding_zero_sub hp h, abs_of_nonpos (sub_nonpos.2 hle), neg_sub]
  push_cast [Nat.cast_sub h]
  rfl

theorem exchanged_one (h : p ≤ n) :
    exchanged .one liquidity p n = liquidity * (holding .one n - holding .one p) := by
  have hle : (p : ℚ) ≤ n := by exact_mod_cast h
  simp only [exchanged]
  rw [holding_one_sub h, abs_of_nonpos (sub_nonpos.2 hle), neg_sub]
  push_cast [Nat.cast_sub h]
  rfl

/-- On the way of a swap the input exchanged is what the holding of that token rises by. -/
theorem exchanged_input (hn : 0 < n) (h : d.Leads p n) :
    exchanged d.input liquidity p n = liquidity * (holding d.input n - holding d.input p) := by
  cases d with
  | down => exact (exchanged_comm _ _ _ _).trans (exchanged_zero hn h)
  | up => exact exchanged_one h

/-- On the way of a swap the output exchanged is what the holding of that token falls by. -/
theorem exchanged_output (hp : 0 < p) (h : d.Leads p n) :
    exchanged d.output liquidity p n = liquidity * (holding d.output p - holding d.output n) := by
  cases d with
  | down => exact (exchanged_comm _ _ _ _).trans (exchanged_one h)
  | up => exact exchanged_zero hp h

/-! ### The amounts the pool computes -/

theorem amountIn_eq_ceil {m : Nat} (hn : 0 < n) (hleads : d.Leads p n)
    (h : d.amountIn p n liquidity = .ok m) : m = ⌈exchanged d.input liquidity p n⌉₊ := by
  refine eq_of_forall_ge_iff fun k => ?_
  rw [amountIn_le_iff hleads h, Nat.ceil_le, exchanged_input hn hleads]

theorem amountOut_eq_floor {m : Nat} (hp : 0 < p) (hleads : d.Leads p n)
    (h : d.amountOut p n liquidity = .ok m) : m = ⌊exchanged d.output liquidity p n⌋₊ := by
  refine eq_of_forall_le_iff fun k => ?_
  rw [le_amountOut_iff hleads h, Nat.le_floor_iff (exchanged_nonneg _ _ _ _),
    exchanged_output hp hleads]

/-! ### The prices -/

theorem pos_of_nextPriceByInput (h : nextPriceByInput p liquidity amount d = .ok q) : 0 < p := by
  simp only [nextPriceByInput] at h
  rw [Outcome.bind_eq_ok] at h
  obtain ⟨_, hp, -⟩ := h
  rwa [require_eq_ok] at hp

theorem pos_of_nextPriceByOutput (h : nextPriceByOutput p liquidity amount d = .ok q) : 0 < p := by
  simp only [nextPriceByOutput] at h
  rw [Outcome.bind_eq_ok] at h
  obtain ⟨_, hp, -⟩ := h
  rwa [require_eq_ok] at hp

/-- An input leads to the farthest price it pays for. -/
theorem nextPriceByInput_farthest (h : nextPriceByInput p liquidity amount d = .ok q) :
    0 < q ∧ d.Leads p q ∧ ⌈exchanged d.input liquidity p q⌉₊ ≤ amount ∧
      ∀ t, 0 < t → d.Leads p t → ⌈exchanged d.input liquidity p t⌉₊ ≤ amount → d.Leads t q := by
  have hp := pos_of_nextPriceByInput h
  obtain ⟨hq, hleads, hcost⟩ := nextPriceByInput_spec hp h
  refine ⟨hq, hleads, ?_, ?_⟩
  · rw [Nat.ceil_le, exchanged_input hq hleads]
    exact hcost
  · intro t ht hahead hpaid
    rw [Nat.ceil_le, exchanged_input ht hahead] at hpaid
    exact nextPriceByInput_passes hp h ht hpaid

/-- An output leads to the nearest price that covers it. -/
theorem nextPriceByOutput_nearest (h : nextPriceByOutput p liquidity amount d = .ok q) :
    0 < q ∧ d.Leads p q ∧ amount ≤ ⌊exchanged d.output liquidity p q⌋₊ ∧
      ∀ t, 0 < t → d.Leads p t → amount ≤ ⌊exchanged d.output liquidity p t⌋₊ → d.Leads q t := by
  have hp := pos_of_nextPriceByOutput h
  obtain ⟨hq, hleads, hnear⟩ := nextPriceByOutput_spec hp h
  refine ⟨hq, hleads, ?_, ?_⟩
  · rw [Nat.le_floor_iff (exchanged_nonneg _ _ _ _), exchanged_output hp hleads]
    exact (nextPriceByOutput_gives h).2
  · intro t ht hahead hcovered
    rw [Nat.le_floor_iff (exchanged_nonneg _ _ _ _), exchanged_output hp hahead] at hcovered
    exact hnear t ht hahead hcovered

/-- **Next prices are extremal.** An input moves the price to the least positive price downwards, or to
the greatest upwards, whose input amount, rounded up, it covers. An output moves it to the greatest
price downwards, or to the least upwards, whose output amount, rounded down, covers it. -/
theorem next_prices_extremal :
    (nextPriceByInput p liquidity amount .down = .ok q →
      IsLeast {n | 0 < n ∧ n ≤ p ∧ ⌈exchanged .zero liquidity p n⌉₊ ≤ amount} q) ∧
    (nextPriceByInput p liquidity amount .up = .ok q →
      IsGreatest {n | p ≤ n ∧ ⌈exchanged .one liquidity p n⌉₊ ≤ amount} q) ∧
    (nextPriceByOutput p liquidity amount .down = .ok q →
      IsGreatest {n | 0 < n ∧ n ≤ p ∧ amount ≤ ⌊exchanged .one liquidity p n⌋₊} q) ∧
    (nextPriceByOutput p liquidity amount .up = .ok q →
      IsLeast {n | p ≤ n ∧ amount ≤ ⌊exchanged .zero liquidity p n⌋₊} q) := by
  refine ⟨fun h => ?_, fun h => ?_, fun h => ?_, fun h => ?_⟩
  · obtain ⟨hq, hle, hpaid, hfar⟩ := nextPriceByInput_farthest h
    exact ⟨⟨hq, hle, hpaid⟩, fun t ⟨ht, hahead, hcost⟩ => hfar t ht hahead hcost⟩
  · have hp := pos_of_nextPriceByInput h
    obtain ⟨-, hle, hpaid, hfar⟩ := nextPriceByInput_farthest h
    exact ⟨⟨hle, hpaid⟩, fun t ⟨hahead, hcost⟩ => hfar t (hp.trans_le hahead) hahead hcost⟩
  · obtain ⟨hq, hle, hcovered, hnear⟩ := nextPriceByOutput_nearest h
    exact ⟨⟨hq, hle, hcovered⟩, fun t ⟨ht, hahead, hout⟩ => hnear t ht hahead hout⟩
  · have hp := pos_of_nextPriceByOutput h
    obtain ⟨-, hle, hcovered, hnear⟩ := nextPriceByOutput_nearest h
    exact ⟨⟨hle, hcovered⟩, fun t ⟨hahead, hout⟩ => hnear t (hp.trans_le hahead) hahead hout⟩

/-- A thousand units in and out of a liquidity of a million, from the price one. -/
theorem next_prices_extremal_at_one :
    IsLeast {n | 0 < n ∧ n ≤ 2 ^ 64 ∧ ⌈exchanged .zero 1000000 (2 ^ 64) n⌉₊ ≤ 1000}
      18428315757951600016 ∧
    IsGreatest {n | 2 ^ 64 ≤ n ∧ ⌈exchanged .one 1000000 (2 ^ 64) n⌉₊ ≤ 1000}
      18465190817783261167 ∧
    IsGreatest {n | 0 < n ∧ n ≤ 2 ^ 64 ∧ 1000 ≤ ⌊exchanged .one 1000000 (2 ^ 64) n⌋₊}
      18428297329635842064 ∧
    IsLeast {n | 2 ^ 64 ≤ n ∧ 1000 ≤ ⌊exchanged .zero 1000000 (2 ^ 64) n⌋₊}
      18465209282992544161 :=
  ⟨next_prices_extremal.1 (by decide +kernel), next_prices_extremal.2.1 (by decide +kernel),
    next_prices_extremal.2.2.1 (by decide +kernel), next_prices_extremal.2.2.2 (by decide +kernel)⟩

end Clmm
