import Clmm.Proofs.StepBounds

/-!
# Clmm.Proofs.InputReach

**How far an input leads.** The fee is rounded up on top of what a step takes in, and what is left of an
amount without the fee, its budget, is rounded down. The two roundings fit: an input and its fee together
are at most an amount exactly if the input is at most its budget (`add_divUp_le_iff`).

So a step with a fixed input ends at its target for any amount whose budget covers the way, takes no more
than that amount (`arrives_compute`), and in any case goes as far as its budget covers
(`passes_compute`). What it takes in and keeps as fee always covers the way it went (`paid_compute`).
-/

namespace Clmm

variable {d : Direction} {p q t liquidity amount n rate a b : Nat}

/-! ### Budgets -/

/-- What is left of an amount without the fee. -/
def budget (rate amount : Nat) : Nat := amount * (feeDenominator - rate) / feeDenominator

@[simp] theorem budget_zero (rate : Nat) : budget rate 0 = 0 := by
  simp [budget]

theorem budget_mono (rate : Nat) (h : a ≤ b) : budget rate a ≤ budget rate b :=
  Nat.div_le_div_right (Nat.mul_le_mul_right _ h)

/-- Splitting an amount does not raise its budget. -/
theorem budget_add_le (rate a b : Nat) : budget rate a + budget rate b ≤ budget rate (a + b) := by
  simp only [budget]
  rw [Nat.add_mul]
  exact Nat.div_add_div_le_add_div

/-- **An input and its fee fit into an amount exactly if the input fits into its budget.** -/
theorem add_divUp_le_iff (hrate : rate < feeDenominator) :
    a + divUp (a * rate) (feeDenominator - rate) ≤ n ↔ a ≤ budget rate n := by
  have hkept : 0 < feeDenominator - rate := by omega
  have hwhole : (feeDenominator - rate) + rate = feeDenominator := by omega
  simp only [budget]
  rw [Nat.le_div_iff_mul_le (by decide)]
  generalize feeDenominator - rate = kept at *
  rw [← hwhole, Nat.mul_add]
  constructor
  · intro h
    have hfee : divUp (a * rate) kept ≤ n - a := by omega
    rw [divUp_le_iff hkept] at hfee
    calc a * kept + a * rate ≤ a * kept + (n - a) * kept := Nat.add_le_add_left hfee _
      _ = n * kept := by rw [← Nat.add_mul, Nat.add_sub_cancel' (by omega)]
  · intro h
    have hle : a ≤ n := by
      by_contra hlt
      have := Nat.mul_lt_mul_of_pos_right (Nat.not_le.1 hlt) hkept
      omega
    have hfee : divUp (a * rate) kept ≤ n - a := by
      rw [divUp_le_iff hkept, Nat.sub_mul]
      omega
    omega

/-! ### The price an input leads to -/

/-- Token 0 paid in moves the price as far down as it covers. -/
theorem nextPriceBy0_add_passes (hp : 0 < p) (hliquidity : 0 < liquidity)
    (h : nextPriceBy0 p liquidity amount .add = .ok q) (ht : 0 < t)
    (hcost : (liquidity : ℚ) * (2 ^ 64 / t - 2 ^ 64 / p) ≤ amount) : q ≤ t := by
  have hp' : (0 : ℚ) < p := by exact_mod_cast hp
  have ht' : (0 : ℚ) < t := by exact_mod_cast ht
  have heq : (liquidity : ℚ) * (2 ^ 64 / t - 2 ^ 64 / p) =
      (liquidity * 2 ^ 64 * p - liquidity * 2 ^ 64 * t) / (t * p) := by
    field_simp
  rw [heq, div_le_iff₀ (mul_pos ht' hp')] at hcost
  have hmul : liquidity * 2 ^ 64 * p ≤ t * (liquidity * 2 ^ 64 + amount * p) := by
    have hcast : (liquidity : ℚ) * 2 ^ 64 * p ≤ t * (liquidity * 2 ^ 64 + amount * p) := by linarith
    exact_mod_cast hcast
  rcases nextPriceBy0_eq_ok h with ⟨rfl, rfl⟩ | ⟨-, denominator, hden, rfl, hsum⟩
  · -- nothing was paid, so the way costs nothing
    rw [Nat.zero_mul, Nat.add_zero, Nat.mul_comm] at hmul
    exact Nat.le_of_mul_le_mul_right hmul (by positivity)
  · change denominator = liquidity * 2 ^ 64 + amount * p at hsum
    rw [divUp_le_iff hden, hsum]
    exact hmul

/-- Token 1 paid in moves the price as far up as it covers. -/
theorem nextPriceBy1_add_passes (hliquidity : 0 < liquidity)
    (h : nextPriceBy1 p liquidity amount .add = .ok q)
    (hcost : (liquidity : ℚ) * (t / 2 ^ 64 - p / 2 ^ 64) ≤ amount) : t ≤ q := by
  rcases Nat.le_total t p with hback | hpt
  · -- a price behind is passed anyway
    exact hback.trans (nextPriceBy1_add_spec h).1
  have heq : (liquidity : ℚ) * (t / 2 ^ 64 - p / 2 ^ 64) = (t - p) * liquidity / 2 ^ 64 := by ring
  rw [heq, div_le_iff₀ (by positivity)] at hcost
  have hmul : (t - p) * liquidity ≤ amount * 2 ^ 64 := by
    have hway : ((t - p : Nat) : ℚ) = t - p := Nat.cast_sub hpt
    rw [← hway] at hcost
    exact_mod_cast hcost
  rcases nextPriceBy1_eq_ok h with ⟨rfl, rfl⟩ | ⟨-, -, hq⟩
  · rw [Nat.zero_mul] at hmul
    have := Nat.le_of_mul_le_mul_right (hmul.trans (Nat.zero_le (0 * liquidity))) hliquidity
    omega
  · change q = p + amount * 2 ^ 64 / liquidity at hq
    have := (Nat.le_div_iff_mul_le hliquidity).2 hmul
    omega

/-- **An input moves the price as far as it covers.** -/
theorem nextPriceByInput_passes (hp : 0 < p) (h : nextPriceByInput p liquidity amount d = .ok q)
    (ht : 0 < t)
    (hcost : (liquidity : ℚ) * (holding d.input t - holding d.input p) ≤ amount) : d.Leads t q := by
  simp only [nextPriceByInput] at h
  rw [Outcome.bind_eq_ok] at h
  obtain ⟨_, -, h⟩ := h
  rw [Outcome.bind_eq_ok] at h
  obtain ⟨_, hliquidity, h⟩ := h
  rw [require_eq_ok] at hliquidity
  cases d with
  | down => exact nextPriceBy0_add_passes hp hliquidity h ht hcost
  | up => exact nextPriceBy1_add_passes hliquidity h hcost

/-! ### The step -/

namespace SwapStep

variable {current target remaining : Nat} {s : SwapStep}

theorem feeOn_eq_ok {fee : Nat} (h : feeOn n rate = .ok fee) :
    fee = divUp (n * rate) (feeDenominator - rate) := by
  simp only [feeOn] at h
  rw [Outcome.bind_eq_ok] at h
  obtain ⟨_, hfee, h⟩ := h
  rw [tokenAmount_eq_ok] at h
  obtain ⟨-, rfl⟩ := h
  exact (mulDiv_eq_ok hfee).2.symm

/-- How a step with a fixed input ends: at its target, with the fee on top of what the whole way costs, or
where its budget leads, with the rest kept as fee. -/
inductive Spends (s : SwapStep) (d : Direction) (current target liquidity remaining rate full : Nat) :
    Prop
  | arrives (hcovers : full ≤ budget rate remaining) (hprice : s.sqrtPrice = target)
      (hfee : s.fee = divUp (s.amountIn * rate) (feeDenominator - rate))
  | stops (hshort : remaining < 2 ^ 64 → budget rate remaining < full)
      (hnext : nextPriceByInput current liquidity (budget rate remaining) d = .ok s.sqrtPrice)
      (hused : s.amountIn + s.fee = remaining)

/-- **Everything a step with a fixed input does.** -/
theorem spends_compute (h : compute current target liquidity remaining rate .exactIn d = .ok s) :
    rate < feeDenominator ∧ d.amountIn current s.sqrtPrice liquidity = .ok s.amountIn ∧
      d.amountOut current s.sqrtPrice liquidity = .ok s.amountOut ∧
      ∃ full, d.amountIn current target liquidity = .ok full ∧
        s.Spends d current target liquidity remaining rate full := by
  simp only [compute, exactIn] at h
  rw [Outcome.bind_eq_ok] at h
  obtain ⟨_, hrate, h⟩ := h
  rw [require_eq_ok] at hrate
  rw [Outcome.bind_eq_ok] at h
  obtain ⟨_, hbudget, h⟩ := h
  have hle := budget_le hbudget
  obtain rfl : budget rate remaining = _ := (mulDiv_eq_ok hbudget).2
  rw [Outcome.bind_eq_ok] at h
  obtain ⟨full, hfull, h⟩ := h
  refine ⟨hrate, ?_⟩
  by_cases hreach : full < 2 ^ 64 ∧ full ≤ budget rate remaining
  · rw [if_pos hreach] at h
    simp only [Outcome.bind_eq_ok, tokenAmount_eq_ok] at h
    obtain ⟨_, hout, _, ⟨-, rfl⟩, fee, hfee, h⟩ := h
    obtain rfl := Except.ok.inj h
    exact ⟨hfull, hout, full, hfull, .arrives hreach.2 rfl (feeOn_eq_ok hfee)⟩
  · rw [if_neg hreach] at h
    simp only [Outcome.bind_eq_ok, tokenAmount_eq_ok, subOrRefuse_eq_ok] at h
    obtain ⟨next, hnext, _, hin, _, ⟨-, rfl⟩, _, hout, _, ⟨-, rfl⟩, fee, ⟨hused, rfl⟩, h⟩ := h
    obtain rfl := Except.ok.inj h
    refine ⟨hin, hout, full, hfull, .stops (fun hsmall => ?_) hnext (Nat.add_sub_cancel' hused)⟩
    exact Nat.not_le.1 fun hcovers => hreach ⟨by omega, hcovers⟩

/-- **What a step takes covers its way.** -/
theorem paid_compute (hcurrent : 0 < current) (hahead : d.Leads current s.sqrtPrice)
    (h : compute current target liquidity remaining rate .exactIn d = .ok s) :
    (liquidity : ℚ) * (holding d.input s.sqrtPrice - holding d.input current) ≤
      budget rate (s.amountIn + s.fee) := by
  obtain ⟨hrate, hin, -, full, hfull, hspends⟩ := spends_compute h
  cases hspends with
  | arrives _ hprice hfee =>
      have hfits : s.amountIn ≤ budget rate (s.amountIn + s.fee) :=
        (add_divUp_le_iff hrate).1 (by rw [hfee])
      exact (amountIn_le_iff hahead hin _).1 hfits
  | stops _ hnext hused =>
      rw [hused]
      exact (nextPriceByInput_spec hcurrent hnext).2.2

/-- **A step ends at its target for any amount that covers the way**, and takes no more than it. -/
theorem arrives_compute (hleads : d.Leads current target) (hremaining : remaining < 2 ^ 64)
    (h : compute current target liquidity remaining rate .exactIn d = .ok s) (hle : n ≤ remaining)
    (hcost : (liquidity : ℚ) * (holding d.input target - holding d.input current) ≤ budget rate n) :
    s.sqrtPrice = target ∧ s.amountIn + s.fee ≤ n := by
  obtain ⟨hrate, hin, -, full, hfull, hspends⟩ := spends_compute h
  have hfits : full ≤ budget rate n := (amountIn_le_iff hleads hfull _).2 hcost
  cases hspends with
  | arrives _ hprice hfee =>
      rw [hprice, hfull] at hin
      obtain rfl := Except.ok.inj hin
      rw [hfee]
      exact ⟨hprice, (add_divUp_le_iff hrate).2 hfits⟩
  | stops hshort =>
      have := budget_mono rate hle
      have := hshort hremaining
      omega

/-- **A step goes as far as what is left covers.** -/
theorem passes_compute (hcurrent : 0 < current)
    (h : compute current target liquidity remaining rate .exactIn d = .ok s) (hq : 0 < q)
    (hq' : d.Leads q target)
    (hcost : (liquidity : ℚ) * (holding d.input q - holding d.input current) ≤
      budget rate remaining) : d.Leads q s.sqrtPrice := by
  obtain ⟨-, -, -, full, hfull, hspends⟩ := spends_compute h
  cases hspends with
  | arrives _ hprice => exact hprice ▸ hq'
  | stops _ hnext => exact nextPriceByInput_passes hcurrent hnext hq hcost

end SwapStep

end Clmm
