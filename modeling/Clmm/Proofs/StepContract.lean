import Clmm.Proofs.InputReach

/-!
# Clmm.Proofs.StepContract

**What a step owes to its caller** (`compute_honours`). A step stays between its two prices, rounds both
amounts in favour of the pool, takes of the fixed amount no more than is left, and all of it if it does
not reach its target; and its fee is at least the rate's share.

The two modes meet the last parts in different ways. With a fixed input everything that was not swapped
becomes fee, so that the amount is used up by construction, and what needs an argument is the fee: the
input a price leads to is at most the budget, so the rest covers the rate's share of it. With a fixed
output the fee is right by construction, and the amount is used up because the price goes far enough.
-/

namespace Clmm.SwapStep

variable {d : Direction} {mode : SwapMode} {current target liquidity remaining rate : Nat}
  {s : SwapStep}

/-! ### A step with a fixed output -/

/-- How a step with a fixed output ends: at its target, with all that the whole way gives, or where the
amount that is left leads. -/
inductive Gives (s : SwapStep) (d : Direction) (current target liquidity remaining full : Nat) : Prop
  | arrives (hcovers : full ≤ remaining) (hprice : s.sqrtPrice = target) (hall : s.amountOut = full)
  | stops (hshort : remaining < 2 ^ 64 → remaining < full)
      (hnext : nextPriceByOutput current liquidity remaining d = .ok s.sqrtPrice)
      (hused : s.amountOut = remaining)

/-- **Everything a step with a fixed output does.** -/
theorem gives_compute (h : compute current target liquidity remaining rate .exactOut d = .ok s) :
    rate < feeDenominator ∧ d.amountIn current s.sqrtPrice liquidity = .ok s.amountIn ∧
      s.fee = divUp (s.amountIn * rate) (feeDenominator - rate) ∧
      ∃ full, d.amountOut current target liquidity = .ok full ∧
        s.Gives d current target liquidity remaining full := by
  simp only [compute, exactOut] at h
  rw [Outcome.bind_eq_ok] at h
  obtain ⟨_, hrate, h⟩ := h
  rw [require_eq_ok] at hrate
  rw [Outcome.bind_eq_ok] at h
  obtain ⟨full, hfull, h⟩ := h
  refine ⟨hrate, ?_⟩
  by_cases hreach : full < 2 ^ 64 ∧ full ≤ remaining
  · rw [if_pos hreach] at h
    simp only [Outcome.bind_eq_ok, tokenAmount_eq_ok] at h
    obtain ⟨_, hin, _, ⟨-, rfl⟩, fee, hfee, h⟩ := h
    obtain rfl := Except.ok.inj h
    exact ⟨hin, feeOn_eq_ok hfee, full, hfull, .arrives hreach.2 rfl rfl⟩
  · rw [if_neg hreach] at h
    simp only [Outcome.bind_eq_ok, tokenAmount_eq_ok] at h
    obtain ⟨next, hnext, _, hin, _, ⟨-, rfl⟩, out, hout, _, ⟨-, rfl⟩, fee, hfee, h⟩ := h
    obtain rfl := Except.ok.inj h
    -- the price goes far enough for what is left, so the cap on the output is met
    obtain ⟨hleads, hgives⟩ := nextPriceByOutput_gives hnext
    have hfar : remaining ≤ out := (le_amountOut_iff hleads hout remaining).2 hgives
    refine ⟨hin, feeOn_eq_ok hfee, full, hfull, .stops (fun hsmall => ?_) hnext
      (Nat.min_eq_right hfar)⟩
    exact Nat.not_le.1 fun hcovers => hreach ⟨by omega, hcovers⟩

/-! ### The contract -/

/-- What a step takes of the fixed amount. -/
def taken (s : SwapStep) : SwapMode → Nat
  | .exactIn => s.amountIn + s.fee
  | .exactOut => s.amountOut

theorem exhausts_iff : s.Exhausts mode remaining ↔ s.taken mode = remaining := by
  cases mode <;> rfl

/-- The step is sound, takes what it may and must of the fixed amount, and charges its fee. -/
structure Honours (s : SwapStep) (mode : SwapMode) (d : Direction)
    (current target liquidity remaining rate : Nat) : Prop
    extends Sound s d current target liquidity where
  taken_le : s.taken mode ≤ remaining
  takes_all : s.sqrtPrice ≠ target → s.taken mode = remaining
  charges : s.amountIn * rate ≤ s.fee * (feeDenominator - rate)

/-- With a fixed input, a step and its fee fit into what is left. -/
theorem taken_le_of_exactIn
    (h : compute current target liquidity remaining rate .exactIn d = .ok s) :
    s.amountIn + s.fee ≤ remaining := by
  obtain ⟨hrate, hin, -, full, hfull, hspends⟩ := spends_compute h
  cases hspends with
  | arrives hcovers hprice hfee =>
      rw [hprice, hfull] at hin
      obtain rfl := Except.ok.inj hin
      rw [hfee]
      exact (add_divUp_le_iff hrate).2 hcovers
  | stops _ _ hused => exact hused.le

/-- With a fixed input, what is kept as fee is at least the rate's share. -/
theorem charges_of_exactIn (hcurrent : 0 < current)
    (h : compute current target liquidity remaining rate .exactIn d = .ok s) :
    s.amountIn * rate ≤ s.fee * (feeDenominator - rate) := by
  obtain ⟨hrate, hin, -, full, -, hspends⟩ := spends_compute h
  have hkept : 0 < feeDenominator - rate := by omega
  rw [← divUp_le_iff hkept]
  cases hspends with
  | arrives _ _ hfee => exact hfee.ge
  | stops _ hnext hused =>
      -- the input that the budget leads to is within the budget
      obtain ⟨-, hahead, hcost⟩ := nextPriceByInput_spec hcurrent hnext
      have hfits := (amountIn_le_iff hahead hin _).2 hcost
      have := (add_divUp_le_iff hrate).2 hfits
      omega

/-- **Every step honours its contract.** Whatever its direction and mode and whether or not it reaches its
target, a step that succeeds between two prices stays between them, pays in at least and hands out at most
the exact amounts, takes of what is left no more than that, and all of it short of its target, and charges
at least the rate. -/
theorem compute_honours (hcurrent : 0 < current) (htarget : 0 < target)
    (hleads : d.Leads current target) (hremaining : remaining < 2 ^ 64)
    (h : compute current target liquidity remaining rate mode d = .ok s) :
    s.Honours mode d current target liquidity remaining rate := by
  refine ⟨sound_compute hcurrent htarget hleads hremaining h, ?_, ?_, ?_⟩
  · cases mode with
    | exactIn => exact taken_le_of_exactIn h
    | exactOut =>
        obtain ⟨-, -, -, full, -, hgives⟩ := gives_compute h
        cases hgives with
        | arrives hcovers _ hall => exact hall.trans_le hcovers
        | stops _ _ hused => exact hused.le
  · intro hne
    exact exhausts_iff.1 ((ends_compute h).resolve_left hne)
  · cases mode with
    | exactIn => exact charges_of_exactIn hcurrent h
    | exactOut =>
        obtain ⟨hrate, -, hfee, -⟩ := gives_compute h
        rw [hfee]
        exact (divUp_le_iff (by omega)).1 (Nat.le_refl _)

/-- A step up with a fixed output of 1000 that stops on its way: it hands out 1000, takes in 1001 and
keeps a fee of 3, which is a quarter of a percent rounded up. -/
theorem compute_honours_short_step :
    compute (2 ^ 64) (2 ^ 64 + 2 ^ 60) (10 ^ 9) 1000 2500 .exactOut .up =
        .ok ⟨18446762520472072089, 1001, 1000, 3⟩ ∧
      (⟨18446762520472072089, 1001, 1000, 3⟩ : SwapStep).Honours .exactOut .up (2 ^ 64)
        (2 ^ 64 + 2 ^ 60) (10 ^ 9) 1000 2500 := by
  have h : compute (2 ^ 64) (2 ^ 64 + 2 ^ 60) (10 ^ 9) 1000 2500 .exactOut .up =
      .ok ⟨18446762520472072089, 1001, 1000, 3⟩ := by decide +kernel
  have hleads : Direction.up.Leads (2 ^ 64) (2 ^ 64 + 2 ^ 60) :=
    show 2 ^ 64 ≤ 2 ^ 64 + 2 ^ 60 by decide
  exact ⟨h, compute_honours (by decide) (by decide) hleads (by decide) h⟩

end Clmm.SwapStep
