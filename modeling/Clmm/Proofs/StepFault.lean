import Clmm.Proofs.Faults
import Clmm.Proofs.StepBounds

/-!
# Clmm.Proofs.StepFault

**When a step faults** (`SwapStep.faultsIff_compute`). Of all that a step computes, two products can
leave 256 bits: liquidity times the way, of which token 0 is computed, and liquidity times the price,
of which the price after a change of token 0 is computed. Token 0 comes first in a step that pays it in
for a fixed amount, downward, and in one that pays a fixed amount of it out, upward. In the two other
kinds of step token 1 comes first, and its 128 bits keep the products small.
-/

namespace Clmm

open Outcome

variable {d : Direction} {a b p q liquidity amount n : Nat}

/-! ### Amounts -/

/-- How far two prices lie apart. -/
def gap (a b : Nat) : Nat := max a b - min a b

/-- The way to a price between is no longer. -/
theorem gap_le {target : Nat} (hab : d.Leads a b) (hbt : d.Leads b target) : gap a b ≤ gap a target := by
  simp only [gap]
  cases d with
  | down =>
      change b ≤ a at hab
      change target ≤ b at hbt
      omega
  | up =>
      change a ≤ b at hab
      change b ≤ target at hbt
      omega

theorem faultsIff_amount0 {r : Rounding} (ha : 0 < a) (hb : 0 < b) :
    FaultsIff (amount0 a b liquidity r) (2 ^ 256 ≤ liquidity * 2 ^ 64 * gap a b) := by
  have hmin : 0 < min a b := Nat.lt_min.2 ⟨ha, hb⟩
  simp only [amount0]
  refine (decides_require.bind_faultsIff (G := fun _ => 2 ^ 256 ≤ liquidity * 2 ^ 64 * gap a b)
    fun _ _ => faultsIff_within.bind_decides fun _ _ => decides_narrow).congr ?_
  constructor
  · intro h
    obtain ⟨_, -, hwide⟩ := h
    exact hwide
  · intro hwide
    exact ⟨(), require_eq_ok.2 hmin, hwide⟩

theorem decides_amount0 {r : Rounding} (h : liquidity * 2 ^ 64 * gap a b < 2 ^ 256) :
    Decides (amount0 a b liquidity r) :=
  decides_require.bind fun _ _ => (succeeds_within h).decides.bind fun _ _ => decides_narrow

theorem decides_amount1 {r : Rounding} : Decides (amount1 a b liquidity r) := decides_mulDiv

theorem amount0_eq_ok_iff {r : Rounding} (ha : 0 < a) (hb : 0 < b) :
    amount0 a b liquidity r = .ok n ↔ liquidity * 2 ^ 64 * gap a b < 2 ^ 256 ∧
      r.div (liquidity * 2 ^ 64 * gap a b) (a * b) < 2 ^ 128 ∧
      r.div (liquidity * 2 ^ 64 * gap a b) (a * b) = n := by
  have hmin : 0 < min a b := Nat.lt_min.2 ⟨ha, hb⟩
  have hmax : 0 < max a b := Nat.lt_of_lt_of_le ha (Nat.le_max_left a b)
  simp only [amount0, gap]
  simp only [bind_eq_ok, require_eq_ok, within_eq_ok, narrow_eq_ok]
  constructor
  · intro h
    obtain ⟨_, -, _, ⟨hfit, rfl⟩, hresult⟩ := h
    rw [Rounding.div_div hmin hmax, min_mul_max] at hresult
    exact ⟨hfit, hresult⟩
  · intro h
    obtain ⟨hfit, hresult⟩ := h
    refine ⟨(), hmin, _, ⟨hfit, rfl⟩, ?_⟩
    rwa [Rounding.div_div hmin hmax, min_mul_max]

/-- Where token 1 fits 128 bits, so does the product for token 0. -/
theorem product_lt_of_amount1 {r : Rounding} (h : amount1 a b liquidity r = .ok n) :
    liquidity * 2 ^ 64 * gap a b < 2 ^ 256 := by
  simp only [amount1, mulDiv] at h
  simp only [bind_eq_ok, narrow_eq_ok] at h
  obtain ⟨_, -, hlt, -⟩ := h
  change r.div (liquidity * gap a b) (2 ^ 64) < 2 ^ 128 at hlt
  have hproduct : liquidity * gap a b < 2 ^ 192 := by
    cases r with
    | down =>
        change liquidity * gap a b / 2 ^ 64 < 2 ^ 128 at hlt
        omega
    | up =>
        have := (divUp_le_iff (n := liquidity * gap a b) (d := 2 ^ 64) (k := 2 ^ 128 - 1)
          (by positivity)).1 (Nat.le_sub_one_of_lt hlt)
        omega
  rw [Nat.mul_right_comm]
  omega

theorem product_lt_of_amountIn (h : d.amountIn a b liquidity = .ok n) :
    liquidity * 2 ^ 64 * gap a b < 2 ^ 256 := by
  cases d with
  | down =>
      simp only [Direction.amountIn, amount0] at h
      simp only [bind_eq_ok, within_eq_ok] at h
      obtain ⟨_, -, _, ⟨hlt, -⟩, -⟩ := h
      exact hlt
  | up => exact product_lt_of_amount1 h

theorem product_lt_of_amountOut (h : d.amountOut a b liquidity = .ok n) :
    liquidity * 2 ^ 64 * gap a b < 2 ^ 256 := by
  cases d with
  | down => exact product_lt_of_amount1 h
  | up =>
      simp only [Direction.amountOut, amount0] at h
      simp only [bind_eq_ok, within_eq_ok] at h
      obtain ⟨_, -, _, ⟨hlt, -⟩, -⟩ := h
      exact hlt

theorem decides_amountIn (h : liquidity * 2 ^ 64 * gap a b < 2 ^ 256) :
    Decides (d.amountIn a b liquidity) := by
  cases d with
  | down => exact decides_amount0 h
  | up => exact decides_amount1

theorem decides_amountOut (h : liquidity * 2 ^ 64 * gap a b < 2 ^ 256) :
    Decides (d.amountOut a b liquidity) := by
  cases d with
  | down => exact decides_amount1
  | up => exact decides_amount0 h

theorem decides_tokenAmount : Decides (tokenAmount n) := decides_narrow

/-! ### Next prices -/

/-- Once the denominator is there, the scaled price may not fit. -/
theorem faultsIff_scaled {denominator : Nat} (hpos : 0 < denominator) :
    FaultsIff (do
      let scaled ← within 256 (liquidity * 2 ^ 64 * p)
      guardFault (denominator ≠ 0)
      narrow 128 (divUp scaled denominator) .mathOverflow) (2 ^ 256 ≤ liquidity * 2 ^ 64 * p) :=
  faultsIff_within.bind_decides fun _ _ =>
    (decides_guardFault hpos.ne').bind fun _ _ => decides_narrow

theorem faultsIff_nextPriceBy0_add (hliquidity : 0 < liquidity) :
    FaultsIff (nextPriceBy0 p liquidity amount .add)
      (amount ≠ 0 ∧ 2 ^ 256 ≤ liquidity * 2 ^ 64 * p) := by
  simp only [nextPriceBy0]
  by_cases hzero : amount = 0
  · rw [if_pos hzero]
    exact (decides_pure p).faultsIff.congr ⟨False.elim, fun h => h.1 hzero⟩
  · rw [if_neg hzero, pure_bind]
    have hpos : 0 < liquidity * 2 ^ 64 + amount * p := by omega
    exact (faultsIff_scaled hpos).congr ⟨fun h => ⟨hzero, h⟩, And.right⟩

theorem faultsIff_nextPriceBy0_remove :
    FaultsIff (nextPriceBy0 p liquidity amount .remove)
      (amount ≠ 0 ∧ amount * p < liquidity * 2 ^ 64 ∧ 2 ^ 256 ≤ liquidity * 2 ^ 64 * p) := by
  simp only [nextPriceBy0]
  by_cases hzero : amount = 0
  · rw [if_pos hzero]
    exact (decides_pure p).faultsIff.congr ⟨False.elim, fun h => h.1 hzero⟩
  · rw [if_neg hzero]
    refine (decides_require.bind_faultsIff (G := fun _ => 2 ^ 256 ≤ liquidity * 2 ^ 64 * p)
      fun _ hlt => ?_).congr ?_
    · rw [pure_bind]
      exact faultsIff_scaled (Nat.sub_pos_of_lt (require_eq_ok.1 hlt))
    · constructor
      · intro h
        obtain ⟨_, hlt, hwide⟩ := h
        exact ⟨hzero, require_eq_ok.1 hlt, hwide⟩
      · intro h
        obtain ⟨-, hlt, hwide⟩ := h
        exact ⟨(), require_eq_ok.2 hlt, hwide⟩

theorem decides_nextPriceBy1 {flow : Flow} (hliquidity : 0 < liquidity) :
    Decides (nextPriceBy1 p liquidity amount flow) := by
  refine .ite (fun _ => decides_pure p) fun _ => (decides_guardFault hliquidity.ne').bind fun _ _ => ?_
  cases flow with
  | add => exact decides_narrow.bind fun _ _ => decides_narrow
  | remove => exact decides_narrow.bind fun _ _ => decides_require.bind fun _ _ => decides_pure _

theorem pos_of_wide (h : 2 ^ 256 ≤ liquidity * 2 ^ 64 * p) : 0 < liquidity := by
  apply Nat.pos_of_ne_zero
  intro hzero
  rw [hzero, Nat.zero_mul, Nat.zero_mul] at h
  exact absurd h (by decide)

/-- Liquidity that makes the product wide is worth more of token 0 than any amount. -/
theorem mul_lt_of_wide (hp : p < 2 ^ 96) (hamount : amount < 2 ^ 64)
    (h : 2 ^ 256 ≤ liquidity * 2 ^ 64 * p) : amount * p < liquidity * 2 ^ 64 := by
  by_contra hle
  have hsquare : amount * p * p < 2 ^ 256 := by
    calc amount * p * p ≤ amount * p * 2 ^ 96 := Nat.mul_le_mul_left _ hp.le
      _ ≤ amount * 2 ^ 96 * 2 ^ 96 := Nat.mul_le_mul_right _ (Nat.mul_le_mul_left _ hp.le)
      _ < 2 ^ 256 := by omega
  have := Nat.mul_le_mul_right p (Nat.not_lt.1 hle)
  omega

theorem faultsIff_nextPriceByInput (hp : 0 < p) :
    FaultsIff (nextPriceByInput p liquidity amount d)
      (d = .down ∧ amount ≠ 0 ∧ 2 ^ 256 ≤ liquidity * 2 ^ 64 * p) := by
  simp only [nextPriceByInput]
  refine (decides_require.bind_faultsIff fun _ _ => decides_require.bind_faultsIff
    (G := fun _ => d = .down ∧ amount ≠ 0 ∧ 2 ^ 256 ≤ liquidity * 2 ^ 64 * p)
    fun _ hliquidity => ?_).congr ?_
  · rw [require_eq_ok] at hliquidity
    cases d with
    | down => exact (faultsIff_nextPriceBy0_add hliquidity).congr ⟨fun h => ⟨rfl, h⟩, And.right⟩
    | up => exact (decides_nextPriceBy1 hliquidity).faultsIff.congr ⟨False.elim, fun h => by cases h.1⟩
  · constructor
    · intro h
      obtain ⟨_, -, _, -, h⟩ := h
      exact h
    · intro h
      exact ⟨(), require_eq_ok.2 hp, (), require_eq_ok.2 (pos_of_wide h.2.2), h⟩

theorem faultsIff_nextPriceByOutput (hp : 0 < p) :
    FaultsIff (nextPriceByOutput p liquidity amount d)
      (d = .up ∧ amount ≠ 0 ∧ amount * p < liquidity * 2 ^ 64 ∧
        2 ^ 256 ≤ liquidity * 2 ^ 64 * p) := by
  simp only [nextPriceByOutput]
  refine (decides_require.bind_faultsIff fun _ _ => decides_require.bind_faultsIff
    (G := fun _ => d = .up ∧ amount ≠ 0 ∧ amount * p < liquidity * 2 ^ 64 ∧
      2 ^ 256 ≤ liquidity * 2 ^ 64 * p) fun _ hliquidity => ?_).congr ?_
  · rw [require_eq_ok] at hliquidity
    cases d with
    | down => exact (decides_nextPriceBy1 hliquidity).faultsIff.congr ⟨False.elim, fun h => by cases h.1⟩
    | up => exact faultsIff_nextPriceBy0_remove.congr ⟨fun h => ⟨rfl, h⟩, And.right⟩
  · constructor
    · intro h
      obtain ⟨_, -, _, -, h⟩ := h
      exact h
    · intro h
      exact ⟨(), require_eq_ok.2 hp, (), require_eq_ok.2 (pos_of_wide h.2.2.2), h⟩

/-! ### The step -/

namespace SwapStep

/-- A product of the step leaves 256 bits: the one for the whole way, or the one for the price to which
the amount leads, which is asked for when the amount does not cover the way. -/
def Overflows (current target liquidity remaining rate : Nat) (mode : SwapMode) (d : Direction) :
    Prop :=
  match mode, d with
  | .exactIn, .down =>
    let way := liquidity * 2 ^ 64 * (current - target)
    let cost := divUp way (current * target)
    let budget := remaining * (feeDenominator - rate) / feeDenominator
    2 ^ 256 ≤ way ∨
      2 ^ 256 ≤ liquidity * 2 ^ 64 * current ∧ budget ≠ 0 ∧ budget < cost ∧ cost < 2 ^ 128
  | .exactOut, .up =>
    let way := liquidity * 2 ^ 64 * (target - current)
    let yield := way / (current * target)
    2 ^ 256 ≤ way ∨ 2 ^ 256 ≤ liquidity * 2 ^ 64 * current ∧ remaining < yield ∧ yield < 2 ^ 128
  | _, _ => False

variable {current target remaining rate : Nat}

theorem faultsIff_amountIn (ha : 0 < a) (hb : 0 < b) : FaultsIff (d.amountIn a b liquidity)
    (d = .down ∧ 2 ^ 256 ≤ liquidity * 2 ^ 64 * gap a b) := by
  cases d with
  | down => exact (faultsIff_amount0 ha hb).congr ⟨fun h => ⟨rfl, h⟩, And.right⟩
  | up => exact decides_amount1.faultsIff.congr ⟨False.elim, fun h => by cases h.1⟩

theorem faultsIff_amountOut (ha : 0 < a) (hb : 0 < b) : FaultsIff (d.amountOut a b liquidity)
    (d = .up ∧ 2 ^ 256 ≤ liquidity * 2 ^ 64 * gap a b) := by
  cases d with
  | down => exact decides_amount1.faultsIff.congr ⟨False.elim, fun h => by cases h.1⟩
  | up => exact (faultsIff_amount0 ha hb).congr ⟨fun h => ⟨rfl, h⟩, And.right⟩

theorem decides_feeOn : Decides (feeOn amount rate) :=
  decides_mulDiv.bind fun _ _ => decides_tokenAmount

/-- A move within a way whose product fits. -/
theorem product_lt_of_leads (hab : d.Leads a b) (hbt : d.Leads b target)
    (h : liquidity * 2 ^ 64 * gap a target < 2 ^ 256) : liquidity * 2 ^ 64 * gap a b < 2 ^ 256 :=
  Nat.lt_of_le_of_lt (Nat.mul_le_mul_left _ (gap_le hab hbt)) h

/-- A step with a fixed input, once the input for the whole way is known. -/
theorem faultsIff_exactIn_of_full {budget full : Nat} (hcurrent : 0 < current)
    (hleads : d.Leads current target) (hbudget : budget < 2 ^ 64)
    (hfull : d.amountIn current target liquidity = .ok full) :
    FaultsIff (if full < 2 ^ 64 ∧ full ≤ budget then do
        let out ← tokenAmount (← d.amountOut current target liquidity)
        return (⟨target, full, out, ← feeOn full rate⟩ : SwapStep)
      else do
        let next ← nextPriceByInput current liquidity budget d
        let input ← tokenAmount (← d.amountIn current next liquidity)
        let out ← tokenAmount (← d.amountOut current next liquidity)
        return ⟨next, input, out, ← subOrRefuse remaining input .mathOverflow⟩)
      (budget < full ∧ d = .down ∧ budget ≠ 0 ∧ 2 ^ 256 ≤ liquidity * 2 ^ 64 * current) := by
  have hproduct := product_lt_of_amountIn hfull
  have hcovers : ¬ (full < 2 ^ 64 ∧ full ≤ budget) ↔ budget < full := by omega
  refine (FaultsIff.ite (fun _ => Decides.faultsIff ?_) fun hnot => FaultsIff.bind_decides
    (faultsIff_nextPriceByInput hcurrent) fun next hnext => ?_).congr ?_
  · exact (decides_amountOut hproduct).bind fun _ _ => decides_tokenAmount.bind fun _ _ =>
      decides_feeOn.bind fun _ _ => decides_pure _
  · obtain ⟨-, hahead, -⟩ := nextPriceByInput_spec hcurrent hnext
    have hstays := nextPriceByInput_leads hcurrent hleads hfull (hcovers.1 hnot) hnext
    have hpart := product_lt_of_leads hahead hstays hproduct
    exact (decides_amountIn hpart).bind fun _ _ => decides_tokenAmount.bind fun _ _ =>
      (decides_amountOut hpart).bind fun _ _ => decides_tokenAmount.bind fun _ _ =>
        decides_subOrRefuse.bind fun _ _ => decides_pure _
  · rw [hcovers]
    constructor
    · intro h
      exact (h.resolve_left fun hleft => hleft.2)
    · exact Or.inr

theorem faultsIff_exactIn (hcurrent : 0 < current) (htarget : 0 < target)
    (hleads : d.Leads current target) (hremaining : remaining < 2 ^ 64) :
    FaultsIff (exactIn current target liquidity remaining rate d)
      (Overflows current target liquidity remaining rate .exactIn d) := by
  have hsome : Succeeds (mulDiv .down remaining (feeDenominator - rate) feeDenominator) := by
    apply succeeds_mulDiv (by decide)
    change remaining * (feeDenominator - rate) / feeDenominator < 2 ^ 128
    have hle : remaining * (feeDenominator - rate) / feeDenominator ≤ remaining := by
      apply Nat.div_le_of_le_mul
      rw [Nat.mul_comm feeDenominator]
      exact Nat.mul_le_mul_left _ (Nat.sub_le _ _)
    omega
  obtain ⟨budget, hbudget⟩ := hsome
  have hle := budget_le hbudget
  simp only [exactIn]
  rw [hbudget, ok_bind]
  refine ((faultsIff_amountIn hcurrent htarget).bind fun full hfull =>
    faultsIff_exactIn_of_full hcurrent hleads (by omega) hfull).congr ?_
  obtain ⟨-, rfl⟩ := mulDiv_eq_ok hbudget
  cases d with
  | up => simp [Overflows]
  | down =>
      have hgap : gap current target = current - target := by
        change target ≤ current at hleads
        simp only [gap]
        omega
      simp only [Overflows, Direction.amountIn, amount0_eq_ok_iff hcurrent htarget]
      rw [hgap]
      change _ ∨ (∃ full, (_ ∧ divUp _ _ < 2 ^ 128 ∧ divUp _ _ = full) ∧ _ < full ∧ _) ↔ _
      constructor
      · intro h
        rcases h with ⟨-, hway⟩ | ⟨full, ⟨-, hfits, rfl⟩, hlt, -, hne, hwide⟩
        · exact Or.inl hway
        · exact Or.inr ⟨hwide, hne, hlt, hfits⟩
      · intro h
        by_cases hway : 2 ^ 256 ≤ liquidity * 2 ^ 64 * (current - target)
        · exact Or.inl ⟨trivial, hway⟩
        · obtain ⟨hwide, hne, hlt, hfits⟩ := h.resolve_left hway
          exact Or.inr ⟨_, ⟨Nat.not_le.1 hway, hfits, rfl⟩, hlt, trivial, hne, hwide⟩

/-- A step with a fixed output, once the output of the whole way is known. -/
theorem faultsIff_exactOut_of_full {full : Nat} (hcurrent : 0 < current)
    (hsmall : d = .up → current < 2 ^ 96) (htarget : 0 < target) (hleads : d.Leads current target)
    (hpos : 0 < remaining) (hremaining : remaining < 2 ^ 64)
    (hfull : d.amountOut current target liquidity = .ok full) :
    FaultsIff (if full < 2 ^ 64 ∧ full ≤ remaining then do
        let input ← tokenAmount (← d.amountIn current target liquidity)
        return (⟨target, input, full, ← feeOn input rate⟩ : SwapStep)
      else do
        let next ← nextPriceByOutput current liquidity remaining d
        let input ← tokenAmount (← d.amountIn current next liquidity)
        let out ← tokenAmount (← d.amountOut current next liquidity)
        return ⟨next, input, min out remaining, ← feeOn input rate⟩)
      (remaining < full ∧ d = .up ∧ 2 ^ 256 ≤ liquidity * 2 ^ 64 * current) := by
  have hproduct := product_lt_of_amountOut hfull
  have hcovers : ¬ (full < 2 ^ 64 ∧ full ≤ remaining) ↔ remaining < full := by omega
  refine (FaultsIff.ite (fun _ => Decides.faultsIff ?_) fun hnot => FaultsIff.bind_decides
    (faultsIff_nextPriceByOutput hcurrent) fun next hnext => ?_).congr ?_
  · exact (decides_amountIn hproduct).bind fun _ _ => decides_tokenAmount.bind fun _ _ =>
      decides_feeOn.bind fun _ _ => decides_pure _
  · obtain ⟨-, hahead, -⟩ := nextPriceByOutput_spec hcurrent hnext
    have hstays := nextPriceByOutput_leads hcurrent htarget hleads hfull (hcovers.1 hnot).le hnext
    have hpart := product_lt_of_leads hahead hstays hproduct
    exact (decides_amountIn hpart).bind fun _ _ => decides_tokenAmount.bind fun _ _ =>
      (decides_amountOut hpart).bind fun _ _ => decides_tokenAmount.bind fun _ _ =>
        decides_feeOn.bind fun _ _ => decides_pure _
  · rw [hcovers]
    constructor
    · intro h
      rcases h with ⟨-, hfalse⟩ | ⟨hlt, hd, -, -, hwide⟩
      · exact hfalse.elim
      · exact ⟨hlt, hd, hwide⟩
    · intro h
      obtain ⟨hlt, hd, hwide⟩ := h
      exact Or.inr ⟨hlt, hd, hpos.ne', mul_lt_of_wide (hsmall hd) hremaining hwide, hwide⟩

theorem faultsIff_exactOut (hcurrent : 0 < current) (hsmall : d = .up → current < 2 ^ 96)
    (htarget : 0 < target) (hleads : d.Leads current target) (hpos : 0 < remaining)
    (hremaining : remaining < 2 ^ 64) :
    FaultsIff (exactOut current target liquidity remaining rate d)
      (Overflows current target liquidity remaining rate .exactOut d) := by
  simp only [exactOut]
  refine ((faultsIff_amountOut hcurrent htarget).bind fun full hfull =>
    faultsIff_exactOut_of_full hcurrent hsmall htarget hleads hpos hremaining hfull).congr ?_
  cases d with
  | down => simp [Overflows]
  | up =>
      have hgap : gap current target = target - current := by
        change current ≤ target at hleads
        simp only [gap]
        omega
      simp only [Overflows, Direction.amountOut, amount0_eq_ok_iff hcurrent htarget]
      rw [hgap]
      change _ ∨ (∃ full, (_ ∧ _ / _ < 2 ^ 128 ∧ _ / _ = full) ∧ _ < full ∧ _) ↔ _
      constructor
      · intro h
        rcases h with ⟨-, hway⟩ | ⟨full, ⟨-, hfits, rfl⟩, hlt, -, hwide⟩
        · exact Or.inl hway
        · exact Or.inr ⟨hwide, hlt, hfits⟩
      · intro h
        by_cases hway : 2 ^ 256 ≤ liquidity * 2 ^ 64 * (target - current)
        · exact Or.inl ⟨trivial, hway⟩
        · obtain ⟨hwide, hlt, hfits⟩ := h.resolve_left hway
          exact Or.inr ⟨_, ⟨Nat.not_le.1 hway, hfits, rfl⟩, hlt, trivial, hwide⟩

/-- **When a step faults.** -/
theorem faultsIff_compute {mode : SwapMode} (hcurrent : 0 < current)
    (hsmall : d = .up → current < 2 ^ 96) (htarget : 0 < target) (hleads : d.Leads current target)
    (hpos : 0 < remaining) (hremaining : remaining < 2 ^ 64) (hrate : rate < feeDenominator) :
    FaultsIff (compute current target liquidity remaining rate mode d)
      (Overflows current target liquidity remaining rate mode d) := by
  simp only [compute]
  refine (decides_require.bind_faultsIff
    (G := fun _ => Overflows current target liquidity remaining rate mode d) fun _ _ => ?_).congr ?_
  · cases mode with
    | exactIn => exact faultsIff_exactIn hcurrent htarget hleads hremaining
    | exactOut => exact faultsIff_exactOut hcurrent hsmall htarget hleads hpos hremaining
  · constructor
    · intro h
      obtain ⟨_, -, h⟩ := h
      exact h
    · intro h
      exact ⟨(), require_eq_ok.2 hrate, h⟩

/-- A step whose liquidity and prices stay below a common bound does not overflow. -/
theorem not_overflows {mode : SwapMode} (hcurrent : liquidity * current < 2 ^ 192)
    (htarget : liquidity * target < 2 ^ 192) :
    ¬ Overflows current target liquidity remaining rate mode d := by
  have hwide : liquidity * 2 ^ 64 * current < 2 ^ 256 := by
    rw [Nat.mul_right_comm]
    omega
  have hdown : liquidity * 2 ^ 64 * (current - target) < 2 ^ 256 :=
    Nat.lt_of_le_of_lt (Nat.mul_le_mul_left _ (Nat.sub_le _ _)) hwide
  have hup : liquidity * 2 ^ 64 * (target - current) < 2 ^ 256 := by
    apply Nat.lt_of_le_of_lt (Nat.mul_le_mul_left _ (Nat.sub_le _ _))
    rw [Nat.mul_right_comm]
    omega
  intro h
  cases mode <;> cases d <;> simp only [Overflows] at h <;> omega

end SwapStep

end Clmm
