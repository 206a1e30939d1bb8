import Clmm.Proofs.ExactAmount
import Clmm.SwapStep

/-!
# Clmm.Proofs.StepBounds

**A step never pays for more than it moves.** Whatever its mode and direction and however it ends, a
step from `current` towards `target` stays between the two prices, takes in at least what the holding
of the input token rises by and hands out at most what the holding of the output token falls by
(`SwapStep.sound_compute`).

A step that reaches its target is sound by the roundings alone. For one that does not, the amount
left is less than the whole way costs, and the price an amount leads to is rounded against the trader:
so that price cannot lie past the target. Such a step uses up all that was left (`ends_compute`).
-/

namespace Clmm

variable {d : Direction} {p q liquidity amount n : Nat}

/-! ### Where an amount moves the price -/

theorem nextPriceBy0_eq_ok {flow : Flow} (h : nextPriceBy0 p liquidity amount flow = .ok q) :
    amount = 0 ∧ q = p ∨ 0 < amount ∧ ∃ denominator, 0 < denominator ∧
      divUp (liquidity * 2 ^ 64 * p) denominator = q ∧
      match flow with
      | .add => denominator = liquidity * 2 ^ 64 + amount * p
      | .remove => denominator + amount * p = liquidity * 2 ^ 64 := by
  simp only [nextPriceBy0] at h
  by_cases hzero : amount = 0
  · rw [if_pos hzero] at h
    exact Or.inl ⟨hzero, (Except.ok.inj h).symm⟩
  · rw [if_neg hzero] at h
    refine Or.inr ⟨Nat.pos_of_ne_zero hzero, ?_⟩
    cases flow with
    | add =>
        simp only [Outcome.bind_eq_ok, within_eq_ok, guardFault_eq_ok, narrow_eq_ok] at h
        obtain ⟨_, hden, _, ⟨-, rfl⟩, _, hne, -, hq⟩ := h
        obtain rfl := Except.ok.inj hden
        exact ⟨_, Nat.pos_of_ne_zero hne, hq, rfl⟩
    | remove =>
        simp only [Outcome.bind_eq_ok, within_eq_ok, guardFault_eq_ok, narrow_eq_ok,
          require_eq_ok] at h
        obtain ⟨_, hlt, _, hden, _, ⟨-, rfl⟩, _, hne, -, hq⟩ := h
        obtain rfl := Except.ok.inj hden
        exact ⟨_, Nat.pos_of_ne_zero hne, hq, Nat.sub_add_cancel hlt.le⟩

theorem nextPriceBy1_eq_ok {flow : Flow} (h : nextPriceBy1 p liquidity amount flow = .ok q) :
    amount = 0 ∧ q = p ∨ 0 < amount ∧ 0 < liquidity ∧
      match flow with
      | .add => q = p + amount * 2 ^ 64 / liquidity
      | .remove => q + divUp (amount * 2 ^ 64) liquidity = p ∧ 0 < q := by
  simp only [nextPriceBy1] at h
  by_cases hzero : amount = 0
  · rw [if_pos hzero] at h
    exact Or.inl ⟨hzero, (Except.ok.inj h).symm⟩
  · rw [if_neg hzero, Outcome.bind_eq_ok] at h
    obtain ⟨_, hne, h⟩ := h
    rw [guardFault_eq_ok] at hne
    refine Or.inr ⟨Nat.pos_of_ne_zero hzero, Nat.pos_of_ne_zero hne, ?_⟩
    cases flow with
    | add =>
        simp only [Outcome.bind_eq_ok, narrow_eq_ok] at h
        obtain ⟨_, ⟨-, rfl⟩, -, rfl⟩ := h
        rfl
    | remove =>
        simp only [Outcome.bind_eq_ok, narrow_eq_ok, require_eq_ok] at h
        obtain ⟨_, ⟨-, rfl⟩, _, hlt, h⟩ := h
        have := Except.ok.inj h
        change q + _ = p ∧ 0 < q
        omega

/-- Token 0 paid in moves the price down, and what the liquidity holds of it rises by no more than was
paid: the price is rounded up. -/
theorem nextPriceBy0_add_spec (hp : 0 < p) (hliquidity : 0 < liquidity)
    (h : nextPriceBy0 p liquidity amount .add = .ok q) :
    0 < q ∧ q ≤ p ∧ (liquidity : ℚ) * (2 ^ 64 / q - 2 ^ 64 / p) ≤ amount := by
  rcases nextPriceBy0_eq_ok h with ⟨rfl, rfl⟩ | ⟨hamount, denominator, hden, hq, hsum⟩
  · simp [hp]
  change denominator = liquidity * 2 ^ 64 + amount * p at hsum
  have hle : q ≤ p := by
    rw [← hq, divUp_le_iff hden, Nat.mul_comm]
    exact Nat.mul_le_mul_left p (by omega)
  have hmul : liquidity * 2 ^ 64 * p ≤ q * (liquidity * 2 ^ 64 + amount * p) := by
    rw [← hsum, ← divUp_le_iff hden, hq]
  -- a price of zero would leave nothing to pay for
  have hqpos : 0 < q := by
    by_contra hzero
    rw [Nat.eq_zero_of_not_pos hzero, Nat.zero_mul] at hmul
    have : 0 < liquidity * 2 ^ 64 * p := by positivity
    omega
  refine ⟨hqpos, hle, ?_⟩
  have hp' : (0 : ℚ) < p := by exact_mod_cast hp
  have hq' : (0 : ℚ) < q := by exact_mod_cast hqpos
  have hmul' : (liquidity : ℚ) * 2 ^ 64 * p ≤ q * (liquidity * 2 ^ 64 + amount * p) := by
    exact_mod_cast hmul
  have heq : (liquidity : ℚ) * (2 ^ 64 / q - 2 ^ 64 / p) =
      (liquidity * 2 ^ 64 * p - liquidity * 2 ^ 64 * q) / (q * p) := by
    field_simp
  rw [heq, div_le_iff₀ (mul_pos hq' hp')]
  linarith

/-- Token 1 paid in moves the price up, and what the liquidity holds of it rises by no more than was
paid: the price is rounded down. -/
theorem nextPriceBy1_add_spec (h : nextPriceBy1 p liquidity amount .add = .ok q) :
    p ≤ q ∧ (liquidity : ℚ) * (q / 2 ^ 64 - p / 2 ^ 64) ≤ amount := by
  rcases nextPriceBy1_eq_ok h with ⟨rfl, rfl⟩ | ⟨hamount, -, hq⟩
  · simp
  change q = p + amount * 2 ^ 64 / liquidity at hq
  subst hq
  refine ⟨Nat.le_add_right _ _, ?_⟩
  -- the price rises by a whole quotient, rounded down
  have hmul : amount * 2 ^ 64 / liquidity * liquidity ≤ amount * 2 ^ 64 :=
    Nat.div_mul_le_self _ _
  have hmul' : ((amount * 2 ^ 64 / liquidity : Nat) : ℚ) * liquidity ≤ amount * 2 ^ 64 := by
    exact_mod_cast hmul
  have heq : (liquidity : ℚ) *
      ((p + (amount * 2 ^ 64 / liquidity : Nat)) / 2 ^ 64 - p / 2 ^ 64) =
        (amount * 2 ^ 64 / liquidity : Nat) * liquidity / 2 ^ 64 := by ring
  rw [Nat.cast_add, heq, div_le_iff₀ (by positivity)]
  exact hmul'

/-- The price an input leads to, in terms of holdings: it is ahead, and the holding of the input token
rises by no more than the amount. -/
theorem nextPriceByInput_spec (hp : 0 < p)
    (h : nextPriceByInput p liquidity amount d = .ok q) :
    0 < q ∧ d.Leads p q ∧
      (liquidity : ℚ) * (holding d.input q - holding d.input p) ≤ amount := by
  simp only [nextPriceByInput] at h
  rw [Outcome.bind_eq_ok] at h
  obtain ⟨_, -, h⟩ := h
  rw [Outcome.bind_eq_ok] at h
  obtain ⟨_, hliquidity, h⟩ := h
  rw [require_eq_ok] at hliquidity
  cases d with
  | down => exact nextPriceBy0_add_spec hp hliquidity h
  | up =>
      obtain ⟨hle, hcost⟩ := nextPriceBy1_add_spec h
      exact ⟨Nat.lt_of_lt_of_le hp hle, hle, hcost⟩

/-- Token 1 paid out moves the price down, by no more than any move that pays for the amount: a whole
way can be stepped down to, since it is a whole number of price units. -/
theorem nextPriceBy1_remove_spec (hp : 0 < p) (hliquidity : 0 < liquidity)
    (h : nextPriceBy1 p liquidity amount .remove = .ok q) :
    0 < q ∧ q ≤ p ∧ ∀ t : Nat, t ≤ p →
      (amount : ℚ) ≤ liquidity * (p / 2 ^ 64 - t / 2 ^ 64) → t ≤ q := by
  rcases nextPriceBy1_eq_ok h with ⟨rfl, rfl⟩ | ⟨hamount, -, hq, hqpos⟩
  · exact ⟨hp, Nat.le_refl _, fun t ht _ => ht⟩
  refine ⟨hqpos, by omega, ?_⟩
  intro t htp hle
  have hway : divUp (amount * 2 ^ 64) liquidity ≤ p - t := by
    rw [divUp_le_iff hliquidity]
    have heq : (liquidity : ℚ) * (p / 2 ^ 64 - t / 2 ^ 64) = (p - t) * liquidity / 2 ^ 64 := by
      ring
    rw [heq, le_div_iff₀ (by positivity)] at hle
    have hcast : ((p - t : Nat) : ℚ) = p - t := Nat.cast_sub htp
    rw [← hcast] at hle
    exact_mod_cast hle
  omega

/-- Token 0 paid out moves the price up, by no more than any move that pays for the amount. -/
theorem nextPriceBy0_remove_spec (hp : 0 < p)
    (h : nextPriceBy0 p liquidity amount .remove = .ok q) :
    p ≤ q ∧ ∀ t : Nat, 0 < t → p ≤ t →
      (amount : ℚ) ≤ liquidity * (2 ^ 64 / p - 2 ^ 64 / t) → q ≤ t := by
  rcases nextPriceBy0_eq_ok h with ⟨rfl, rfl⟩ | ⟨hamount, denominator, hden, rfl, hsum⟩
  · exact ⟨Nat.le_refl _, fun t _ ht _ => ht⟩
  change denominator + amount * p = liquidity * 2 ^ 64 at hsum
  constructor
  · by_contra hlt
    have hmul : liquidity * 2 ^ 64 * p ≤
        divUp (liquidity * 2 ^ 64 * p) denominator * denominator := by
      rw [← divUp_le_iff hden]
    -- the denominator is less than the liquidity, so the price cannot have fallen
    have hstep : divUp (liquidity * 2 ^ 64 * p) denominator * denominator < p * denominator :=
      Nat.mul_lt_mul_of_pos_right (Nat.not_le.1 hlt) hden
    have hden' : p * denominator ≤ p * (liquidity * 2 ^ 64) :=
      Nat.mul_le_mul_left p (by omega)
    rw [Nat.mul_comm p (liquidity * 2 ^ 64)] at hden'
    omega
  · intro t ht htp hout
    rw [divUp_le_iff hden]
    have hp' : (0 : ℚ) < p := by exact_mod_cast hp
    have ht' : (0 : ℚ) < t := by exact_mod_cast ht
    have heq : (liquidity : ℚ) * (2 ^ 64 / p - 2 ^ 64 / t) =
        (liquidity * 2 ^ 64 * t - liquidity * 2 ^ 64 * p) / (p * t) := by
      field_simp
    rw [heq, le_div_iff₀ (mul_pos hp' ht')] at hout
    have hsum' : (denominator : ℚ) + amount * p = liquidity * 2 ^ 64 := by exact_mod_cast hsum
    have hgoal : (liquidity : ℚ) * 2 ^ 64 * p ≤ t * denominator := by
      have hden' : (denominator : ℚ) = liquidity * 2 ^ 64 - amount * p := by linarith
      rw [hden']
      linarith
    exact_mod_cast hgoal

/-- The price an output leads to is ahead, and it lies no further than any price on the way to which
the holding of the output token falls by at least the amount. -/
theorem nextPriceByOutput_spec (hp : 0 < p)
    (h : nextPriceByOutput p liquidity amount d = .ok q) :
    0 < q ∧ d.Leads p q ∧ ∀ t, 0 < t → d.Leads p t →
      (amount : ℚ) ≤ liquidity * (holding d.output p - holding d.output t) → d.Leads q t := by
  simp only [nextPriceByOutput] at h
  rw [Outcome.bind_eq_ok] at h
  obtain ⟨_, -, h⟩ := h
  rw [Outcome.bind_eq_ok] at h
  obtain ⟨_, hliquidity, h⟩ := h
  rw [require_eq_ok] at hliquidity
  cases d with
  | down =>
      obtain ⟨hpos, hle, hfar⟩ := nextPriceBy1_remove_spec hp hliquidity h
      exact ⟨hpos, hle, fun t _ htp hout => hfar t htp hout⟩
  | up =>
      obtain ⟨hle, hfar⟩ := nextPriceBy0_remove_spec hp h
      exact ⟨Nat.lt_of_lt_of_le hp hle, hle, fun t ht htp hout => hfar t ht htp hout⟩

/-- Token 1 paid out is covered by the move: the price is rounded down. -/
theorem nextPriceBy1_remove_gives (h : nextPriceBy1 p liquidity amount .remove = .ok q) :
    (amount : ℚ) ≤ liquidity * (p / 2 ^ 64 - q / 2 ^ 64) := by
  rcases nextPriceBy1_eq_ok h with ⟨rfl, rfl⟩ | ⟨-, hliquidity, hq, -⟩
  · simp
  have hmul : amount * 2 ^ 64 ≤ divUp (amount * 2 ^ 64) liquidity * liquidity :=
    (divUp_le_iff hliquidity).1 (Nat.le_refl _)
  have hmul' : (amount : ℚ) * 2 ^ 64 ≤ (divUp (amount * 2 ^ 64) liquidity : Nat) * liquidity := by
    exact_mod_cast hmul
  have hway : (p : ℚ) - q = (divUp (amount * 2 ^ 64) liquidity : Nat) := by
    rw [← hq]
    push_cast
    ring
  have heq : (liquidity : ℚ) * (p / 2 ^ 64 - q / 2 ^ 64) = (p - q) * liquidity / 2 ^ 64 := by ring
  rw [heq, hway, le_div_iff₀ (by positivity)]
  exact hmul'

/-- Token 0 paid out is covered by the move: the price is rounded up. -/
theorem nextPriceBy0_remove_gives (hp : 0 < p) (h : nextPriceBy0 p liquidity amount .remove = .ok q) :
    (amount : ℚ) ≤ liquidity * (2 ^ 64 / p - 2 ^ 64 / q) := by
  obtain ⟨hle, -⟩ := nextPriceBy0_remove_spec hp h
  rcases nextPriceBy0_eq_ok h with ⟨rfl, rfl⟩ | ⟨-, denominator, hden, hq, hsum⟩
  · simp
  change denominator + amount * p = liquidity * 2 ^ 64 at hsum
  have hmul : liquidity * 2 ^ 64 * p ≤ q * denominator := by
    rw [← divUp_le_iff hden, hq]
  have hp' : (0 : ℚ) < p := by exact_mod_cast hp
  have hq' : (0 : ℚ) < q := by exact_mod_cast Nat.lt_of_lt_of_le hp hle
  have hmul' : (liquidity : ℚ) * 2 ^ 64 * p ≤ q * denominator := by exact_mod_cast hmul
  have hsum' : (denominator : ℚ) = liquidity * 2 ^ 64 - amount * p := by
    rw [eq_sub_iff_add_eq]
    exact_mod_cast hsum
  have heq : (liquidity : ℚ) * (2 ^ 64 / p - 2 ^ 64 / q) =
      (liquidity * 2 ^ 64 * q - liquidity * 2 ^ 64 * p) / (p * q) := by
    field_simp
  rw [heq, le_div_iff₀ (mul_pos hp' hq')]
  rw [hsum'] at hmul'
  linarith

/-- At the price an output leads to, the holding of the output token has fallen by at least the
amount. -/
theorem nextPriceByOutput_gives (h : nextPriceByOutput p liquidity amount d = .ok q) :
    d.Leads p q ∧ (amount : ℚ) ≤ liquidity * (holding d.output p - holding d.output q) := by
  have hnext := h
  simp only [nextPriceByOutput] at h
  rw [Outcome.bind_eq_ok] at h
  obtain ⟨_, hp, h⟩ := h
  rw [Outcome.bind_eq_ok] at h
  obtain ⟨_, -, h⟩ := h
  rw [require_eq_ok] at hp
  refine ⟨(nextPriceByOutput_spec hp hnext).2.1, ?_⟩
  cases d with
  | down => exact nextPriceBy1_remove_gives h
  | up => exact nextPriceBy0_remove_gives hp h

/-! ### A way that is not covered -/

/-- An input that does not pay for the whole way leads to a price before its end. -/
theorem nextPriceByInput_leads {target next full : Nat} (hp : 0 < p) (hleads : d.Leads p target)
    (hfull : d.amountIn p target liquidity = .ok full) (hlt : amount < full)
    (h : nextPriceByInput p liquidity amount d = .ok next) : d.Leads next target := by
  obtain ⟨hpos, -, hcost⟩ := nextPriceByInput_spec hp h
  have hway := mt (amountIn_le_iff hleads hfull amount).2 (Nat.not_le.2 hlt)
  apply Direction.leads_of_holding_input_lt hpos
  by_contra hge
  exact hway (le_trans (mul_le_mul_of_nonneg_left (by linarith) (Nat.cast_nonneg _)) hcost)

/-- An output that the whole way covers leads to a price before its end. -/
theorem nextPriceByOutput_leads {target next full : Nat} (hp : 0 < p) (htarget : 0 < target)
    (hleads : d.Leads p target) (hfull : d.amountOut p target liquidity = .ok full)
    (hle : amount ≤ full) (h : nextPriceByOutput p liquidity amount d = .ok next) :
    d.Leads next target :=
  (nextPriceByOutput_spec hp h).2.2 target htarget hleads
    ((le_amountOut_iff hleads hfull amount).1 hle)

/-! ### The step -/

namespace SwapStep

/-- The step stays between `current` and `target`, and its amounts are rounded in favour of the
pool. -/
structure Sound (s : SwapStep) (d : Direction) (current target liquidity : Nat) : Prop where
  leads : d.Leads current s.sqrtPrice
  stays : d.Leads s.sqrtPrice target
  pays : (liquidity : ℚ) * (holding d.input s.sqrtPrice - holding d.input current) ≤ s.amountIn
  gives : (s.amountOut : ℚ) ≤
    liquidity * (holding d.output current - holding d.output s.sqrtPrice)

variable {current target remaining rate : Nat} {s : SwapStep}

theorem sound_of_amounts {next input out : Nat} (hleads : d.Leads current next)
    (hstays : d.Leads next target) (hin : d.amountIn current next liquidity = .ok input)
    (hout : d.amountOut current next liquidity = .ok out) {given fee : Nat} (hgiven : given ≤ out) :
    Sound ⟨next, input, given, fee⟩ d current target liquidity :=
  ⟨hleads, hstays, (amountIn_le_iff hleads hin input).1 (Nat.le_refl _),
    (le_amountOut_iff hleads hout given).1 hgiven⟩

/-- What is left after the fee. -/
theorem budget_le {budget : Nat}
    (h : mulDiv .down remaining (feeDenominator - rate) feeDenominator = .ok budget) :
    budget ≤ remaining := by
  obtain ⟨-, rfl⟩ := mulDiv_eq_ok h
  change remaining * (feeDenominator - rate) / feeDenominator ≤ remaining
  apply Nat.div_le_of_le_mul
  rw [Nat.mul_comm feeDenominator]
  exact Nat.mul_le_mul_left _ (Nat.sub_le _ _)

theorem sound_exactIn (hcurrent : 0 < current)
    (hleads : d.Leads current target) (hremaining : remaining < 2 ^ 64)
    (h : exactIn current target liquidity remaining rate d = .ok s) :
    Sound s d current target liquidity := by
  simp only [exactIn] at h
  rw [Outcome.bind_eq_ok] at h
  obtain ⟨budget, hbudget, h⟩ := h
  rw [Outcome.bind_eq_ok] at h
  obtain ⟨full, hfull, h⟩ := h
  by_cases hreach : full < 2 ^ 64 ∧ full ≤ budget
  · rw [if_pos hreach] at h
    simp only [Outcome.bind_eq_ok, tokenAmount_eq_ok] at h
    obtain ⟨_, hout, _, ⟨-, rfl⟩, fee, -, h⟩ := h
    obtain rfl := Except.ok.inj h
    exact sound_of_amounts hleads (Direction.Leads.refl _ _) hfull hout (Nat.le_refl _)
  · rw [if_neg hreach] at h
    simp only [Outcome.bind_eq_ok, tokenAmount_eq_ok] at h
    obtain ⟨next, hnext, _, hin, _, ⟨-, rfl⟩, _, hout, _, ⟨-, rfl⟩, fee, -, h⟩ := h
    obtain rfl := Except.ok.inj h
    have hle := budget_le hbudget
    obtain ⟨-, hahead, -⟩ := nextPriceByInput_spec hcurrent hnext
    exact sound_of_amounts hahead
      (nextPriceByInput_leads hcurrent hleads hfull (by omega) hnext) hin hout (Nat.le_refl _)

theorem sound_exactOut (hcurrent : 0 < current) (htarget : 0 < target)
    (hleads : d.Leads current target) (hremaining : remaining < 2 ^ 64)
    (h : exactOut current target liquidity remaining rate d = .ok s) :
    Sound s d current target liquidity := by
  simp only [exactOut] at h
  rw [Outcome.bind_eq_ok] at h
  obtain ⟨full, hfull, h⟩ := h
  by_cases hreach : full < 2 ^ 64 ∧ full ≤ remaining
  · rw [if_pos hreach] at h
    simp only [Outcome.bind_eq_ok, tokenAmount_eq_ok] at h
    obtain ⟨_, hin, _, ⟨-, rfl⟩, fee, -, h⟩ := h
    obtain rfl := Except.ok.inj h
    exact sound_of_amounts hleads (Direction.Leads.refl _ _) hin hfull (Nat.le_refl _)
  · rw [if_neg hreach] at h
    simp only [Outcome.bind_eq_ok, tokenAmount_eq_ok] at h
    obtain ⟨next, hnext, _, hin, _, ⟨-, rfl⟩, _, hout, _, ⟨-, rfl⟩, fee, -, h⟩ := h
    obtain rfl := Except.ok.inj h
    obtain ⟨-, hahead, -⟩ := nextPriceByOutput_spec hcurrent hnext
    exact sound_of_amounts hahead
      (nextPriceByOutput_leads hcurrent htarget hleads hfull (by omega) hnext) hin hout
      (Nat.min_le_left _ _)

/-- **Every step is sound.** -/
theorem sound_compute {mode : SwapMode} (hcurrent : 0 < current) (htarget : 0 < target)
    (hleads : d.Leads current target) (hremaining : remaining < 2 ^ 64)
    (h : compute current target liquidity remaining rate mode d = .ok s) :
    Sound s d current target liquidity := by
  simp only [compute] at h
  rw [Outcome.bind_eq_ok] at h
  obtain ⟨_, -, h⟩ := h
  cases mode with
  | exactIn => exact sound_exactIn hcurrent hleads hremaining h
  | exactOut => exact sound_exactOut hcurrent htarget hleads hremaining h

/-- The step uses up what is left of the fixed amount. -/
def Exhausts (s : SwapStep) (mode : SwapMode) (remaining : Nat) : Prop :=
  match mode with
  | .exactIn => s.amountIn + s.fee = remaining
  | .exactOut => s.amountOut = remaining

/-- **A step ends at its target or uses up what is left.** -/
theorem ends_compute {mode : SwapMode}
    (h : compute current target liquidity remaining rate mode d = .ok s) :
    s.sqrtPrice = target ∨ s.Exhausts mode remaining := by
  simp only [compute] at h
  rw [Outcome.bind_eq_ok] at h
  obtain ⟨_, -, h⟩ := h
  cases mode with
  | exactIn =>
      simp only [exactIn] at h
      rw [Outcome.bind_eq_ok] at h
      obtain ⟨budget, -, h⟩ := h
      rw [Outcome.bind_eq_ok] at h
      obtain ⟨full, -, h⟩ := h
      by_cases hreach : full < 2 ^ 64 ∧ full ≤ budget
      · rw [if_pos hreach] at h
        simp only [Outcome.bind_eq_ok] at h
        obtain ⟨_, -, _, -, _, -, h⟩ := h
        obtain rfl := Except.ok.inj h
        exact Or.inl rfl
      · rw [if_neg hreach] at h
        simp only [Outcome.bind_eq_ok, subOrRefuse_eq_ok] at h
        obtain ⟨_, -, _, -, _, -, _, -, _, -, _, ⟨hle, rfl⟩, h⟩ := h
        obtain rfl := Except.ok.inj h
        exact Or.inr (Nat.add_sub_cancel' hle)
  | exactOut =>
      simp only [exactOut] at h
      rw [Outcome.bind_eq_ok] at h
      obtain ⟨full, -, h⟩ := h
      by_cases hreach : full < 2 ^ 64 ∧ full ≤ remaining
      · rw [if_pos hreach] at h
        simp only [Outcome.bind_eq_ok] at h
        obtain ⟨_, -, _, -, _, -, h⟩ := h
        obtain rfl := Except.ok.inj h
        exact Or.inl rfl
      · rw [if_neg hreach] at h
        simp only [Outcome.bind_eq_ok, tokenAmount_eq_ok] at h
        obtain ⟨next, hnext, _, -, _, -, _, hout, _, ⟨-, rfl⟩, _, -, h⟩ := h
        obtain rfl := Except.ok.inj h
        -- the price went far enough for the output that is left
        obtain ⟨hleads, hgives⟩ := nextPriceByOutput_gives hnext
        exact Or.inr (Nat.min_eq_right ((le_amountOut_iff hleads hout remaining).2 hgives))

end SwapStep

end Clmm
