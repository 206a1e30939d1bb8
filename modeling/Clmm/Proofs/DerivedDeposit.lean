import Clmm.LiquidityChange
import Clmm.Proofs.Faults
import Clmm.Proofs.PriceRange
import Clmm.Proofs.RangeAmounts
import Mathlib.Order.Bounds.Basic

/-!
# Clmm.Proofs.DerivedDeposit

**A derived deposit is the largest one that the maxima pay for** (`derived_deposits_fit`). The liquidity that
an amount funds is found by a quotient rounded down, what a liquidity costs by another one rounded up, and
the two are adjoint: a liquidity is at most the one funded exactly if what it is worth is at most the amount
(`le_liquidityFrom0_iff`, `le_liquidityFrom1_iff`).

The derivation asks the price where a range lies, the amounts ask the tick. After a downward crossing these
disagree at one end of the range, but there the price is that of the end, so the amount on which they
disagree is zero. `Position.unitWorth` does not ask at all, and both are stated by it.

A derivation multiplies a 64-bit amount by two prices and does not check that 256 bits suffice. They do,
because the greatest price is below `2 ^ 96`.
-/

namespace Clmm

open Outcome

/-! ### What an amount funds between two prices -/

section Between

variable {a b amount n : Nat}

theorem le_liquidityFrom0_iff (ha : 0 < a) (hab : a < b) (h : liquidityFrom0 a b amount = .ok n) (k : Nat) :
    k ≤ n ↔ (k : ℚ) * (holding .zero a - holding .zero b) ≤ amount := by
  have hdiff : 0 < 2 ^ 64 * (b - a) := Nat.mul_pos (by norm_num) (Nat.sub_pos_of_lt hab)
  have hprices : (0 : ℚ) < (a * b : Nat) := by exact_mod_cast Nat.mul_pos ha (ha.trans hab)
  simp only [liquidityFrom0] at h
  rw [Nat.min_eq_left hab.le, Nat.max_eq_right hab.le] at h
  simp only [bind_eq_ok, require_eq_ok, within_eq_ok, narrow_eq_ok] at h
  obtain ⟨_, -, _, ⟨-, rfl⟩, -, rfl⟩ := h
  rw [Nat.le_div_iff_mul_le hdiff, holding_zero_sub ha hab.le, div_le_iff₀ hprices, ← Nat.mul_assoc,
    Nat.mul_assoc amount]
  exact_mod_cast Iff.rfl

theorem le_liquidityFrom1_iff (hab : a < b) (h : liquidityFrom1 a b amount = .ok n) (k : Nat) :
    k ≤ n ↔ (k : ℚ) * (holding .one b - holding .one a) ≤ amount := by
  simp only [liquidityFrom1] at h
  rw [Nat.min_eq_left hab.le, Nat.max_eq_right hab.le, bind_eq_ok] at h
  obtain ⟨_, -, h⟩ := h
  obtain ⟨hdiff, rfl⟩ := mulDiv_eq_ok h
  change k ≤ amount * 2 ^ 64 / (b - a) ↔ _
  rw [Nat.le_div_iff_mul_le hdiff, holding_one_sub hab.le, div_le_iff₀ (by positivity)]
  exact_mod_cast Iff.rfl

theorem decides_liquidityFrom0 (ha : a ≤ maxSqrtPrice) (hb : b ≤ maxSqrtPrice) (hamount : amount < 2 ^ 64) :
    Decides (liquidityFrom0 a b amount) := by
  have hfits : amount * min a b * max a b < 2 ^ 256 := by
    have hlower : min a b ≤ maxSqrtPrice := (Nat.min_le_left a b).trans ha
    have hupper : max a b ≤ maxSqrtPrice := Nat.max_le.2 ⟨ha, hb⟩
    calc amount * min a b * max a b ≤ 2 ^ 64 * maxSqrtPrice * maxSqrtPrice :=
          Nat.mul_le_mul (Nat.mul_le_mul hamount.le hlower) hupper
      _ < 2 ^ 256 := by decide
  simp only [liquidityFrom0]
  exact decides_require.bind fun _ _ => (succeeds_within hfits).decides.bind fun _ _ => decides_narrow

theorem decides_liquidityFrom1 : Decides (liquidityFrom1 a b amount) :=
  decides_require.bind fun _ _ => decides_mulDiv

end Between

/-! ### What amounts fund on a range -/

namespace Position

variable {p : Position} {price amount n : Nat} {tick : Int} {maxima : Pair Nat}

/-- What a deposit of liquidity costs of a token: what the liquidity is worth at the price, rounded up. -/
def cost (p : Position) (price liquidity : Nat) (x : Token) : Nat := ⌈liquidity * p.unitWorth price x⌉₊

theorem cost_le_iff {x : Token} {k : Nat} :
    p.cost price k x ≤ amount ↔ (k : ℚ) * p.unitWorth price x ≤ amount := Nat.ceil_le

/-- **One token alone** funds a liquidity if this costs no more of it. -/
theorem le_liquidityFromOne_iff (h : p.Priced price tick) {x : Token}
    (hfunds : liquidityFromOne price (priceAt p.lower) (priceAt p.upper) amount x = .ok n) (hpos : 0 < n)
    (k : Nat) : k ≤ n ↔ p.cost price k x ≤ amount := by
  have hrange := h.lower_lt_upper
  rw [cost_le_iff]
  simp only [liquidityFromOne] at hfunds
  rw [Nat.min_eq_left hrange.le, Nat.max_eq_right hrange.le] at hfunds
  simp only [unitWorth, clamp, emptyPrice]
  cases x with
  | zero =>
      dsimp only at hfunds ⊢
      by_cases habove : priceAt p.upper ≤ price
      · rw [if_pos habove] at hfunds
        exact absurd (Except.ok.inj hfunds) hpos.ne
      · rw [if_neg habove] at hfunds
        have hbelow := Nat.not_le.1 habove
        rw [Nat.min_eq_left hbelow.le, Nat.max_comm]
        exact le_liquidityFrom0_iff (h.lower_pos.trans_le (Nat.le_max_right _ _))
          (Nat.max_lt.2 ⟨hbelow, hrange⟩) hfunds k
  | one =>
      dsimp only at hfunds ⊢
      by_cases hbelow : price ≤ priceAt p.lower
      · rw [if_pos hbelow] at hfunds
        exact absurd (Except.ok.inj hfunds) hpos.ne
      · rw [if_neg hbelow] at hfunds
        have hinside : priceAt p.lower < min price (priceAt p.upper) :=
          Nat.lt_min.2 ⟨Nat.not_le.1 hbelow, hrange⟩
        rw [Nat.max_eq_right hinside.le]
        exact le_liquidityFrom1_iff hinside hfunds k

/-- **Both tokens** fund a liquidity if it costs no more of either. -/
theorem le_liquidityFromBoth_iff (h : p.Priced price tick)
    (hfunds : liquidityFromBoth price (priceAt p.lower) (priceAt p.upper) maxima = .ok n) (k : Nat) :
    k ≤ n ↔ ∀ x, p.cost price k x ≤ maxima.get x := by
  have hrange := h.lower_lt_upper
  -- a token that the range does not hold costs nothing
  have hfree : ∀ {x}, p.clamp price = p.emptyPrice x → p.cost price k x ≤ maxima.get x := by
    intro x hempty
    rw [cost_le_iff, unitWorth_of_empty hempty, mul_zero]
    exact Nat.cast_nonneg _
  rw [Token.forall_iff]
  simp only [liquidityFromBoth] at hfunds
  rw [Nat.min_eq_left hrange.le, Nat.max_eq_right hrange.le] at hfunds
  by_cases hbelow : price ≤ priceAt p.lower
  · rw [if_pos hbelow] at hfunds
    have hclamp := clamp_below hrange.le hbelow
    rw [and_iff_left (hfree (x := .one) hclamp), cost_le_iff]
    simp only [unitWorth]
    rw [hclamp]
    exact le_liquidityFrom0_iff h.lower_pos hrange hfunds k
  rw [if_neg hbelow] at hfunds
  have habove := Nat.not_le.1 hbelow
  by_cases hinside : price < priceAt p.upper
  · rw [if_pos hinside] at hfunds
    simp only [bind_eq_ok] at hfunds
    obtain ⟨byZero, hzero, byOne, hone, hfunds⟩ := hfunds
    obtain rfl := Except.ok.inj hfunds
    rw [Nat.le_min, cost_le_iff, cost_le_iff]
    simp only [unitWorth]
    rw [clamp_inside habove.le hinside.le]
    exact and_congr (le_liquidityFrom0_iff (h.lower_pos.trans habove) hinside hzero k)
      (le_liquidityFrom1_iff habove hone k)
  · rw [if_neg hinside] at hfunds
    have hclamp := clamp_above hrange.le (Nat.not_lt.1 hinside)
    rw [and_iff_right (hfree (x := .zero) hclamp), cost_le_iff]
    simp only [unitWorth]
    rw [hclamp]
    exact le_liquidityFrom1_iff hrange hfunds k

theorem amountsFor_up_eq_ok_iff (h : p.Priced price tick) {amounts : Pair Nat} :
    amountsFor price tick p.lower p.upper n .up = .ok amounts ↔
      ∀ x, amounts.get x = p.cost price n x ∧ amounts.get x < 2 ^ 64 := amountsFor_eq_ok_iff h

end Position

/-! ### Deposits -/

section Deposits

variable {pool : Pool} {p : Position} {maxima : Pair Nat} {only : Option Token} {n : Nat}

theorem depositLiquidity_eq_ok (h : p.Priced pool.sqrtPrice pool.tick)
    (hderive : depositLiquidity pool p 0 maxima only = .ok n) :
    0 < n ∧ match only with
      | some x => liquidityFromOne pool.sqrtPrice (priceAt p.lower) (priceAt p.upper) (maxima.get x) x = .ok n
      | none => liquidityFromBoth pool.sqrtPrice (priceAt p.lower) (priceAt p.upper) maxima = .ok n := by
  simp only [depositLiquidity] at hderive
  rw [if_neg (by simp), sqrtPriceAt_eq_ok.2 ⟨⟨h.min_le, h.lt.le.trans h.le_max⟩, rfl⟩, ok_bind,
    sqrtPriceAt_eq_ok.2 ⟨⟨h.min_le.trans h.lt.le, h.le_max⟩, rfl⟩, ok_bind] at hderive
  cases only with
  | some x =>
      simp only [bind_eq_ok, require_eq_ok] at hderive
      obtain ⟨_, hfunds, _, hpos, hderive⟩ := hderive
      obtain rfl := Except.ok.inj hderive
      exact ⟨hpos, hfunds⟩
  | none =>
      simp only [bind_eq_ok, require_eq_ok] at hderive
      obtain ⟨_, hfunds, _, hpos, hderive⟩ := hderive
      obtain rfl := Except.ok.inj hderive
      exact ⟨hpos, hfunds⟩

theorem decides_liquidityFromOne {price a b amount : Nat} {x : Token} (hprice : price ≤ maxSqrtPrice)
    (ha : a ≤ maxSqrtPrice) (hb : b ≤ maxSqrtPrice) (hamount : amount < 2 ^ 64) :
    Decides (liquidityFromOne price a b amount x) := by
  have hlower : min a b ≤ maxSqrtPrice := (Nat.min_le_left a b).trans ha
  have hupper : max a b ≤ maxSqrtPrice := Nat.max_le.2 ⟨ha, hb⟩
  simp only [liquidityFromOne]
  cases x with
  | zero =>
      exact .ite (fun _ => decides_ok _) fun _ =>
        decides_liquidityFrom0 (Nat.max_le.2 ⟨hprice, hlower⟩) hupper hamount
  | one => exact .ite (fun _ => decides_ok _) fun _ => decides_liquidityFrom1

theorem decides_liquidityFromBoth {price a b : Nat} (ha : a ≤ maxSqrtPrice) (hb : b ≤ maxSqrtPrice)
    (hprice : price ≤ maxSqrtPrice) (hmaxima : maxima.zero < 2 ^ 64) :
    Decides (liquidityFromBoth price a b maxima) := by
  have hlower : min a b ≤ maxSqrtPrice := (Nat.min_le_left a b).trans ha
  have hupper : max a b ≤ maxSqrtPrice := Nat.max_le.2 ⟨ha, hb⟩
  simp only [liquidityFromBoth]
  refine .ite (fun _ => decides_liquidityFrom0 hlower hupper hmaxima) fun _ =>
    .ite (fun _ => ?_) fun _ => decides_liquidityFrom1
  exact (decides_liquidityFrom0 hprice hupper hmaxima).bind fun _ _ =>
    decides_liquidityFrom1.bind fun _ _ => decides_pure _

theorem decides_depositLiquidity (h : p.Priced pool.sqrtPrice pool.tick)
    (hprice : pool.sqrtPrice ≤ maxSqrtPrice) (hmaxima : ∀ x, maxima.get x < 2 ^ 64) :
    Decides (depositLiquidity pool p 0 maxima only) := by
  have hlower := priceAt_le_maxSqrtPrice h.min_le (h.lt.le.trans h.le_max)
  have hupper := priceAt_le_maxSqrtPrice (h.min_le.trans h.lt.le) h.le_max
  simp only [depositLiquidity]
  rw [if_neg (by simp), sqrtPriceAt_eq_ok.2 ⟨⟨h.min_le, h.lt.le.trans h.le_max⟩, rfl⟩, ok_bind,
    sqrtPriceAt_eq_ok.2 ⟨⟨h.min_le.trans h.lt.le, h.le_max⟩, rfl⟩, ok_bind]
  cases only with
  | some x =>
      exact (decides_liquidityFromOne hprice hlower hupper (hmaxima x)).bind fun _ _ =>
        decides_require.bind fun _ _ => decides_pure _
  | none =>
      exact (decides_liquidityFromBoth hlower hupper hprice (hmaxima .zero)).bind fun _ _ =>
        decides_require.bind fun _ _ => decides_pure _

end Deposits

namespace Market

variable {m : Market} {p : Position}

theorem Attained.priced (h : Attained m)
    (hrange : checkRange p.lower p.upper m.pool.spacing = .ok ()) :
    p.Priced m.pool.sqrtPrice m.pool.tick := by
  obtain ⟨hmin, hlt, hmax⟩ := checkRange_eq_ok hrange
  exact ⟨hmin, hlt, hmax, h.orderly.price⟩

/-- **Derived deposits fit and are maximal.** In every market that a run leads to, for every range of ticks
that a position may have and all maxima of 64 bits, deriving a liquidity gives one or refuses. One derived
from both maxima costs no more than these, and every larger one costs more of some token or cannot be paid
for at all. One derived from a single maximum is the largest whose cost in that token the maximum covers.
The cost is the amount of the token that a deposit takes, wherever there is such an amount. -/
theorem derived_deposits_fit (h : Attained m)
    (hrange : checkRange p.lower p.upper m.pool.spacing = .ok ()) {maxima : Pair Nat}
    (hmaxima : ∀ x, maxima.get x < 2 ^ 64) :
    (∀ only, Decides (depositLiquidity m.pool p 0 maxima only)) ∧
    (∀ n, depositLiquidity m.pool p 0 maxima none = .ok n →
      IsGreatest {k | ∃ amounts,
        amountsFor m.pool.sqrtPrice m.pool.tick p.lower p.upper k .up = .ok amounts ∧
          ∀ x, amounts.get x ≤ maxima.get x} n) ∧
    (∀ x n, depositLiquidity m.pool p 0 maxima (some x) = .ok n →
      IsGreatest {k | p.cost m.pool.sqrtPrice k x ≤ maxima.get x} n) ∧
    ∀ k amounts x, amountsFor m.pool.sqrtPrice m.pool.tick p.lower p.upper k .up = .ok amounts →
      amounts.get x = p.cost m.pool.sqrtPrice k x := by
  have hp := h.priced hrange
  refine ⟨fun only => decides_depositLiquidity hp h.sqrtPrice_le hmaxima, fun n hderive => ?_,
    fun x n hderive => ?_, fun k amounts x hamounts => ((p.amountsFor_up_eq_ok_iff hp).1 hamounts x).1⟩
  · obtain ⟨-, hfunds⟩ := depositLiquidity_eq_ok hp hderive
    have hiff := p.le_liquidityFromBoth_iff hp hfunds
    have hcosts := (hiff n).1 (Nat.le_refl n)
    refine ⟨⟨Pair.ofFn (p.cost m.pool.sqrtPrice n), ?_, ?_⟩, ?_⟩
    · rw [p.amountsFor_up_eq_ok_iff hp]
      intro x
      rw [Pair.get_ofFn]
      exact ⟨rfl, (hcosts x).trans_lt (hmaxima x)⟩
    · intro x
      rw [Pair.get_ofFn]
      exact hcosts x
    · rintro k ⟨amounts, hamounts, hfit⟩
      rw [hiff]
      intro x
      rw [← ((p.amountsFor_up_eq_ok_iff hp).1 hamounts x).1]
      exact hfit x
  · obtain ⟨hpos, hfunds⟩ := depositLiquidity_eq_ok hp hderive
    have hiff := p.le_liquidityFromOne_iff hp hfunds hpos
    exact ⟨(hiff n).1 (Nat.le_refl n), fun k hk => (hiff k).2 hk⟩

/-- A position on the ten ticks below tick 0, before it was set up by a market. -/
def belowZero : Position := Position.zeroed.setUp 0 0 0 (-10) 0

/-- After a swap down to the price of tick 0, which it crossed, a position below that tick takes only token
1, though the current tick lies in its range. -/
theorem derived_deposits_fit_crossed : ∃ m total,
    sample 10 5 (openings ++ [.swap ⟨1000000, 0, 2 ^ 64, .exactIn, .down⟩ 0 ⟨[0, -600], true⟩]) =
      .ok (m, total) ∧
    (m.pool.tick = -1 ∧ m.pool.sqrtPrice = 2 ^ 64) ∧
    checkRange belowZero.lower belowZero.upper m.pool.spacing = .ok () ∧
    depositLiquidity m.pool belowZero 0 ⟨1000, 1000⟩ none = .ok 2000600 ∧
    depositLiquidity m.pool belowZero 0 ⟨1000, 1000⟩ (some .one) = .ok 2000600 ∧
    IsGreatest {k | ∃ amounts, amountsFor m.pool.sqrtPrice m.pool.tick belowZero.lower belowZero.upper k .up =
      .ok amounts ∧ ∀ x, amounts.get x ≤ Pair.get ⟨1000, 1000⟩ x} 2000600 ∧
    IsGreatest {k | belowZero.cost m.pool.sqrtPrice k .one ≤ 1000} 2000600 := by
  obtain ⟨m, total, hsample, hrun⟩ := exists_of_sample (P := fun x =>
      decide ((x.1.pool.tick = -1 ∧ x.1.pool.sqrtPrice = 2 ^ 64) ∧
        checkRange belowZero.lower belowZero.upper x.1.pool.spacing = .ok () ∧
        depositLiquidity x.1.pool belowZero 0 ⟨1000, 1000⟩ none = .ok 2000600 ∧
        depositLiquidity x.1.pool belowZero 0 ⟨1000, 1000⟩ (some .one) = .ok 2000600))
    (show (sample 10 5 (openings ++ [.swap ⟨1000000, 0, 2 ^ 64, .exactIn, .down⟩ 0
      ⟨[0, -600], true⟩])).toOption.any _ = true by decide +kernel)
  obtain ⟨hplace, hrange, hnone, hone⟩ := of_decide_eq_true hrun
  have hmaxima : ∀ x, Pair.get ⟨1000, 1000⟩ x < 2 ^ 64 := by
    rintro (_ | _)
    · decide
    · decide
  obtain ⟨-, hboth, hsingle, -⟩ :=
    derived_deposits_fit (reached_of_sample hsample).attained hrange hmaxima
  exact ⟨m, total, hsample, hplace, hrange, hnone, hone, hboth _ hnone, hsingle _ _ hone⟩

end Market

end Clmm
