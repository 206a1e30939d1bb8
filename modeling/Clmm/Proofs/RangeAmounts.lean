import Clmm.Proofs.Progress
import Clmm.Proofs.Stake
import Mathlib.Algebra.Order.Floor.Semifield
import Mathlib.Data.Rat.Floor

/-!
# Clmm.Proofs.RangeAmounts

**The amounts of a range are what its liquidity is worth, rounded** (`amountsFor_eq_ok_iff`). Where the
current price and tick agree, the amounts of a liquidity on a range are given exactly if each of them,
rounded as told, fits a token balance; they then are these rounded numbers.

One thing could come in between: the product that the amount of token 0 is computed from may leave its
256 bits, and nobody checks it. But the prices of ticks stay below `2 ^ 96`, so an amount that fits 64 bits
comes from a product that fits (`tokens0_eq_ok_iff`).

What changes of liquidity need of their amounts is read off that: the rounding is in favour of the pool
(`amountsFor_bounds`), amounts that fit can be released (`succeeds_amountsFor_down`), and a withdrawal
returns what a deposit took, less at most one unit (`exists_amountsFor_down`).
-/

namespace Clmm

open Outcome

theorem Token.forall_iff {P : Token → Prop} : (∀ x, P x) ↔ P .zero ∧ P .one := by
  constructor
  · exact fun h => ⟨h _, h _⟩
  · rintro ⟨hzero, hone⟩ (_ | _)
    · exact hzero
    · exact hone

/-! ### Rounding exact amounts -/

/-- The exact amount, rounded as told. -/
def Rounding.round (r : Rounding) (exact : ℚ) : Nat :=
  match r with
  | .down => ⌊exact⌋₊
  | .up => ⌈exact⌉₊

@[simp] theorem Rounding.round_zero (r : Rounding) : r.round 0 = 0 := by
  cases r with
  | down => exact Nat.floor_zero
  | up => exact Nat.ceil_zero

theorem Rounding.div_eq_round {r : Rounding} {m q : Nat} (hq : 0 < q) :
    r.div m q = r.round ((m : ℚ) / (q : ℚ)) := by
  cases r with
  | down => exact (Nat.floor_div_eq_div m q).symm
  | up =>
      refine eq_of_forall_ge_iff fun k => ?_
      change divUp m q ≤ k ↔ ⌈(m : ℚ) / (q : ℚ)⌉₊ ≤ k
      rw [cast_divUp_le_iff hq, Nat.ceil_le]

/-- A quotient that is small however it is rounded is small. -/
theorem Rounding.lt_of_div_lt {r : Rounding} {m q k : Nat} (hq : 0 < q) (h : r.div m q < k) :
    m < k * q := by
  cases r with
  | down => exact (Nat.div_lt_iff_lt_mul hq).1 h
  | up =>
      have hle : m ≤ (k - 1) * q := (divUp_le_iff hq).1 (Nat.le_sub_one_of_lt h)
      exact hle.trans_lt (Nat.mul_lt_mul_of_pos_right (by omega) hq)

/-- What a rounding promises about the rounded number. -/
def Rounding.Bounds (r : Rounding) (exact : ℚ) (n : Nat) : Prop :=
  match r with
  | .up => exact ≤ n
  | .down => n ≤ exact

theorem Rounding.bounds_round (r : Rounding) {exact : ℚ} (h : 0 ≤ exact) : r.Bounds exact (r.round exact) := by
  cases r with
  | up => exact Nat.le_ceil exact
  | down => exact Nat.floor_le h

/-! ### The amounts between two prices -/

section Amounts

variable {a b liquidity n price : Nat} {r : Rounding} {tick : Int} {p : Position} {amounts : Pair Nat}

theorem tokens0_eq_ok_iff (ha : 0 < a) (hab : a ≤ b) (hb : b ≤ 2 ^ 96) :
    tokens0 a b liquidity r = .ok n ↔
      n = r.round (liquidity * (holding .zero a - holding .zero b)) ∧ n < 2 ^ 64 := by
  have hpos : 0 < a * b := Nat.mul_pos ha (ha.trans_le hab)
  rw [holding_zero_sub ha hab, ← Rounding.div_eq_round hpos, ← Rounding.div_div ha (ha.trans_le hab)]
  simp only [tokens0, amount0]
  rw [Nat.min_eq_left hab, Nat.max_eq_right hab]
  simp only [bind_eq_ok, require_eq_ok, within_eq_ok, narrow_eq_ok, tokenAmount_eq_ok]
  constructor
  · rintro ⟨_, ⟨_, -, _, ⟨-, rfl⟩, -, rfl⟩, hfits, rfl⟩
    exact ⟨rfl, hfits⟩
  · rintro ⟨rfl, hfits⟩
    have hproduct : liquidity * 2 ^ 64 * (b - a) < 2 ^ 256 := by
      rw [Rounding.div_div ha (ha.trans_le hab)] at hfits
      calc liquidity * 2 ^ 64 * (b - a) < 2 ^ 64 * (a * b) := Rounding.lt_of_div_lt hpos hfits
        _ ≤ 2 ^ 64 * (2 ^ 96 * 2 ^ 96) :=
          Nat.mul_le_mul_left _ (Nat.mul_le_mul (hab.trans hb) hb)
        _ = 2 ^ 256 := by norm_num
    exact ⟨_, ⟨(), ha, _, ⟨hproduct, rfl⟩, hfits.trans (by norm_num), rfl⟩, hfits, rfl⟩

theorem tokens1_eq_ok_iff (hab : a ≤ b) :
    tokens1 a b liquidity r = .ok n ↔
      n = r.round (liquidity * (holding .one b - holding .one a)) ∧ n < 2 ^ 64 := by
  rw [holding_one_sub hab, ← Rounding.div_eq_round (by norm_num)]
  simp only [tokens1, amount1, mulDiv]
  rw [Nat.min_eq_left hab, Nat.max_eq_right hab]
  simp only [bind_eq_ok, require_eq_ok, narrow_eq_ok, tokenAmount_eq_ok]
  constructor
  · rintro ⟨_, ⟨_, -, -, rfl⟩, hfits, rfl⟩
    exact ⟨rfl, hfits⟩
  · rintro ⟨rfl, hfits⟩
    exact ⟨_, ⟨(), by norm_num, hfits.trans (by norm_num), rfl⟩, hfits, rfl⟩

/-! ### The amounts of a range -/

/-- Prices at which the amounts of a position can be computed: its range lies in that of all ticks, and the
tick does not contradict the price. -/
structure Position.Priced (p : Position) (price : Nat) (tick : Int) : Prop where
  min_le : minTick ≤ p.lower
  lt : p.lower < p.upper
  le_max : p.upper ≤ maxTick
  agrees : Agrees price tick

namespace Position.Priced

variable (h : p.Priced price tick)
include h

theorem lower_pos : 0 < priceAt p.lower := priceAt_pos h.min_le (h.lt.le.trans h.le_max)

theorem lower_lt_upper : priceAt p.lower < priceAt p.upper := priceAt_lt h.min_le h.lt h.le_max

theorem upper_le : priceAt p.upper ≤ 2 ^ 96 := by
  have hle := priceAt_le_maxSqrtPrice (h.min_le.trans h.lt.le) h.le_max
  simp only [maxSqrtPrice] at hle
  omega

theorem sameSide_lower : SameSide tick price p.lower :=
  h.agrees.sameSide h.min_le (h.lt.le.trans h.le_max)

theorem sameSide_upper : SameSide tick price p.upper :=
  h.agrees.sameSide (h.min_le.trans h.lt.le) h.le_max

end Position.Priced

theorem amountsFor_zero (h : amountsFor price tick lower upper 0 r = .ok amounts) :
    amounts = ⟨0, 0⟩ := by
  unfold amountsFor at h
  rw [if_pos rfl] at h
  exact (Except.ok.inj h).symm

/-- The amounts of a range, by where the current tick lies. -/
theorem amountsFor_of_ne_zero (hne : n ≠ 0) : amountsFor price tick lower upper n r = .ok amounts ↔
    (minTick ≤ lower ∧ lower ≤ maxTick) ∧ (minTick ≤ upper ∧ upper ≤ maxTick) ∧
      if tick < lower then
        tokens0 (priceAt lower) (priceAt upper) n r = .ok amounts.zero ∧ amounts.one = 0
      else if tick < upper then
        tokens0 price (priceAt upper) n r = .ok amounts.zero ∧
          tokens1 (priceAt lower) price n r = .ok amounts.one
      else amounts.zero = 0 ∧ tokens1 (priceAt lower) (priceAt upper) n r = .ok amounts.one := by
  obtain ⟨n₀, n₁⟩ := amounts
  simp only [amountsFor]
  rw [if_neg hne]
  by_cases hbelow : tick < lower
  · simp only [if_pos hbelow, bind_eq_ok, sqrtPriceAt_eq_ok, pure, Except.pure, Except.ok.injEq,
      Pair.mk.injEq]
    constructor
    · rintro ⟨_, ⟨hlower, rfl⟩, _, ⟨hupper, rfl⟩, _, hzero, rfl, rfl⟩
      exact ⟨hlower, hupper, hzero, rfl⟩
    · rintro ⟨hlower, hupper, hzero, rfl⟩
      exact ⟨_, ⟨hlower, rfl⟩, _, ⟨hupper, rfl⟩, _, hzero, rfl, rfl⟩
  by_cases hinside : tick < upper
  · simp only [if_neg hbelow, if_pos hinside, bind_eq_ok, sqrtPriceAt_eq_ok, pure, Except.pure,
      Except.ok.injEq, Pair.mk.injEq]
    constructor
    · rintro ⟨_, ⟨hlower, rfl⟩, _, ⟨hupper, rfl⟩, _, hzero, _, hone, rfl, rfl⟩
      exact ⟨hlower, hupper, hzero, hone⟩
    · rintro ⟨hlower, hupper, hzero, hone⟩
      exact ⟨_, ⟨hlower, rfl⟩, _, ⟨hupper, rfl⟩, _, hzero, _, hone, rfl, rfl⟩
  · simp only [if_neg hbelow, if_neg hinside, bind_eq_ok, sqrtPriceAt_eq_ok, pure, Except.pure,
      Except.ok.injEq, Pair.mk.injEq]
    constructor
    · rintro ⟨_, ⟨hlower, rfl⟩, _, ⟨hupper, rfl⟩, _, hone, rfl, rfl⟩
      exact ⟨hlower, hupper, rfl, hone⟩
    · rintro ⟨hlower, hupper, rfl, hone⟩
      exact ⟨_, ⟨hlower, rfl⟩, _, ⟨hupper, rfl⟩, _, hone, rfl, rfl⟩

/-- **The amounts of a range** are given if they fit a token balance, and are what the liquidity is worth,
rounded as told. -/
theorem amountsFor_eq_ok_iff (h : p.Priced price tick) :
    amountsFor price tick p.lower p.upper n r = .ok amounts ↔
      ∀ x, amounts.get x = r.round (n * p.unitWorth price x) ∧ amounts.get x < 2 ^ 64 := by
  have hworthless : ∀ m : Nat, m = r.round 0 ∧ m < 2 ^ 64 ↔ m = 0 := by
    intro m
    rw [Rounding.round_zero]
    omega
  rw [Token.forall_iff, Pair.get_zero, Pair.get_one]
  by_cases hne : n = 0
  · subst hne
    rw [Nat.cast_zero, zero_mul, zero_mul, hworthless, hworthless]
    constructor
    · intro hamounts
      obtain rfl := amountsFor_zero hamounts
      exact ⟨rfl, rfl⟩
    · obtain ⟨n₀, n₁⟩ := amounts
      rintro ⟨rfl, rfl⟩
      exact if_pos rfl
  have hclamp := Position.clamp_eq h.lower_lt_upper.le h.sameSide_lower h.sameSide_upper
  rw [amountsFor_of_ne_zero hne, and_iff_right ⟨h.min_le, h.lt.le.trans h.le_max⟩,
    and_iff_right ⟨h.min_le.trans h.lt.le, h.le_max⟩]
  by_cases hbelow : tick < p.lower
  · -- all token 0
    rw [if_pos hbelow] at hclamp ⊢
    rw [Position.unitWorth_of_empty (x := .one) hclamp, mul_zero, hworthless]
    simp only [Position.unitWorth, Position.emptyPrice]
    rw [hclamp, ← tokens0_eq_ok_iff h.lower_pos h.lower_lt_upper.le h.upper_le]
  rw [if_neg hbelow] at hclamp ⊢
  by_cases hinside : tick < p.upper
  · rw [if_pos hinside] at hclamp ⊢
    simp only [Position.unitWorth, Position.emptyPrice]
    rw [hclamp, ← tokens0_eq_ok_iff h.agrees.price_pos (h.sameSide_upper.2 hinside) h.upper_le,
      ← tokens1_eq_ok_iff (h.sameSide_lower.1 (Int.not_lt.1 hbelow))]
  · -- all token 1
    rw [if_neg hinside] at hclamp ⊢
    rw [Position.unitWorth_of_empty (x := .zero) hclamp, mul_zero, hworthless]
    simp only [Position.unitWorth, Position.emptyPrice]
    rw [hclamp, ← tokens1_eq_ok_iff h.lower_lt_upper.le]

namespace Position

theorem le_clamp : priceAt p.lower ≤ p.clamp price := Nat.le_max_left _ _

theorem clamp_le (hrange : priceAt p.lower ≤ priceAt p.upper) : p.clamp price ≤ priceAt p.upper :=
  Nat.max_le.2 ⟨hrange, Nat.min_le_right _ _⟩

theorem unitWorth_nonneg (hlow : 0 < priceAt p.lower) (hrange : priceAt p.lower ≤ priceAt p.upper)
    (x : Token) : 0 ≤ p.unitWorth price x := by
  simp only [unitWorth]
  apply sub_nonneg.2
  cases x with
  | zero => exact holding_zero_anti (Nat.lt_of_lt_of_le hlow le_clamp) (clamp_le hrange)
  | one => exact holding_one_mono le_clamp

end Position

/-- The amounts of a range are rounded in favour of who rounds. -/
theorem amountsFor_bounds (h : p.Priced price tick)
    (hamounts : amountsFor price tick p.lower p.upper n r = .ok amounts) (x : Token) :
    r.Bounds (n * p.unitWorth price x) (amounts.get x) := by
  rw [((amountsFor_eq_ok_iff h).1 hamounts x).1]
  exact r.bounds_round (mul_nonneg (Nat.cast_nonneg n)
    (Position.unitWorth_nonneg h.lower_pos h.lower_lt_upper.le x))

/-- **Amounts that fit a token balance** can be released. -/
theorem succeeds_amountsFor_down (h : p.Priced price tick)
    (hworth : ∀ x, (n : ℚ) * p.unitWorth price x < 2 ^ 64) :
    Succeeds (amountsFor price tick p.lower p.upper n .down) := by
  refine ⟨Pair.ofFn fun x => Rounding.round .down (n * p.unitWorth price x), ?_⟩
  rw [amountsFor_eq_ok_iff h]
  intro x
  rw [Pair.get_ofFn]
  exact ⟨rfl, (Nat.floor_lt' (by norm_num)).2 (by exact_mod_cast hworth x)⟩

/-- **What a deposit asks for, a withdrawal returns**, less at most one unit of each token. -/
theorem exists_amountsFor_down (h : p.Priced price tick)
    (hup : amountsFor price tick p.lower p.upper n .up = .ok amounts) :
    ∃ released, amountsFor price tick p.lower p.upper n .down = .ok released ∧
      ∀ x, released.get x ≤ amounts.get x ∧ amounts.get x ≤ released.get x + 1 := by
  rw [amountsFor_eq_ok_iff h] at hup
  have hnear : ∀ x, Rounding.round .down (n * p.unitWorth price x) ≤ amounts.get x ∧
      amounts.get x ≤ Rounding.round .down (n * p.unitWorth price x) + 1 := by
    intro x
    rw [(hup x).1]
    exact ⟨Nat.floor_le_ceil _, Nat.ceil_le_floor_add_one _⟩
  refine ⟨Pair.ofFn fun x => Rounding.round .down (n * p.unitWorth price x), ?_, fun x => ?_⟩
  · rw [amountsFor_eq_ok_iff h]
    intro x
    rw [Pair.get_ofFn]
    exact ⟨rfl, (hnear x).1.trans_lt (hup x).2⟩
  · rw [Pair.get_ofFn]
    exact hnear x

end Amounts

end Clmm
