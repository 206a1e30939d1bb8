import Clmm.Proofs.PriceOrder
import Mathlib.Analysis.Real.Sqrt
import Mathlib.Tactic.NormNum

/-!
# Clmm.Proofs.PriceAccuracy

**A tick's price is `1.0001 ^ (t / 2)`, up to two units and a share of `2 ^ -64`.**

The exact ratio of exponent `n` is `decay ^ n`, where `decay` is the square root of `1 / 1.0001`. The
table of factors is checked against itself: the first factor is the rounded square root, and each later
one is the rounded square of the one before it (`NearSquare`). So every factor approximates its power of
`decay` within an error that doubles from one to the next, and no factor is compared with a real number
but the first.

Along the product the errors add up, one unit more for each rounding (`Approximates.mulShift`). Over all
exponents they stay below `2 ^ 21` of the `2 ^ 90` units that every ratio has, so that neither the last
division nor the inversion for a positive tick can turn them into more than the stated share.
-/

namespace Clmm

/-! ### Ratios near a power -/

/-- The square root of `1 / 1.0001`: the exact ratio of exponent 1. -/
noncomputable def decay : ℝ := √(10000 / 10001)

theorem decay_sq : decay ^ 2 = 10000 / 10001 := Real.sq_sqrt (by norm_num)

theorem decay_pos : 0 < decay := Real.sqrt_pos.2 (by norm_num)

theorem decay_pow_le_one (n : Nat) : decay ^ n ≤ 1 :=
  pow_le_one₀ decay_pos.le (Real.sqrt_le_one.2 (by norm_num))

/-- `x` is `decay ^ n` in 128.128 fixed point, up to `k` units. -/
def Approximates (k x n : Nat) : Prop := |(x : ℝ) - 2 ^ 128 * decay ^ n| ≤ (k : ℝ)

theorem Approximates.mono {k l x n : Nat} (h : Approximates k x n) (hkl : k ≤ l) :
    Approximates l x n :=
  h.trans (by exact_mod_cast hkl)

theorem share_le_one {f : Nat} (h : f ≤ 2 ^ 128) : (f : ℝ) / 2 ^ 128 ≤ 1 := by
  rw [div_le_one (by positivity)]
  exact_mod_cast h

/-- A product is rounded by at most one unit. -/
theorem mulShift128_near (x f : Nat) :
    |(mulShift128 x f : ℝ) - x * f / 2 ^ 128| ≤ (1 : ℝ) := by
  have hle : mulShift128 x f * 2 ^ 128 ≤ x * f := Nat.div_mul_le_self _ _
  have hlt : x * f < mulShift128 x f * 2 ^ 128 + 2 ^ 128 := Nat.lt_div_mul_add (by positivity)
  have hle' : (mulShift128 x f : ℝ) * 2 ^ 128 ≤ x * f := by exact_mod_cast hle
  have hlt' : (x : ℝ) * f < mulShift128 x f * 2 ^ 128 + 2 ^ 128 := by exact_mod_cast hlt
  rw [abs_le]
  constructor <;> linarith

/-- The errors of two ratios add up in their product, with one unit more for its rounding. -/
theorem Approximates.mulShift {k e x f m n : Nat} (hx : Approximates k x m) (hf : Approximates e f n)
    (hle : f ≤ 2 ^ 128) : Approximates (k + e + 1) (mulShift128 x f) (m + n) := by
  have hleft : |((x : ℝ) - 2 ^ 128 * decay ^ m) * (f / 2 ^ 128)| ≤ (k : ℝ) := by
    rw [abs_mul, abs_of_nonneg (by positivity : (0 : ℝ) ≤ f / 2 ^ 128)]
    exact (mul_le_of_le_one_right (abs_nonneg _) (share_le_one hle)).trans hx
  have hright : |decay ^ m * ((f : ℝ) - 2 ^ 128 * decay ^ n)| ≤ (e : ℝ) := by
    rw [abs_mul, abs_of_pos (pow_pos decay_pos m)]
    exact (mul_le_of_le_one_left (abs_nonneg _) (decay_pow_le_one m)).trans hf
  have hrounded := mulShift128_near x f
  have hsplit : (mulShift128 x f : ℝ) - 2 ^ 128 * decay ^ (m + n) =
      (x - 2 ^ 128 * decay ^ m) * (f / 2 ^ 128) + decay ^ m * (f - 2 ^ 128 * decay ^ n) +
        (mulShift128 x f - x * f / 2 ^ 128) := by
    ring
  simp only [Approximates]
  rw [hsplit]
  push_cast
  exact (abs_add_three _ _ _).trans (add_le_add (add_le_add hleft hright) hrounded)

/-! ### The table of factors -/

/-- `g` is the square of `f` in 128.128 fixed point, up to two units. -/
def NearSquare (f g : Nat) : Prop :=
  g * 2 ^ 128 ≤ f * f + 2 * 2 ^ 128 ∧ f * f ≤ g * 2 ^ 128 + 2 * 2 ^ 128

instance (f g : Nat) : Decidable (NearSquare f g) :=
  inferInstanceAs (Decidable (_ ∧ _))

theorem NearSquare.near {f g : Nat} (h : NearSquare f g) : |(g : ℝ) - f * f / 2 ^ 128| ≤ (2 : ℝ) := by
  obtain ⟨hle, hge⟩ := h
  have hle' : (g : ℝ) * 2 ^ 128 ≤ f * f + 2 * 2 ^ 128 := by exact_mod_cast hle
  have hge' : (f : ℝ) * f ≤ g * 2 ^ 128 + 2 * 2 ^ 128 := by exact_mod_cast hge
  rw [abs_le]
  constructor <;> linarith

/-- Squaring doubles the exponent and the error. -/
theorem Approximates.square {e f g n : Nat} (hf : Approximates e f n) (hg : NearSquare f g)
    (hle : f ≤ 2 ^ 128) : Approximates (2 * e + 2) g (2 * n) := by
  have hsum : |(f : ℝ) / 2 ^ 128 + decay ^ n| ≤ 2 := by
    rw [abs_of_nonneg (by have := pow_pos decay_pos n; positivity)]
    linarith [share_le_one hle, decay_pow_le_one n]
  have hproduct : |((f : ℝ) - 2 ^ 128 * decay ^ n) * (f / 2 ^ 128 + decay ^ n)| ≤ (e : ℝ) * 2 := by
    rw [abs_mul]
    exact mul_le_mul hf hsum (abs_nonneg _) (Nat.cast_nonneg _)
  have hrounded := hg.near
  have hsplit : (g : ℝ) - 2 ^ 128 * decay ^ (2 * n) =
      (f - 2 ^ 128 * decay ^ n) * (f / 2 ^ 128 + decay ^ n) + (g - f * f / 2 ^ 128) := by
    ring
  simp only [Approximates]
  rw [hsplit]
  push_cast
  exact (abs_add_le _ _).trans (by linarith)

theorem factors_isChain : (lowestFactor :: higherFactors).IsChain NearSquare := by decide

/-- The first factor is the square root of `1 / 1.0001`, rounded. -/
theorem approximates_lowestFactor : Approximates 1 lowestFactor 1 := by
  have hlow : (lowestFactor - 1 : ℝ) / 2 ^ 128 ≤ decay :=
    Real.le_sqrt_of_sq_le (by norm_num [lowestFactor])
  have hhigh : decay ≤ (lowestFactor + 1 : ℝ) / 2 ^ 128 :=
    (Real.sqrt_le_left (by positivity)).2 (by norm_num [lowestFactor])
  rw [div_le_iff₀ (by positivity)] at hlow
  rw [le_div_iff₀ (by positivity)] at hhigh
  simp only [Approximates, pow_one, Nat.cast_one]
  rw [abs_le]
  constructor <;> linarith

theorem approximates_one : Approximates 1 (2 ^ 128 - 1) 0 := by
  simp only [Approximates, pow_zero, Nat.cast_one]
  rw [abs_le]
  constructor <;> norm_num

/-! ### The product -/

/-- A product of factors approximates the power whose exponent has their bits. The error of a factor
doubles from one to the next, so the errors together are bounded by the last one. -/
theorem approximates_applyFactors {fs : List Nat} {f : Nat} (hchain : (f :: fs).IsChain NearSquare)
    (hlt : ∀ g ∈ f :: fs, g < 2 ^ 128) {e n : Nat} (hf : Approximates e f n) {k x m : Nat}
    (hx : Approximates k x m) {j : Nat} (hj : j < 2 ^ fs.length) :
    Approximates (k + (2 * e + 4) * (2 ^ fs.length - 1)) (applyFactors x fs j) (m + 2 * n * j) := by
  induction fs generalizing f e n k x m j with
  | nil =>
      obtain rfl : j = 0 := by simpa using hj
      simpa [applyFactors] using hx
  | cons g gs ih =>
      rw [List.isChain_cons_cons] at hchain
      obtain ⟨hsquare, hchain⟩ := hchain
      have hg := hf.square hsquare (hlt f List.mem_cons_self).le
      have hrest : ∀ g' ∈ g :: gs, g' < 2 ^ 128 := fun g' hmem =>
        hlt g' (List.mem_cons_of_mem _ hmem)
      rw [List.length_cons, Nat.pow_succ] at hj
      -- the product takes the factor if the lowest bit is set, and only then a new error
      have hnext : Approximates (k + (2 * e + 3)) (if j % 2 = 1 then mulShift128 x g else x)
          (m + 2 * n * (j % 2)) := by
        rcases Nat.mod_two_eq_zero_or_one j with hbit | hbit
        · rw [if_neg (by omega), hbit, Nat.mul_zero, Nat.add_zero]
          exact hx.mono (by omega)
        · rw [if_pos hbit, hbit, Nat.mul_one]
          exact hx.mulShift hg (hrest g List.mem_cons_self).le
      have hproduct := ih hchain hrest hg hnext (j := j / 2) (by omega)
      have hexponent : m + 2 * n * (j % 2) + 2 * (2 * n) * (j / 2) = m + 2 * n * j := by
        conv_rhs => rw [← Nat.mod_add_div j 2]
        ring
      rw [hexponent] at hproduct
      simp only [applyFactors]
      refine hproduct.mono ?_
      have hpos : 1 ≤ 2 ^ gs.length := Nat.one_le_two_pow
      rw [List.length_cons, Nat.pow_succ]
      obtain ⟨l, hl⟩ := Nat.exists_eq_add_of_le hpos
      rw [hl, show (1 + l) * 2 - 1 = 1 + 2 * l by omega, show 1 + l - 1 = l by omega]
      nlinarith

/-- **Every ratio is its power of `decay`, up to `2 ^ 21` units.** -/
theorem approximates_inverseRatio {n : Nat} (hn : n < 2 ^ 19) :
    Approximates (2 ^ 21) (inverseRatio n) n := by
  have hstart : Approximates 1 (if n % 2 = 1 then lowestFactor else 2 ^ 128 - 1) (n % 2) := by
    rcases Nat.mod_two_eq_zero_or_one n with hbit | hbit
    · rw [if_neg (by omega), hbit]
      exact approximates_one
    · rw [if_pos hbit, hbit]
      exact approximates_lowestFactor
  have hlt : ∀ f ∈ lowestFactor :: higherFactors, f < 2 ^ 128 := by decide
  have hlength : higherFactors.length = 18 := rfl
  have hproduct := approximates_applyFactors factors_isChain hlt approximates_lowestFactor hstart
    (j := n / 2) (by rw [hlength]; omega)
  rw [hlength, show n % 2 + 2 * 1 * (n / 2) = n by omega] at hproduct
  exact hproduct.mono (by decide)

/-! ### Prices -/

/-- The exact square-root price of a tick, in 64.64 fixed point. -/
noncomputable def exactPrice (t : Int) : ℝ := 2 ^ 64 * decay ^ (-t)

theorem exactPrice_sq (t : Int) : exactPrice t ^ 2 = 2 ^ 128 * (10001 / 10000) ^ t := by
  have hinv : ((10001 : ℝ) / 10000) = (decay ^ 2)⁻¹ := by
    rw [decay_sq]
    norm_num
  have hcomm : (decay ^ (-t)) ^ 2 = (decay ^ 2) ^ (-t) := by
    rw [← zpow_natCast, ← zpow_natCast, ← zpow_mul, ← zpow_mul, mul_comm]
  simp only [exactPrice]
  rw [mul_pow, hcomm, hinv, inv_zpow', ← pow_mul]

/-- At or below zero the price is the ratio itself, cut to 64 fractional bits. -/
theorem exactPrice_of_nonpos {t : Int} (ht : t ≤ 0) :
    exactPrice t * 2 ^ 64 = 2 ^ 128 * decay ^ t.natAbs := by
  simp only [exactPrice]
  rw [show -t = (t.natAbs : Int) by omega, zpow_natCast]
  ring

/-- Above zero it is the reciprocal of the ratio. -/
theorem exactPrice_of_pos {t : Int} (ht : 0 < t) :
    exactPrice t * (2 ^ 128 * decay ^ t.natAbs) = 2 ^ 192 := by
  simp only [exactPrice]
  rw [show -t = -(t.natAbs : Int) by omega, zpow_neg, zpow_natCast]
  have := (pow_pos decay_pos t.natAbs).ne'
  field_simp

/-- The price `p` is within two units and a share of `2 ^ -64` of the exact price of `t`. -/
structure Accurate (p : Nat) (t : Int) : Prop where
  below : ((p : ℝ) - 2) * (1 - 1 / 2 ^ 64) ≤ exactPrice t
  above : exactPrice t ≤ (p + 2) * (1 + 1 / 2 ^ 64)

/-- No price is so low that two units less would be negative. -/
theorem two_le_priceAt {t : Int} (hlow : minTick ≤ t) (hhigh : t ≤ maxTick) : (2 : ℝ) ≤ priceAt t := by
  exact_mod_cast (show 2 ≤ minSqrtPrice by decide).trans (minSqrtPrice_le_priceAt hlow hhigh)

theorem accurate_of_nonpos {t : Int} (hlow : minTick ≤ t) (ht : t ≤ 0) : Accurate (priceAt t) t := by
  have hnear := approximates_inverseRatio (n := t.natAbs) (by simp only [minTick] at hlow; omega)
  simp only [Approximates] at hnear
  rw [← exactPrice_of_nonpos ht, abs_le] at hnear
  obtain ⟨hlo, hhi⟩ := hnear
  push_cast at hlo hhi
  have hup : (inverseRatio t.natAbs : ℝ) ≤ priceAt t * 2 ^ 64 := by
    rw [priceAt_of_nonpos ht]
    exact_mod_cast le_divUp_mul (by positivity)
  have hdown : (priceAt t : ℝ) * 2 ^ 64 < inverseRatio t.natAbs + 2 ^ 64 := by
    rw [priceAt_of_nonpos ht]
    exact_mod_cast divUp_mul_lt (by positivity)
  have hmin := two_le_priceAt hlow (ht.trans (by decide))
  constructor <;> linarith

/-- A rounded reciprocal of a ratio against the exact reciprocal of a number near it. -/
theorem reciprocal_near {r : Nat} {x y : ℝ} (hr : 2 ^ 90 ≤ r) (hnear : |(r : ℝ) - x| ≤ 2 ^ 21)
    (hxy : y * x = 2 ^ 192) :
    (((2 ^ 192 / r : Nat) : ℝ) - 1) * (1 - 1 / 2 ^ 64) ≤ y ∧
      y ≤ ((2 ^ 192 / r : Nat) + 3) * (1 + 1 / 2 ^ 64) := by
  have hdown : 2 ^ 192 / r * r ≤ 2 ^ 192 := Nat.div_mul_le_self _ _
  have hup : 2 ^ 192 < 2 ^ 192 / r * r + r := Nat.lt_div_mul_add (by omega)
  generalize 2 ^ 192 / r = q at *
  have hr' : (2 ^ 90 : ℝ) ≤ r := by exact_mod_cast hr
  have hdown' : (q : ℝ) * r ≤ 2 ^ 192 := by exact_mod_cast hdown
  have hup' : (2 ^ 192 : ℝ) < q * r + r := by exact_mod_cast hup
  have hq : (0 : ℝ) ≤ q := Nat.cast_nonneg q
  rw [abs_le] at hnear
  have hx : 0 < x := by linarith
  -- the share of `2 ^ -64` is more than the ratios lie apart
  have hless : (1 - 1 / 2 ^ 64) * x ≤ r := by linarith
  have hmore : (r : ℝ) ≤ (1 + 1 / 2 ^ 64) * x := by linarith
  constructor
  · apply le_of_mul_le_mul_right ?_ hx
    calc ((q : ℝ) - 1) * (1 - 1 / 2 ^ 64) * x ≤ q * ((1 - 1 / 2 ^ 64) * x) := by linarith
      _ ≤ (q : ℝ) * r := mul_le_mul_of_nonneg_left hless hq
      _ ≤ 2 ^ 192 := hdown'
      _ = y * x := hxy.symm
  · apply le_of_mul_le_mul_right ?_ hx
    calc y * x = 2 ^ 192 := hxy
      _ ≤ (q + 3) * r := by linarith
      _ ≤ (q + 3) * ((1 + 1 / 2 ^ 64) * x) := mul_le_mul_of_nonneg_left hmore (by positivity)
      _ = (q + 3) * (1 + 1 / 2 ^ 64) * x := by ring

theorem accurate_of_pos {t : Int} (ht : 0 < t) (hhigh : t ≤ maxTick) : Accurate (priceAt t) t := by
  simp only [maxTick] at hhigh
  have hnear := approximates_inverseRatio (n := t.natAbs) (by omega)
  simp only [Approximates, Nat.cast_pow, Nat.cast_ofNat] at hnear
  obtain ⟨hbelow, habove⟩ := reciprocal_near (le_inverseRatio _) hnear (exactPrice_of_pos ht)
  rw [priceAt_of_pos ht]
  constructor <;> push_cast <;> linarith

theorem accurate_priceAt {t : Int} (hlow : minTick ≤ t) (hhigh : t ≤ maxTick) :
    Accurate (priceAt t) t := by
  rcases lt_or_ge 0 t with ht | ht
  · exact accurate_of_pos ht hhigh
  · exact accurate_of_nonpos hlow ht

/-- **The price of a tick is accurate.** For every tick in range the square of the price in 64.64 fixed
point is `1.0001 ^ t`, up to two units of the price and a share of `2 ^ -64`. -/
theorem sqrtPriceAt_accurate {t : Int} (hlow : minTick ≤ t) (hhigh : t ≤ maxTick) :
    ∃ p, sqrtPriceAt t = .ok p ∧
      (((p : ℚ) - 2) * (1 - 1 / 2 ^ 64)) ^ 2 ≤ 2 ^ 128 * (10001 / 10000) ^ t ∧
      2 ^ 128 * (10001 / 10000) ^ t ≤ (((p : ℚ) + 2) * (1 + 1 / 2 ^ 64)) ^ 2 := by
  obtain ⟨hbelow, habove⟩ := accurate_priceAt hlow hhigh
  have hmin := two_le_priceAt hlow hhigh
  refine ⟨priceAt t, sqrtPriceAt_eq_ok.2 ⟨⟨hlow, hhigh⟩, rfl⟩, ?_, ?_⟩
  · have hsq : (((priceAt t : ℝ) - 2) * (1 - 1 / 2 ^ 64)) ^ 2 ≤ 2 ^ 128 * (10001 / 10000) ^ t := by
      rw [← exactPrice_sq]
      exact pow_le_pow_left₀ (mul_nonneg (by linarith) (by norm_num)) hbelow 2
    rw [← Rat.cast_le (K := ℝ)]
    push_cast
    exact hsq
  · have hsq : (2 : ℝ) ^ 128 * (10001 / 10000) ^ t ≤ (((priceAt t : ℝ) + 2) * (1 + 1 / 2 ^ 64)) ^ 2 := by
      rw [← exactPrice_sq]
      have hpos : 0 ≤ exactPrice t := mul_nonneg (by positivity) (zpow_nonneg decay_pos.le _)
      exact pow_le_pow_left₀ hpos habove 2
    rw [← Rat.cast_le (K := ℝ)]
    push_cast
    exact hsq

/-- The greatest price is `1.0001 ^ 443636`, to within the bound. -/
theorem sqrtPriceAt_accurate_maxTick : (minTick ≤ maxTick ∧ maxTick ≤ maxTick) ∧
    (((maxSqrtPrice : ℚ) - 2) * (1 - 1 / 2 ^ 64)) ^ 2 ≤ 2 ^ 128 * (10001 / 10000) ^ maxTick ∧
    2 ^ 128 * (10001 / 10000) ^ maxTick ≤ (((maxSqrtPrice : ℚ) + 2) * (1 + 1 / 2 ^ 64)) ^ 2 := by
  obtain ⟨p, hp, hbelow, habove⟩ := sqrtPriceAt_accurate (t := maxTick) (by decide) (by decide)
  rw [sqrtPriceAt_eq_ok, priceAt_maxTick] at hp
  obtain ⟨-, rfl⟩ := hp
  exact ⟨by decide, hbelow, habove⟩

end Clmm
