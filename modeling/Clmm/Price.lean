import Clmm.Arith

/-!
# Clmm.Price

**Ticks and prices.** A price is kept as its square root in 64.64 fixed point. Tick `t` stands for
the price `1.0001 ^ t`, so the square-root price of a tick is `1.0001 ^ (t / 2) * 2 ^ 64`.

Design points:

* `priceAt` is total: it is the formula, and `sqrtPriceAt` is the formula behind the range check.
  It multiplies, for each set bit `i` of `|t|`, the precomputed factor `1.0001 ^ (-2 ^ i / 2)` in
  128.128 fixed point, and inverts the product for a positive tick.
* The inverse and the price that is one more are to fit in 128 bits. They always do
  (`narrow_inverted_eq`), so `priceAt` does not check it.
* `tickAt` is the inverse by bisection: the greatest tick whose price is not above the given one.
  The range has fewer than `2 ^ 20` ticks, so twenty halvings decide.
-/

namespace Clmm

/-- The least tick. -/
def minTick : Int := -443636

/-- The greatest tick. -/
def maxTick : Int := 443636

/-- The price of the least tick. -/
def minSqrtPrice : Nat := 4295048017

/-- The price of the greatest tick. -/
def maxSqrtPrice : Nat := 79226673515401279992447579062

/-- The factor of the lowest bit: `1.0001 ^ (-1 / 2)` in 128.128 fixed point. -/
def lowestFactor : Nat := 0xfffcb933bd6fad37aa2d162d1a594001

/-- The factors of the higher bits, lowest first: `1.0001 ^ (-2 ^ i / 2)` for `i = 1 … 18`. -/
def higherFactors : List Nat :=
  [0xfff97272373d413259a46990580e213a,
   0xfff2e50f5f656932ef12357cf3c7fdcc,
   0xffe5caca7e10e4e61c3624eaa0941cd0,
   0xffcb9843d60f6159c9db58835c926644,
   0xff973b41fa98c081472e6896dfb254c0,
   0xff2ea16466c96a3843ec78b326b52861,
   0xfe5dee046a99a2a811c461f1969c3053,
   0xfcbe86c7900a88aedcffc83b479aa3a4,
   0xf987a7253ac413176f2b074cf7815e54,
   0xf3392b0822b70005940c7a398e4b70f3,
   0xe7159475a2c29b7443b29c7fa6e889d9,
   0xd097f3bdfd2022b8845ad8f792aa5825,
   0xa9f746462d870fdf8a65dc1f90e061e5,
   0x70d869a156d2a1b890bb3df62baf32f7,
   0x31be135f97d08fd981231505542fcfa6,
   0x9aa508b5b7a84e1c677de54f3e99bc9,
   0x5d6af8dedb81196699c329225ee604,
   0x2216e584f5fa1ea926041bedfe98]

/-- Multiplies `ratio` by the factor of every set bit of `n`, lowest bit first. -/
def applyFactors (ratio : Nat) : List Nat → Nat → Nat
  | [], _ => ratio
  | f :: fs, n => applyFactors (if n % 2 = 1 then mulShift128 ratio f else ratio) fs (n / 2)

/-- `1.0001 ^ (-n / 2)` in 128.128 fixed point, where one is written as `2 ^ 128 - 1`. -/
def inverseRatio (n : Nat) : Nat :=
  applyFactors (if n % 2 = 1 then lowestFactor else 2 ^ 128 - 1) higherFactors (n / 2)

/-- The square-root price of a tick, rounded up. Nothing in it has to be checked: the ratio and its
inverse fit in 128 bits (`inverseRatio_lt`, `narrow_inverted_eq`). -/
def priceAt (t : Int) : Nat :=
  let ratio := inverseRatio t.natAbs
  if 0 < t then 2 ^ 192 / ratio + 1 else divUp ratio (2 ^ 64)

/-! ### The widths of the formula -/

theorem higherFactors_lt : ∀ f ∈ higherFactors, f < 2 ^ 128 := by decide

section Widths

variable {fs : List Nat} {lo hi : Nat}

/-- Factors only lower a product. -/
theorem applyFactors_le (hfs : ∀ f ∈ fs, f < 2 ^ 128) (h : lo ≤ hi) (n : Nat) :
    applyFactors lo fs n ≤ hi := by
  induction fs generalizing lo n with
  | nil => exact h
  | cons f fs ih =>
      obtain ⟨hf, hrest⟩ := List.forall_mem_cons.1 hfs
      apply ih hrest
      split
      · exact Nat.le_trans (mulShift128_le (Nat.le_of_lt hf)) h
      · exact h

/-- A product is least with all its factors. -/
theorem foldl_mulShift128_le (hfs : ∀ f ∈ fs, f < 2 ^ 128) (h : lo ≤ hi) (n : Nat) :
    fs.foldl mulShift128 lo ≤ applyFactors hi fs n := by
  induction fs generalizing lo hi n with
  | nil => exact h
  | cons f fs ih =>
      obtain ⟨hf, hrest⟩ := List.forall_mem_cons.1 hfs
      apply ih hrest
      split
      · exact mulShift128_le_mulShift128 h
      · exact Nat.le_trans (mulShift128_le (Nat.le_of_lt hf)) h

end Widths

/-- The ratio fits in 128 bits. -/
theorem inverseRatio_lt (n : Nat) : inverseRatio n < 2 ^ 128 := by
  have hstart : (if n % 2 = 1 then lowestFactor else 2 ^ 128 - 1) ≤ 2 ^ 128 - 1 := by
    split
    · decide
    · exact Nat.le_refl _
  exact Nat.lt_of_le_pred (by decide) (applyFactors_le higherFactors_lt hstart (n / 2))

/-- The ratio stays above the product of all factors. -/
theorem le_inverseRatio (n : Nat) : 2 ^ 90 ≤ inverseRatio n := by
  have hstart : lowestFactor ≤ if n % 2 = 1 then lowestFactor else 2 ^ 128 - 1 := by
    split
    · exact Nat.le_refl _
    · decide
  calc 2 ^ 90 ≤ higherFactors.foldl mulShift128 lowestFactor := by decide
    _ ≤ inverseRatio n := foldl_mulShift128_le higherFactors_lt hstart (n / 2)

/-- **The price of a positive tick needs no check**: with the inverse and then the price narrowed to 128
bits it comes out the same. -/
theorem narrow_inverted_eq {t : Int} (ht : 0 < t) :
    (do let inverted ← narrow 128 (2 ^ 192 / inverseRatio t.natAbs) .mathOverflow
        narrow 128 (inverted + 1) .mathOverflow) = .ok (priceAt t) := by
  have hle : 2 ^ 192 / inverseRatio t.natAbs ≤ 2 ^ 192 / 2 ^ 90 :=
    Nat.div_le_div_left (le_inverseRatio _) (by decide)
  rw [Outcome.bind_eq_ok]
  refine ⟨_, narrow_eq_ok.2 ⟨by omega, rfl⟩, narrow_eq_ok.2 ⟨by omega, ?_⟩⟩
  simp only [priceAt]
  rw [if_pos ht]

/-! ### Ticks and prices in range -/

/-- The square-root price of a tick, refused outside the tick range. -/
def sqrtPriceAt (t : Int) : Outcome Nat := do
  require (minTick ≤ t ∧ t ≤ maxTick) .tickOutOfRange
  return priceAt t

/-- Halves the interval from `low` to `high` at most `n` times, keeping
`priceAt low ≤ p < priceAt (high + 1)`. -/
def bisectTick (p : Nat) : Nat → Int → Int → Int
  | 0, low, _ => low
  | n + 1, low, high =>
    if low < high then
      let mid := low + (high - low + 1) / 2
      if priceAt mid ≤ p then bisectTick p n mid high else bisectTick p n low (mid - 1)
    else low

/-- The greatest tick whose price is at most `p`, refused outside the price range. -/
def tickAt (p : Nat) : Outcome Int := do
  require (minSqrtPrice ≤ p ∧ p ≤ maxSqrtPrice) .sqrtPriceOutOfRange
  return bisectTick p 20 minTick maxTick

end Clmm
