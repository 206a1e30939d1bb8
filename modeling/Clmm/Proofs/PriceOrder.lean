import Clmm.Price
import Mathlib.Tactic.Linarith
import Mathlib.Tactic.Ring

/-!
# Clmm.Proofs.PriceOrder

**Prices of ticks rise strictly, and `tickAt` finds the tick below a price.**

The price formula multiplies one rounded factor for every set bit of the tick. Two neighbouring
numbers `n` and `n + 1` agree above the lowest clear bit of `n`, so the two products differ only in
how they begin: `carryGap` checks, for each of the nineteen places where that bit can be, that they
begin far enough apart. What is left is that common factors keep two products apart
(`Apart.mulShift`), up to one unit of rounding each. No tick is ever evaluated.

The bisection needs no order at all for its invariant; the order makes its answer unique.
-/

namespace Clmm

/-! ### Products that stay apart -/

/-- `hi` exceeds `lo` by a share of `2 ^ -15`, up to `k` units of rounding. -/
def Apart (k hi lo : Nat) : Prop := (2 ^ 15 + 1) * lo ≤ 2 ^ 15 * (hi + k)

instance (k hi lo : Nat) : Decidable (Apart k hi lo) := inferInstanceAs (Decidable (_ ≤ _))

/-- A common factor keeps two products apart; rounding costs at most one more unit. -/
theorem Apart.mulShift {k hi lo f : Nat} (h : Apart k hi lo) (hf : f < 2 ^ 128) :
    Apart (k + 1) (mulShift128 hi f) (mulShift128 lo f) := by
  simp only [Apart, mulShift128] at *
  have hlo : lo * f / 2 ^ 128 * 2 ^ 128 ≤ lo * f := Nat.div_mul_le_self _ _
  have hhi : hi * f < (hi * f / 2 ^ 128 + 1) * 2 ^ 128 := by
    have := Nat.lt_div_mul_add (a := hi * f) (b := 2 ^ 128) (by positivity)
    linarith
  have hscaled : (2 ^ 15 + 1) * (lo * f) ≤ 2 ^ 15 * (hi * f + k * f) := by
    have := Nat.mul_le_mul_right f h
    linarith
  have hk : k * f ≤ k * 2 ^ 128 := Nat.mul_le_mul_left k hf.le
  apply Nat.le_of_mul_le_mul_right (c := 2 ^ 128) ?_ (by positivity)
  linarith

theorem applyFactors_apart {fs : List Nat} (hfs : ∀ f ∈ fs, f < 2 ^ 128) {k hi lo : Nat}
    (h : Apart k hi lo) (n : Nat) :
    Apart (k + fs.length) (applyFactors hi fs n) (applyFactors lo fs n) := by
  induction fs generalizing k hi lo n with
  | nil => exact h
  | cons f fs ih =>
      obtain ⟨hf, hrest⟩ := List.forall_mem_cons.1 hfs
      -- both products take the factor or neither does
      have hnext : Apart (k + 1) (if n % 2 = 1 then mulShift128 hi f else hi)
          (if n % 2 = 1 then mulShift128 lo f else lo) := by
        by_cases hn : n % 2 = 1
        · rw [if_pos hn, if_pos hn]
          exact h.mulShift hf
        · rw [if_neg hn, if_neg hn]
          simp only [Apart] at *
          omega
      have := ih hrest hnext (n / 2)
      rw [List.length_cons, Nat.add_comm fs.length 1, ← Nat.add_assoc]
      exact this

/-- Checks, for each place where a carry can stop, that the product `hi` of all factors below it is
apart from the single factor at it, which is taken of `lo`. -/
def carryGap (hi lo : Nat) : List Nat → Bool
  | [] => true
  | f :: fs => decide (Apart 0 hi (mulShift128 lo f)) && carryGap (mulShift128 hi f) lo fs

/-- Adding one to the exponent moves the products apart: the carry stops at the lowest clear bit, and
above it both exponents have the same bits. -/
theorem applyFactors_succ_apart {fs : List Nat} (hfs : ∀ f ∈ fs, f < 2 ^ 128) {hi lo : Nat}
    (hgap : carryGap hi lo fs = true) {n : Nat} (hn : n + 1 < 2 ^ fs.length) :
    Apart fs.length (applyFactors hi fs n) (applyFactors lo fs (n + 1)) := by
  induction fs generalizing hi n with
  | nil => simp at hn
  | cons f fs ih =>
      have hrest := (List.forall_mem_cons.1 hfs).2
      simp only [carryGap, Bool.and_eq_true, decide_eq_true_eq] at hgap
      obtain ⟨hhere, hgap⟩ := hgap
      rw [List.length_cons, Nat.pow_succ] at hn
      simp only [applyFactors]
      rcases Nat.mod_two_eq_zero_or_one n with hbit | hbit
      · -- the carry stops here
        rw [if_neg (by omega), if_pos (by omega), show (n + 1) / 2 = n / 2 by omega]
        have := applyFactors_apart hrest hhere (n / 2)
        simp only [Apart] at *
        rw [List.length_cons]
        omega
      · -- the carry goes on, and only the product of `n` takes the factor
        rw [if_pos hbit, if_neg (by omega), show (n + 1) / 2 = n / 2 + 1 by omega]
        have := ih hrest hgap (n := n / 2) (by omega)
        simp only [Apart] at *
        rw [List.length_cons]
        omega

/-! ### The ratio falls -/

theorem inverseRatio_apart {n : Nat} (hn : n + 1 < 2 ^ 19) :
    Apart 18 (inverseRatio n) (inverseRatio (n + 1)) := by
  simp only [inverseRatio]
  have hlength : higherFactors.length = 18 := rfl
  -- the lowest factor is the start of the product, so its bit is treated apart
  rcases Nat.mod_two_eq_zero_or_one n with hbit | hbit
  · rw [if_neg (by omega), if_pos (by omega), show (n + 1) / 2 = n / 2 by omega]
    have hstart : Apart 0 (2 ^ 128 - 1) lowestFactor := by decide
    have := applyFactors_apart higherFactors_lt hstart (n / 2)
    rwa [hlength, Nat.zero_add] at this
  · rw [if_pos hbit, if_neg (by omega), show (n + 1) / 2 = n / 2 + 1 by omega]
    have hgap : carryGap lowestFactor (2 ^ 128 - 1) higherFactors = true := by decide +kernel
    have := applyFactors_succ_apart higherFactors_lt hgap (n := n / 2) (by rw [hlength]; omega)
    rwa [hlength] at this

/-- From one exponent to the next the ratio loses at least `2 ^ 74`. -/
theorem inverseRatio_succ_add_le {n : Nat} (hn : n + 1 < 2 ^ 19) :
    inverseRatio (n + 1) + 2 ^ 74 ≤ inverseRatio n := by
  have hbound := le_inverseRatio (n + 1)
  have hapart := inverseRatio_apart hn
  simp only [Apart] at hapart
  omega

/-! ### Prices rise -/

theorem priceAt_of_nonpos {t : Int} (ht : t ≤ 0) :
    priceAt t = divUp (inverseRatio t.natAbs) (2 ^ 64) := by
  simp only [priceAt]
  rw [if_neg (by omega)]

theorem priceAt_of_pos {t : Int} (ht : 0 < t) :
    priceAt t = 2 ^ 192 / inverseRatio t.natAbs + 1 := by
  simp only [priceAt]
  rw [if_pos ht]

@[simp] theorem priceAt_minTick : priceAt minTick = minSqrtPrice := by decide +kernel

@[simp] theorem priceAt_maxTick : priceAt maxTick = maxSqrtPrice := by decide +kernel

theorem le_divUp_mul {n d : Nat} (hd : 0 < d) : n ≤ divUp n d * d := (divUp_le_iff hd).1 (Nat.le_refl _)

/-- Rounding up adds less than one divisor. -/
theorem divUp_mul_lt {n d : Nat} (hd : 0 < d) : divUp n d * d < n + d := by
  by_contra hge
  rw [Nat.not_lt] at hge
  have hpos : 1 ≤ divUp n d := Nat.one_le_iff_ne_zero.2 fun h0 => by
    rw [h0] at hge
    omega
  have hpred : n ≤ (divUp n d - 1) * d := by
    rw [Nat.sub_mul, Nat.one_mul]
    omega
  have := (divUp_le_iff hd).2 hpred
  omega

/-- Rounding up keeps a distance of a whole divisor. -/
theorem divUp_lt_divUp {a b d : Nat} (hd : 0 < d) (h : a + d ≤ b) : divUp a d < divUp b d := by
  apply Nat.lt_of_not_le
  intro hle
  rw [divUp_le_iff hd] at hle
  have hmul := divUp_mul_lt (n := a) hd
  omega

/-- The reciprocals of two ratios that lie `2 ^ 74` apart differ in 64.64 fixed point. -/
theorem reciprocal_lt {hi lo : Nat} (hlo : 0 < lo) (hhi : hi < 2 ^ 128) (h : lo + 2 ^ 74 ≤ hi) :
    2 ^ 192 / hi < 2 ^ 192 / lo := by
  have hbig : 2 ^ 64 ≤ 2 ^ 192 / hi := by
    rw [Nat.le_div_iff_mul_le (by omega)]
    calc 2 ^ 64 * hi ≤ 2 ^ 64 * 2 ^ 128 := Nat.mul_le_mul_left _ hhi.le
      _ = 2 ^ 192 := by norm_num
  have hq : 2 ^ 192 / hi * hi ≤ 2 ^ 192 := Nat.div_mul_le_self _ _
  rw [← Nat.succ_le_iff, Nat.le_div_iff_mul_le hlo]
  generalize 2 ^ 192 / hi = q at *
  calc (q + 1) * lo ≤ (q + 1) * (hi - 2 ^ 74) := Nat.mul_le_mul_left _ (by omega)
    _ = q * hi + hi - (q + 1) * 2 ^ 74 := by rw [Nat.mul_sub, Nat.add_mul, Nat.one_mul]
    _ ≤ 2 ^ 192 := by omega

/-- Each tick's price is below the next one's. -/
theorem priceAt_lt_succ {t : Int} (hlow : minTick ≤ t) (hhigh : t < maxTick) :
    priceAt t < priceAt (t + 1) := by
  simp only [minTick] at hlow
  simp only [maxTick] at hhigh
  rcases Int.lt_trichotomy t 0 with ht | ht | ht
  · -- below zero the price is the ratio itself
    rw [priceAt_of_nonpos (by omega), priceAt_of_nonpos (by omega)]
    have habs : t.natAbs = (t + 1).natAbs + 1 := by omega
    have := inverseRatio_succ_add_le (n := (t + 1).natAbs) (by omega)
    rw [habs]
    apply divUp_lt_divUp (by positivity)
    omega
  · subst ht
    decide +kernel
  · -- above zero it is the reciprocal of the ratio
    rw [priceAt_of_pos (by omega), priceAt_of_pos (by omega)]
    have habs : (t + 1).natAbs = t.natAbs + 1 := by omega
    have hgap := inverseRatio_succ_add_le (n := t.natAbs) (by omega)
    have hlo := le_inverseRatio (t.natAbs + 1)
    have hhi := inverseRatio_lt t.natAbs
    have := reciprocal_lt (by omega) hhi hgap
    rw [habs]
    omega

/-- **Prices rise strictly** over the whole tick range. -/
theorem priceAt_lt {s t : Int} (hs : minTick ≤ s) (hst : s < t) (ht : t ≤ maxTick) :
    priceAt s < priceAt t := by
  obtain ⟨n, hn⟩ := Int.le.dest (Int.add_one_le_of_lt hst)
  induction n generalizing t with
  | zero =>
      obtain rfl : t = s + 1 := by omega
      exact priceAt_lt_succ hs (by omega)
  | succ n ih =>
      have hprev := ih (t := t - 1) (by omega) (by omega) (by omega)
      have hlast := priceAt_lt_succ (t := t - 1) (by omega) (by omega)
      rw [show t - 1 + 1 = t by omega] at hlast
      omega

theorem priceAt_le {s t : Int} (hs : minTick ≤ s) (hst : s ≤ t) (ht : t ≤ maxTick) :
    priceAt s ≤ priceAt t := by
  rcases Int.lt_or_eq_of_le hst with h | h
  · exact (priceAt_lt hs h ht).le
  · rw [h]

theorem priceAt_pos {t : Int} (hlow : minTick ≤ t) (hhigh : t ≤ maxTick) : 0 < priceAt t := by
  have := priceAt_le (Int.le_refl minTick) hlow hhigh
  rw [priceAt_minTick] at this
  simp only [minSqrtPrice] at this
  omega

/-! ### How far prices lie apart -/

/-- Reciprocals, in 64.64 fixed point, of two ratios that are apart. -/
theorem reciprocal_gap {hi lo : Nat} (hlo : 0 < lo) (hhi : 2 ^ 90 ≤ hi) (h : Apart 18 hi lo)
    (hb : 2 ^ 192 / lo < 2 ^ 96) :
    (2 ^ 15 + 1) * (2 ^ 192 / hi + 1) ≤ 2 ^ 15 * (2 ^ 192 / lo + 1) + 2 ^ 27 := by
  have hq : 2 ^ 192 / hi * hi ≤ 2 ^ 192 := Nat.div_mul_le_self _ _
  have hnext : 2 ^ 192 < (2 ^ 192 / lo + 1) * lo := by
    have := Nat.lt_div_mul_add (a := 2 ^ 192) hlo
    linarith
  generalize 2 ^ 192 / hi = a at *
  generalize 2 ^ 192 / lo = b at *
  simp only [Apart] at h
  -- both reciprocals against the larger ratio
  have hscaled : (2 ^ 15 + 1) * a * hi < (2 ^ 15 * (b + 1) + 2 ^ 26) * hi := by
    calc (2 ^ 15 + 1) * a * hi = (2 ^ 15 + 1) * (a * hi) := Nat.mul_assoc _ _ _
      _ ≤ (2 ^ 15 + 1) * 2 ^ 192 := Nat.mul_le_mul_left _ hq
      _ < (2 ^ 15 + 1) * ((b + 1) * lo) := by omega
      _ = (b + 1) * ((2 ^ 15 + 1) * lo) := by ring
      _ ≤ (b + 1) * (2 ^ 15 * (hi + 18)) := Nat.mul_le_mul_left _ h
      _ = 2 ^ 15 * (b + 1) * hi + 18 * 2 ^ 15 * (b + 1) := by ring
      _ ≤ 2 ^ 15 * (b + 1) * hi + 2 ^ 26 * hi := Nat.add_le_add_left (by omega) _
      _ = (2 ^ 15 * (b + 1) + 2 ^ 26) * hi := by ring
  have := Nat.lt_of_mul_lt_mul_right hscaled
  omega

/-- Neighbouring prices differ by a share of about `2 ^ -15`. -/
theorem priceAt_succ_gap {t : Int} (hlow : minTick ≤ t) (hhigh : t < maxTick) :
    (2 ^ 15 + 1) * priceAt t ≤ 2 ^ 15 * priceAt (t + 1) + 2 ^ 27 := by
  have hmax := priceAt_le (s := t + 1) (t := maxTick) (by omega) (by omega) (Int.le_refl _)
  rw [priceAt_maxTick] at hmax
  simp only [maxSqrtPrice] at hmax
  simp only [minTick] at hlow
  simp only [maxTick] at hhigh
  rcases Int.lt_trichotomy t 0 with ht | ht | ht
  · -- below zero the prices are the ratios themselves
    rw [priceAt_of_nonpos (by omega), priceAt_of_nonpos (by omega)]
    have habs : t.natAbs = (t + 1).natAbs + 1 := by omega
    have hapart := inverseRatio_apart (n := (t + 1).natAbs) (by omega)
    rw [habs]
    have hlo := divUp_mul_lt (n := inverseRatio ((t + 1).natAbs + 1)) (d := 2 ^ 64) (by positivity)
    have hhi := le_divUp_mul (n := inverseRatio (t + 1).natAbs) (d := 2 ^ 64) (by positivity)
    simp only [Apart] at hapart
    omega
  · subst ht
    decide +kernel
  · rw [priceAt_of_pos (by omega), priceAt_of_pos (by omega)] at *
    have habs : (t + 1).natAbs = t.natAbs + 1 := by omega
    rw [habs] at hmax ⊢
    have hlo := le_inverseRatio (t.natAbs + 1)
    have hhi := le_inverseRatio t.natAbs
    have hapart := inverseRatio_apart (n := t.natAbs) (by omega)
    exact reciprocal_gap (by omega) hhi hapart (by omega)

theorem minSqrtPrice_le_priceAt {t : Int} (hlow : minTick ≤ t) (hhigh : t ≤ maxTick) :
    minSqrtPrice ≤ priceAt t := by
  have := priceAt_le (Int.le_refl minTick) hlow hhigh
  rwa [priceAt_minTick] at this

theorem priceAt_le_maxSqrtPrice {t : Int} (hlow : minTick ≤ t) (hhigh : t ≤ maxTick) :
    priceAt t ≤ maxSqrtPrice := by
  have := priceAt_le hlow hhigh (Int.le_refl maxTick)
  rwa [priceAt_maxTick] at this

/-- **The price of a tick is below that of every later tick by more than a share of `2 ^ -16`.** -/
theorem priceAt_gap {s t : Int} (hs : minTick ≤ s) (hst : s < t) (ht : t ≤ maxTick) :
    2 ^ 16 * priceAt s + priceAt t ≤ 2 ^ 16 * priceAt t := by
  have hnext := priceAt_succ_gap hs (Int.lt_of_lt_of_le hst ht)
  have hle := priceAt_le (s := s + 1) (t := t) (by omega) (by omega) ht
  have hmin := minSqrtPrice_le_priceAt (t := t) (by omega) ht
  simp only [minSqrtPrice] at hmin
  omega

/-! ### Ticks and their prices -/

/-- Comparing a tick with the tick above a price is comparing the prices. -/
theorem lt_of_priceAt_lt {s t : Int} (hs : s ≤ maxTick) (ht : minTick ≤ t)
    (h : priceAt s < priceAt t) : s < t := by
  by_contra hle
  have := priceAt_le ht (Int.not_lt.1 hle) hs
  omega

@[simp] theorem sqrtPriceAt_eq_ok {t : Int} {p : Nat} :
    sqrtPriceAt t = .ok p ↔ (minTick ≤ t ∧ t ≤ maxTick) ∧ priceAt t = p := by
  simp only [sqrtPriceAt]
  simp [Outcome.bind_eq_ok, pure, Except.pure]

/-! ### The tick below a price -/

/-- The tick `t` is the last one whose price is at most `p`. -/
structure IsTickBelow (p : Nat) (t : Int) : Prop where
  min_le : minTick ≤ t
  le_max : t ≤ maxTick
  price_le : priceAt t ≤ p
  lt_next : t < maxTick → p < priceAt (t + 1)

/-- Bisection keeps the price between the two ends of its interval. -/
theorem bisectTick_isTickBelow {p n : Nat} {low high : Int} (hmin : minTick ≤ low)
    (hle : low ≤ high) (hmax : high ≤ maxTick) (hsize : high - low < 2 ^ n)
    (hlow : priceAt low ≤ p) (hhigh : high < maxTick → p < priceAt (high + 1)) :
    IsTickBelow p (bisectTick p n low high) := by
  induction n generalizing low high with
  | zero =>
      obtain rfl : low = high := by omega
      exact ⟨hmin, hmax, hlow, hhigh⟩
  | succ n ih =>
      simp only [bisectTick]
      by_cases hlt : low < high
      · rw [if_pos hlt]
        have hmid := Int.mul_ediv_self_le (x := high - low + 1) (k := 2) (by decide)
        have hmid' := Int.lt_mul_ediv_self_add (x := high - low + 1) (k := 2) (by decide)
        have hsize' : high - low < 2 * 2 ^ n := by rw [Int.pow_succ] at hsize; omega
        -- the price tells which half holds it
        by_cases hp : priceAt (low + (high - low + 1) / 2) ≤ p
        · simp only [if_pos hp]
          exact ih (by omega) (by omega) hmax (by omega) hp hhigh
        · simp only [if_neg hp]
          apply ih hmin (by omega) (by omega) (by omega) hlow
          intro _
          rw [Int.sub_add_cancel]
          exact Nat.lt_of_not_le hp
      · rw [if_neg hlt]
        obtain rfl : low = high := by omega
        exact ⟨hmin, hmax, hlow, hhigh⟩

/-- `tickAt` answers on the whole price range with the last tick whose price is not above. -/
theorem isTickBelow_of_tickAt {p : Nat} {t : Int} (h : tickAt p = .ok t) : IsTickBelow p t := by
  simp only [tickAt] at h
  simp only [Outcome.bind_eq_ok, require_eq_ok, pure, Except.pure, Except.ok.injEq] at h
  obtain ⟨-, ⟨hmin, -⟩, rfl⟩ := h
  refine bisectTick_isTickBelow (Int.le_refl _) (by decide) (Int.le_refl _) (by decide) ?_ ?_
  · rw [priceAt_minTick]
    exact hmin
  · intro hlt
    exact absurd hlt (Int.lt_irrefl _)

namespace IsTickBelow

variable {p : Nat} {t : Int}

/-- A tick whose price is at most `p` is not above the tick of `p`. -/
theorem le_of_price_le (h : IsTickBelow p t) {s : Int} (hs : s ≤ maxTick) (hp : priceAt s ≤ p) :
    s ≤ t := by
  by_contra hlt
  have hnext := h.lt_next (by omega)
  have := priceAt_le (s := t + 1) (t := s) (by have := h.min_le; omega) (by omega) hs
  omega

/-- A tick whose price is above `p` is above the tick of `p`. -/
theorem lt_of_lt_price (h : IsTickBelow p t) {s : Int} (hs : minTick ≤ s) (hp : p < priceAt s) :
    t < s :=
  lt_of_priceAt_lt h.le_max hs (Nat.lt_of_le_of_lt h.price_le hp)

/-- A price has one tick. -/
theorem unique (h : IsTickBelow p t) {s : Int} (hs : IsTickBelow p s) : s = t :=
  Int.le_antisymm (h.le_of_price_le hs.le_max hs.price_le) (hs.le_of_price_le h.le_max h.price_le)

end IsTickBelow

/-! ### The inverse -/

section Inverse

variable {p : Nat} {t : Int}

theorem exists_tickAt (hmin : minSqrtPrice ≤ p) (hmax : p ≤ maxSqrtPrice) : ∃ t, tickAt p = .ok t :=
  ⟨_, Outcome.bind_eq_ok.2 ⟨(), require_eq_ok.2 ⟨hmin, hmax⟩, rfl⟩⟩

/-- In the price range the tick below a price is the answer of `tickAt`. -/
theorem tickAt_eq_ok_iff (hmin : minSqrtPrice ≤ p) (hmax : p ≤ maxSqrtPrice) :
    tickAt p = .ok t ↔ IsTickBelow p t := by
  constructor
  · exact isTickBelow_of_tickAt
  · intro ht
    obtain ⟨s, hs⟩ := exists_tickAt hmin hmax
    rw [hs, ht.unique (isTickBelow_of_tickAt hs)]

/-- A tick is the tick below its own price. -/
theorem isTickBelow_priceAt (hmin : minTick ≤ t) (hmax : t ≤ maxTick) : IsTickBelow (priceAt t) t :=
  ⟨hmin, hmax, Nat.le_refl _, fun hlt => priceAt_lt_succ hmin hlt⟩

/-- The tick below a price in terms of the checked prices. -/
theorem isTickBelow_iff : IsTickBelow p t ↔ (∃ q, sqrtPriceAt t = .ok q ∧ q ≤ p) ∧
    (t < maxTick → ∃ q, sqrtPriceAt (t + 1) = .ok q ∧ p < q) := by
  simp only [sqrtPriceAt_eq_ok]
  constructor
  · rintro ⟨hmin, hmax, hle, hnext⟩
    exact ⟨⟨_, ⟨⟨hmin, hmax⟩, rfl⟩, hle⟩,
      fun hlt => ⟨_, ⟨⟨by omega, by omega⟩, rfl⟩, hnext hlt⟩⟩
  · rintro ⟨⟨_, ⟨⟨hmin, hmax⟩, rfl⟩, hle⟩, hnext⟩
    refine ⟨hmin, hmax, hle, fun hlt => ?_⟩
    obtain ⟨_, ⟨-, rfl⟩, hp⟩ := hnext hlt
    exact hp

end Inverse

/-- **`tickAt` inverts `sqrtPriceAt`.** For every price in range `tickAt` answers with the one tick whose
price is not above it while the next tick's price is, and every tick in range is the answer for its own
price. -/
theorem tickAt_inverts_sqrtPriceAt :
    (∀ p, minSqrtPrice ≤ p → p ≤ maxSqrtPrice → ∃ t, tickAt p = .ok t ∧
      ∀ s, s = t ↔ (∃ q, sqrtPriceAt s = .ok q ∧ q ≤ p) ∧
        (s < maxTick → ∃ q, sqrtPriceAt (s + 1) = .ok q ∧ p < q)) ∧
    ∀ t, minTick ≤ t → t ≤ maxTick → ∃ p, sqrtPriceAt t = .ok p ∧ tickAt p = .ok t := by
  constructor
  · intro p hmin hmax
    obtain ⟨t, ht⟩ := exists_tickAt hmin hmax
    have hbelow := isTickBelow_of_tickAt ht
    refine ⟨t, ht, fun s => ?_⟩
    rw [← isTickBelow_iff]
    exact ⟨fun hs => hs ▸ hbelow, hbelow.unique⟩
  · intro t hmin hmax
    refine ⟨priceAt t, sqrtPriceAt_eq_ok.2 ⟨⟨hmin, hmax⟩, rfl⟩, ?_⟩
    rw [tickAt_eq_ok_iff (minSqrtPrice_le_priceAt hmin hmax) (priceAt_le_maxSqrtPrice hmin hmax)]
    exact isTickBelow_priceAt hmin hmax

/-- One unit below the price of tick 0 the tick is -1, which two prices tell without a search. -/
theorem tickAt_inverts_sqrtPriceAt_below_zero :
    (minSqrtPrice ≤ 2 ^ 64 - 1 ∧ 2 ^ 64 - 1 ≤ maxSqrtPrice) ∧ tickAt (2 ^ 64 - 1) = .ok (-1) := by
  obtain ⟨t, ht, honly⟩ := tickAt_inverts_sqrtPriceAt.1 (2 ^ 64 - 1) (by decide) (by decide)
  have htick : -1 = t := (honly (-1)).2
    ⟨⟨priceAt (-1), by decide +kernel, by decide +kernel⟩,
      fun _ => ⟨priceAt 0, by decide +kernel, by decide +kernel⟩⟩
  exact ⟨by decide, htick ▸ ht⟩

end Clmm
