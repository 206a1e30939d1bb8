import Clmm.Proofs.Solvency

/-!
# Clmm.Proofs.LiquidityBound

**What a pool can hold bounds its liquidity** (`liquidity_sum_lt`). The prices of two ticks differ by a
share of their size, so one unit of liquidity is worth a fixed least amount of the two tokens together,
wherever its range lies and wherever the price stands (`unitWorth_add`). The claims of all positions are
covered by what was paid in and not paid out; where this fits the 64 bits of a token balance, all
liquidity together stays far from the 128 bits that it may have.
-/

namespace Clmm

namespace Position

variable {p : Position} {price : Nat}

/-- **The least worth of liquidity**, in both tokens together. -/
theorem unitWorth_add (hmin : minTick ≤ p.lower) (hlt : p.lower < p.upper) (hmax : p.upper ≤ maxTick) :
    1 / 2 ^ 48 ≤ p.unitWorth price .zero + p.unitWorth price .one := by
  have hgap : (2 : ℚ) ^ 16 * priceAt p.lower + priceAt p.upper ≤ 2 ^ 16 * priceAt p.upper := by
    exact_mod_cast priceAt_gap hmin hlt hmax
  have hleast : (2 : ℚ) ^ 32 ≤ priceAt p.upper := by
    have hle := minSqrtPrice_le_priceAt (hmin.trans hlt.le) hmax
    simp only [minSqrtPrice] at hle
    exact_mod_cast (by omega : 2 ^ 32 ≤ priceAt p.upper)
  have hgreatest : (p.clamp price : ℚ) ≤ 2 ^ 96 := by
    have hupper : p.clamp price ≤ priceAt p.upper := clamp_le (priceAt_le hmin hlt.le hmax)
    have hle := hupper.trans (priceAt_le_maxSqrtPrice (hmin.trans hlt.le) hmax)
    simp only [maxSqrtPrice] at hle
    exact_mod_cast (by omega : p.clamp price ≤ 2 ^ 96)
  have hpos : (0 : ℚ) < p.clamp price := by
    exact_mod_cast Nat.lt_of_lt_of_le (priceAt_pos hmin (hlt.le.trans hmax)) le_clamp
  have hlow : (priceAt p.lower : ℚ) ≤ p.clamp price := by exact_mod_cast le_clamp
  have hhigh : (p.clamp price : ℚ) ≤ priceAt p.upper := by
    exact_mod_cast clamp_le (priceAt_le hmin hlt.le hmax)
  simp only [unitWorth, holding, emptyPrice]
  generalize (p.clamp price : ℚ) = c at *
  generalize (priceAt p.lower : ℚ) = a at *
  generalize (priceAt p.upper : ℚ) = b at *
  have hb : 0 < b := by linarith
  -- what is above the price counts in token 0, what is below it in token 1
  have hzero : (b - c) / (b * 2 ^ 32) ≤ 2 ^ 64 / c - 2 ^ 64 / b := by
    calc (b - c) / (b * 2 ^ 32) = 2 ^ 64 * (b - c) / (2 ^ 96 * b) := by
          field_simp
      _ ≤ 2 ^ 64 * (b - c) / (c * b) := by
          apply div_le_div_of_nonneg_left
          · exact mul_nonneg (by positivity) (sub_nonneg.2 hhigh)
          · positivity
          · exact mul_le_mul_of_nonneg_right hgreatest hb.le
      _ = 2 ^ 64 / c - 2 ^ 64 / b := by
          field_simp
  have hone : (c - a) / (b * 2 ^ 32) ≤ c / 2 ^ 64 - a / 2 ^ 64 := by
    rw [← sub_div]
    apply div_le_div_of_nonneg_left (sub_nonneg.2 hlow) (by positivity)
    linarith
  calc (1 : ℚ) / 2 ^ 48 ≤ (b - a) / (b * 2 ^ 32) := by
        rw [div_le_div_iff₀ (by positivity) (by positivity)]
        linarith
    _ = (b - c) / (b * 2 ^ 32) + (c - a) / (b * 2 ^ 32) := by ring
    _ ≤ 2 ^ 64 / c - 2 ^ 64 / b + (c / 2 ^ 64 - a / 2 ^ 64) := add_le_add hzero hone

end Position

namespace Market

variable {m : Market} {total : Payment} {p : Position} {x : Token}

/-! ### Claims and what covers them -/

theorem WellFormed.unitWorth_nonneg (hm : m.WellFormed) (hp : p ∈ m.positions) (hne : p.liquidity ≠ 0)
    (x : Token) : 0 ≤ p.unitWorth m.pool.sqrtPrice x := by
  obtain ⟨hmin, hlt, hmax⟩ := hm.ranged p hp hne
  exact Position.unitWorth_nonneg (priceAt_pos hmin (hlt.le.trans hmax)) (priceAt_le hmin hlt.le hmax) x

theorem WellFormed.claim_nonneg (hm : m.WellFormed) (hp : p ∈ m.positions) (x : Token) :
    0 ≤ p.liquidity * m.scene.share p x + (p.owed.get x : ℚ) := by
  by_cases hne : p.liquidity = 0
  · rw [hne, Nat.cast_zero, zero_mul, zero_add]
    exact Nat.cast_nonneg _
  · have hworth := hm.unitWorth_nonneg hp hne x
    have hshare : 0 ≤ m.scene.share p x := add_nonneg hworth (by positivity)
    positivity

theorem WellFormed.claims_nonneg (hm : m.WellFormed) (x : Token) : 0 ≤ m.claims x := by
  simp only [claims]
  apply List.sum_nonneg
  intro n hn
  obtain ⟨p, hp, rfl⟩ := List.mem_map.1 hn
  exact hm.claim_nonneg hp x

/-- The claim of one position is at most all claims. -/
theorem WellFormed.claim_le (hm : m.WellFormed) (hp : p ∈ m.positions) (x : Token) :
    p.liquidity * m.scene.share p x + (p.owed.get x : ℚ) ≤ m.claims x := by
  simp only [claims]
  apply List.single_le_sum
  · intro n hn
    obtain ⟨q, hq, rfl⟩ := List.mem_map.1 hn
    exact hm.claim_nonneg hq x
  · exact List.mem_map.2 ⟨p, hp, rfl⟩

/-- The parts of a claim are none of them negative, so each is at most all claims. -/
theorem WellFormed.claim_parts (hm : m.WellFormed) (hp : p ∈ m.positions) (hne : p.liquidity ≠ 0)
    (x : Token) : p.liquidity * p.unitWorth m.pool.sqrtPrice x ≤ m.claims x ∧
      (p.owed.get x : ℚ) + p.liquidity * ((m.scene.unsettled p x).toNat / 2 ^ 64) ≤ m.claims x := by
  have hclaim := hm.claim_le hp x
  have hworth := mul_nonneg (Nat.cast_nonneg (α := ℚ) p.liquidity) (hm.unitWorth_nonneg hp hne x)
  have hfees : (0 : ℚ) ≤ p.liquidity * ((m.scene.unsettled p x).toNat / 2 ^ 64) := by positivity
  have howed : (0 : ℚ) ≤ p.owed.get x := Nat.cast_nonneg _
  have hshare : (p.liquidity : ℚ) * m.scene.share p x =
      p.liquidity * p.unitWorth m.pool.sqrtPrice x +
        p.liquidity * ((m.scene.unsettled p x).toNat / 2 ^ 64) := mul_add _ _ _
  rw [hshare] at hclaim
  constructor
  · linarith
  · linarith

theorem Reached.claims_le (h : Reached m total) (x : Token) :
    m.claims x ≤ (total.paidIn.get x : ℚ) - total.paidOut.get x := by
  have hbacked := h.backed x
  have hprotocol : (0 : ℚ) ≤ m.pool.protocolFees.get x := Nat.cast_nonneg _
  have hfund : (0 : ℚ) ≤ m.pool.fundFees.get x := Nat.cast_nonneg _
  linarith

/-! ### All liquidity -/

/-- All liquidity, at its least worth, is covered by the claims in both tokens. -/
theorem WellFormed.liquidity_sum_le (hm : m.WellFormed) :
    (((m.positions.map (·.liquidity)).sum : Nat) : ℚ) / 2 ^ 48 ≤ m.claims .zero + m.claims .one := by
  have hone : ∀ p ∈ m.positions, (p.liquidity : ℚ) * (1 / 2 ^ 48) ≤
      (p.liquidity * m.scene.share p .zero + (p.owed.get .zero : ℚ)) +
        (p.liquidity * m.scene.share p .one + (p.owed.get .one : ℚ)) := by
    intro p hp
    by_cases hne : p.liquidity = 0
    · rw [hne, Nat.cast_zero, zero_mul, zero_mul, zero_mul]
      positivity
    · obtain ⟨hmin, hlt, hmax⟩ := hm.ranged p hp hne
      have hleast : 1 / 2 ^ 48 ≤
          p.unitWorth m.pool.sqrtPrice .zero + p.unitWorth m.pool.sqrtPrice .one :=
        Position.unitWorth_add hmin hlt hmax
      have hworth := mul_le_mul_of_nonneg_left hleast (Nat.cast_nonneg (α := ℚ) p.liquidity)
      have hzero : p.unitWorth m.pool.sqrtPrice .zero ≤ m.scene.share p .zero :=
        le_add_of_nonneg_right (by positivity)
      have hone : p.unitWorth m.pool.sqrtPrice .one ≤ m.scene.share p .one :=
        le_add_of_nonneg_right (by positivity)
      have hshare := mul_le_mul_of_nonneg_left (add_le_add hzero hone)
        (Nat.cast_nonneg (α := ℚ) p.liquidity)
      have hzeroOwed : (0 : ℚ) ≤ p.owed.get .zero := Nat.cast_nonneg _
      have honeOwed : (0 : ℚ) ≤ p.owed.get .one := Nat.cast_nonneg _
      linarith
  have hsum := List.sum_le_sum hone
  rw [List.sum_map_add, List.sum_map_mul_right] at hsum
  simp only [claims]
  rw [Nat.cast_list_sum, List.map_map, div_eq_mul_one_div]
  exact hsum

/-- **All liquidity is bounded** while the claims fit a token balance. -/
theorem WellFormed.liquidity_sum_lt (hm : m.WellFormed) (h : ∀ x, m.claims x < 2 ^ 64) :
    (m.positions.map (·.liquidity)).sum < 2 ^ 113 := by
  have hsum := hm.liquidity_sum_le
  have hzero := h .zero
  have hone := h .one
  rw [div_le_iff₀ (by positivity)] at hsum
  have hcast : (((m.positions.map (·.liquidity)).sum : Nat) : ℚ) < 2 ^ 113 := by linarith
  exact_mod_cast hcast

end Market

end Clmm
