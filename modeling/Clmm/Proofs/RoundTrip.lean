import Clmm.Proofs.Curve

/-!
# Clmm.Proofs.RoundTrip

**Swapping there and back never profits** (`round_trip_never_profits`). Whoever pays no more into the
second swap than the first one gave gets back no more than was paid into the first, its fee not counted.

A swap is compared with what the positions are worth, as in `Priced`: the trader pays for what they gain
and gets at most what they lose. What remains is a fact about the positions alone. As the price moves, the
worth of one token rises where that of the other falls, and the two stand still together, over ticks
without liquidity (`worth_output_le`). So positions that did not lose of one token on the whole trip did
not gain of the other.
-/

namespace Clmm

/-! ### The worth of the positions along the price -/

/-- Different prices hold different amounts. -/
theorem holding_inj {x : Token} {a b : Nat} (ha : 0 < a) (hb : 0 < b)
    (h : holding x a = holding x b) : a = b := by
  have ha' : (a : ℚ) ≠ 0 := by exact_mod_cast ha.ne'
  have hb' : (b : ℚ) ≠ 0 := by exact_mod_cast hb.ne'
  cases x with
  | zero =>
      simp only [holding] at h
      rw [div_eq_div_iff ha' hb'] at h
      exact_mod_cast (mul_left_cancel₀ (by positivity) h).symm
  | one =>
      simp only [holding] at h
      exact_mod_cast (div_left_inj' (by positivity)).1 h

@[simp] theorem Direction.output_flip (d : Direction) : d.flip.output = d.input := by
  cases d <;> rfl

namespace Position

variable {p : Position} {d : Direction} {a b : Nat}

/-- The range of a position does not turn the price round. -/
theorem leads_clamp (h : d.Leads a b) : d.Leads (p.clamp a) (p.clamp b) := by
  cases d with
  | down => exact max_le_max_left _ (min_le_min_right _ h)
  | up => exact max_le_max_left _ (min_le_min_right _ h)

theorem unitWorth_input_mono (hlow : 0 < priceAt p.lower) (h : d.Leads a b) :
    p.unitWorth a d.input ≤ p.unitWorth b d.input :=
  sub_le_sub_right
    (holding_input_mono (Nat.lt_of_lt_of_le hlow (Nat.le_max_left _ _)) (leads_clamp h)) _

theorem unitWorth_output_anti (hlow : 0 < priceAt p.lower) (h : d.Leads a b) :
    p.unitWorth b d.output ≤ p.unitWorth a d.output :=
  sub_le_sub_right (Direction.holding_output_anti
    (Nat.lt_of_lt_of_le hlow (Nat.le_max_left _ _)) (leads_clamp h)) _

/-- A unit of liquidity that gains nothing of one token loses nothing of the other. -/
theorem unitWorth_eq_of_eq (hlow : 0 < priceAt p.lower) {x y : Token}
    (h : p.unitWorth a x = p.unitWorth b x) : p.unitWorth a y = p.unitWorth b y := by
  have hclamp : p.clamp a = p.clamp b :=
    holding_inj (Nat.lt_of_lt_of_le hlow (Nat.le_max_left _ _))
      (Nat.lt_of_lt_of_le hlow (Nat.le_max_left _ _)) (sub_left_injective h)
  simp only [unitWorth]
  rw [hclamp]

end Position

section Worth

variable {positions : List Position} {d : Direction} {a b : Nat}

theorem Ranged.priceAt_lower_pos (hr : Ranged positions) {p : Position} (hp : p ∈ positions)
    (hne : p.liquidity ≠ 0) : 0 < priceAt p.lower := by
  obtain ⟨hmin, hlt, hmax⟩ := hr p hp hne
  exact priceAt_pos hmin (hlt.le.trans hmax)

theorem worth_output_anti (hr : Ranged positions) (h : d.Leads a b) :
    worth positions b d.output ≤ worth positions a d.output := by
  apply List.sum_le_sum
  intro p hp
  by_cases hne : p.liquidity = 0
  · simp [hne]
  · exact mul_le_mul_of_nonneg_left
      (Position.unitWorth_output_anti (hr.priceAt_lower_pos hp hne) h) (Nat.cast_nonneg _)

/-- Positions that did not gain of one token did not lose of the other. -/
theorem worth_output_le (hr : Ranged positions) (h : worth positions b d.input ≤ worth positions a d.input) :
    worth positions a d.output ≤ worth positions b d.output := by
  rcases Direction.Leads.total d a b with hab | hba
  · -- no position with liquidity can have gained, so none has moved
    have hterm : ∀ p ∈ positions, (p.liquidity : ℚ) * p.unitWorth a d.input ≤
        p.liquidity * p.unitWorth b d.input := by
      intro p hp
      by_cases hne : p.liquidity = 0
      · simp [hne]
      · exact mul_le_mul_of_nonneg_left
          (Position.unitWorth_input_mono (hr.priceAt_lower_pos hp hne) hab) (Nat.cast_nonneg _)
    apply le_of_eq
    simp only [worth]
    congr 1
    apply List.map_congr_left
    intro p hp
    by_cases hne : p.liquidity = 0
    · simp [hne]
    · have hlow := hr.priceAt_lower_pos hp hne
      have hsame : p.unitWorth a d.input = p.unitWorth b d.input := by
        by_contra hmoved
        have hlt := lt_of_le_of_ne (Position.unitWorth_input_mono hlow hab) hmoved
        have hgain := mul_lt_mul_of_pos_left hlt (Nat.cast_pos.2 (Nat.pos_of_ne_zero hne))
        exact absurd h (not_le.2 (List.sum_lt_sum _ _ hterm ⟨p, hp, hgain⟩))
      rw [Position.unitWorth_eq_of_eq hlow hsame]
  · exact worth_output_anti hr hba

end Worth

/-! ### A swap, seen from the positions -/

namespace Market

variable {m m' : Market} {r : SwapRequest} {time : Nat} {s : Supply} {result : SwapResult}

/-- The market, with swaps charged under the given fee config. -/
def under (m : Market) (config : FeeConfig) : Market := { m with config }

theorem WellFormed.under (hm : m.WellFormed) (config : FeeConfig) : (m.under config).WellFormed :=
  ⟨hm.spacing_pos, hm.laid, hm.counted, hm.marked, hm.gross, hm.net, hm.ranged, hm.liquidity, hm.price,
    hm.oracle⟩

/-- What a swap takes in is at least what the positions gain, without the fee, and what it pays out is at
most what they lose. -/
theorem WellFormed.worth_of_swap (hm : m.WellFormed) (hamount : r.amount < 2 ^ 64)
    (hsighted : m.Sighted s) (h : m.swap r time s = .ok (m', result)) :
    (worth m.positions m'.pool.sqrtPrice r.direction.input + result.fee ≤
        worth m.positions m.pool.sqrtPrice r.direction.input + result.amountIn ∧
      worth m.positions m'.pool.sqrtPrice r.direction.output + result.amountOut ≤
        worth m.positions m.pool.sqrtPrice r.direction.output) ∧
    m'.positions = m.positions := by
  obtain ⟨c, cursor, w, b', hswapped, -, hm'⟩ := swap_eq_ok h
  obtain ⟨edges, -, hc⟩ := Swap.course_eq_ok hswapped.course_eq
  have hdirection : c.direction = r.direction := by rw [hc]
  have hprice : m'.pool.sqrtPrice = w.sqrtPrice := by rw [hm', hswapped.pool]
  obtain ⟨hpriced, -⟩ := hswapped.priced hm hamount (Or.inl hsighted)
  have hsettles := Swap.settle_eq_ok hswapped.settle_eq
  obtain ⟨hpaidIn, hpaidOut⟩ := hsettles.paid (c := c) (by rw [hc])
  have hinput := hpriced.input
  have houtput := hpriced.output
  rw [hdirection, hpaidIn] at hinput
  rw [hdirection, hpaidOut] at houtput
  rw [hprice, hsettles.fee]
  exact ⟨⟨hinput, houtput⟩, by rw [hm']⟩

/-- **Swapping there and back never profits.** Whatever led to the market and under whatever fee config
its swaps are charged: of two swaps in opposite directions, one after the other and neither of them with
anything of the bitmap hidden, the second gives no more than was paid into the first, without the fee of
the first, unless more is paid into the second than the first gave. -/
theorem round_trip_never_profits {m m₁ m₂ : Market} {total : Payment} (h : Reached m total)
    (config : FeeConfig) {r₁ r₂ : SwapRequest} {time₁ time₂ : Nat} {s₁ s₂ : Supply}
    {there back : SwapResult} (hamount₁ : r₁.amount < 2 ^ 64) (hamount₂ : r₂.amount < 2 ^ 64)
    (hopposite : r₂.direction = r₁.direction.flip) (hsighted₁ : (m.under config).Sighted s₁)
    (hsighted₂ : m₁.Sighted s₂) (hthere : (m.under config).swap r₁ time₁ s₁ = .ok (m₁, there))
    (hback : m₁.swap r₂ time₂ s₂ = .ok (m₂, back)) (hpaid : back.amountIn ≤ there.amountOut) :
    back.amountOut + there.fee ≤ there.amountIn := by
  have hm := h.wellFormed.under config
  generalize m.under config = m at hm hsighted₁ hthere
  have hm₁ := hm.swap ⟨hamount₁, Or.inl hsighted₁⟩ hthere
  obtain ⟨⟨hin₁, hout₁⟩, hpositions⟩ := hm.worth_of_swap hamount₁ hsighted₁ hthere
  obtain ⟨⟨hin₂, hout₂⟩, -⟩ := hm₁.worth_of_swap hamount₂ hsighted₂ hback
  rw [hpositions, hopposite] at hin₂ hout₂
  rw [Direction.input_flip] at hin₂
  rw [Direction.output_flip] at hout₂
  have hpaid' : (back.amountIn : ℚ) ≤ there.amountOut := by exact_mod_cast hpaid
  -- the positions got back no more of the token they gave than they had given
  have hregained : worth m.positions m₂.pool.sqrtPrice r₁.direction.output ≤
      worth m.positions m.pool.sqrtPrice r₁.direction.output := by linarith
  rw [← Direction.input_flip] at hregained
  have hkept := worth_output_le hm.ranged hregained
  rw [Direction.output_flip] at hkept
  have hcast : (back.amountOut : ℚ) + there.fee ≤ there.amountIn := by linarith
  exact_mod_cast hcast

/-- Down over tick 0 and up over it again. -/
theorem round_trip_never_profits_openings : ∃ m m₁ m₂ total there back,
    sample 10 5 openings = .ok (m, total) ∧
    (m.under m.config).swap ⟨900, 0, 0, .exactIn, .down⟩ 0 ⟨[0, -600], true⟩ = .ok (m₁, there) ∧
    m₁.swap ⟨890, 896, 0, .exactOut, .up⟩ 0 ⟨[-600, 0], true⟩ = .ok (m₂, back) ∧
    (there.amountIn = 900 ∧ there.amountOut = 896 ∧ there.fee = 3 ∧ there.crossed = 1) ∧
    (back.amountIn = 895 ∧ back.amountOut = 890 ∧ back.crossed = 1) ∧
    back.amountOut + there.fee ≤ there.amountIn := by
  obtain ⟨m, total, hsample, hrun⟩ := exists_of_sample (P := fun x =>
      (((x.1.under x.1.config).swap ⟨900, 0, 0, .exactIn, .down⟩ 0 ⟨[0, -600], true⟩).toOption.any
        fun (y : Market × SwapResult) =>
          decide (y.2.amountIn = 900 ∧ y.2.amountOut = 896 ∧ y.2.fee = 3 ∧ y.2.crossed = 1) &&
          (y.1.swap ⟨890, 896, 0, .exactOut, .up⟩ 0 ⟨[-600, 0], true⟩).toOption.any
            fun (z : Market × SwapResult) =>
              decide (z.2.amountIn = 895 ∧ z.2.amountOut = 890 ∧ z.2.crossed = 1)))
    (show (sample 10 5 openings).toOption.any _ = true by decide +kernel)
  obtain ⟨⟨m₁, there⟩, hthere, hrun⟩ := exists_ok_of_any hrun
  obtain ⟨hamounts, hrun⟩ := Bool.and_eq_true_iff.1 hrun
  obtain ⟨⟨m₂, back⟩, hback, hrun⟩ := exists_ok_of_any hrun
  have hamounts := of_decide_eq_true hamounts
  have hamounts' := of_decide_eq_true hrun
  refine ⟨m, m₁, m₂, total, there, back, hsample, hthere, hback, hamounts, hamounts', ?_⟩
  apply round_trip_never_profits (reached_of_sample hsample) m.config (by decide) (by decide) rfl
    (Or.inl rfl) (Or.inl rfl) hthere hback
  rw [hamounts.2.1, hamounts'.1]
  decide

end Market

end Clmm
