import Clmm.Proofs.Reachable

/-!
# Clmm.Proofs.PriceRange

**Price and tick agree** (`price_and_tick_agree`). In every market that a run leads to, whatever its
swaps could see, the current tick lies in the tick range, the current price in the price range, and the
price between that of the tick and that of the next one. A swap ends between the price it began at and
the limit in effect, both included.

The upper end of the interval of a tick is no bound at the highest tick, so the greatest price needs an
argument of its own: it is kept because an upward swap stops at a limit below it and a downward one does
not raise the price (`Attained.sqrtPrice_le`). What a swap does to the price depends on nothing but the
price and the tick at which it begins (`Swapped.leads`), so it holds for any arrays, any extension and
any fee config.
-/

namespace Clmm

/-! ### Where a swap ends -/

namespace Swap

variable {config : FeeConfig} {extension : Option BitmapExtension} {r : SwapRequest}
  {b b' : SwapBook} {result : SwapResult} {c : Course} {cursor : Option Cursor} {w : Walk} {p : Nat}

/-- A walk moves the price in its direction and not past its limit. -/
theorem underway_of_walk (hlimit : minSqrtPrice < c.limit) (hstart : Underway c w) {w' : Walk}
    {n : Nat} (h : walk c n w = .ok w') :
    Underway c w' ∧ c.direction.Leads w.sqrtPrice w'.sqrtPrice := by
  refine walk_induct (I := fun v => Underway c v ∧ c.direction.Leads w.sqrtPrice v.sqrtPrice)
    (fun hv hstep => ?_) ⟨hstart, Direction.Leads.refl _ _⟩ h
  obtain ⟨hunderway, hleads⟩ := step_underway hlimit hv.1 hstep
  exact ⟨hunderway, hv.2.trans hleads⟩

/-- **A swap ends between the price it began at and its limit.** -/
theorem Swapped.leads (h : Swapped config extension r b b' result c cursor w)
    (hprice : Agrees b.pool.sqrtPrice b.pool.tick) (hamount : r.amount < 2 ^ 64) :
    r.direction.Leads b.pool.sqrtPrice b'.pool.sqrtPrice ∧
      r.direction.Leads b'.pool.sqrtPrice (effectiveLimit r) := by
  have hsqrt : b'.pool.sqrtPrice = w.sqrtPrice := by rw [h.pool]
  have hlow := lt_effectiveLimit hprice h.limit_eq
  obtain ⟨hahead, -⟩ := checkLimit_eq_ok h.limit_eq
  obtain ⟨edges, -, rfl⟩ := course_eq_ok h.course_eq
  obtain ⟨hunderway, hleads⟩ := underway_of_walk hlow ⟨hprice, hahead, hamount⟩ h.walk_eq
  rw [hsqrt]
  exact ⟨hleads, hunderway.toward⟩

/-- No swap leaves the price range. -/
theorem Swapped.sqrtPrice_le (h : Swapped config extension r b b' result c cursor w)
    (hprice : Agrees b.pool.sqrtPrice b.pool.tick) (hamount : r.amount < 2 ^ 64)
    (hle : b.pool.sqrtPrice ≤ maxSqrtPrice) : b'.pool.sqrtPrice ≤ maxSqrtPrice := by
  obtain ⟨hleads, htoward⟩ := h.leads hprice hamount
  obtain ⟨-, -, -, hhigh⟩ := checkLimit_eq_ok h.limit_eq
  cases hd : r.direction with
  | down =>
      rw [hd] at hleads
      exact le_trans hleads hle
  | up =>
      rw [hd] at htoward
      exact le_trans htoward (hhigh hd).le

end Swap

/-! ### The price of a run -/

namespace Market

variable {m m' : Market} {paid : Payment}

theorem Orderly.increase_sqrtPrice (hm : m.Orderly) {i n : Nat} {d : Deposit} {derived : Bool}
    {s : Supply} {change : LiquidityChange} (h : m.increase i d derived s = .ok (m', n, change)) :
    m'.pool.sqrtPrice = m.pool.sqrtPrice := by
  obtain ⟨_, _, _, _, _, _, _, -, -, hc, rfl⟩ := increase_eq_ok hm h
  exact congrArg (·.sqrtPrice) hc.pool

/-- No operation raises the price above the greatest one. -/
theorem Performs.sqrtPrice_le {op : Operation} (h : m.Performs op m' paid) (hm : m.Orderly)
    (hallows : m.Allows op) (hle : m.pool.sqrtPrice ≤ maxSqrtPrice) :
    m'.pool.sqrtPrice ≤ maxSqrtPrice := by
  cases h with
  | setUpArray h =>
      obtain ⟨_, -, rfl⟩ := addArray_eq_ok h
      exact hle
  | setUpPosition => exact hle
  | openPosition h =>
      rw [(hm.setUpPosition _ _).increase_sqrtPrice h]
      exact hle
  | increase h =>
      rw [hm.increase_sqrtPrice h]
      exact hle
  | decrease h =>
      obtain ⟨_, _, _, _, _, _, _, -, hc, -, rfl⟩ := decrease_eq_ok hm h
      exact (congrArg (·.sqrtPrice) hc.pool).trans_le hle
  | swap h =>
      obtain ⟨_, _, _, _, hswapped, -, hm'⟩ := swap_eq_ok h
      rw [hm']
      exact hswapped.sqrtPrice_le hm.price hallows hle
  | takeProtocolFees => exact hle
  | takeFundFees => exact hle

theorem Attained.sqrtPrice_le (h : Attained m) : m.pool.sqrtPrice ≤ maxSqrtPrice := by
  induction h with
  | created hconfig hcreate =>
      obtain ⟨tick, htick, rfl⟩ := create_eq_ok hcreate
      simp only [tickAt, Outcome.bind_eq_ok, require_eq_ok] at htick
      obtain ⟨_, ⟨-, hle⟩, -⟩ := htick
      exact hle
  | performed op hattained hallows hperform ih =>
      exact (performs_of_perform hperform).sqrtPrice_le hattained.orderly hallows ih

/-- **Price and tick agree** in every market that a run leads to: both lie in their ranges, and the price
between that of the tick and that of the next one. Every swap from there, whatever it is supplied with,
ends between the price it began at and the limit in effect. -/
theorem price_and_tick_agree (h : Attained m) :
    (minTick ≤ m.pool.tick ∧ m.pool.tick ≤ maxTick) ∧
      (minSqrtPrice ≤ m.pool.sqrtPrice ∧ m.pool.sqrtPrice ≤ maxSqrtPrice) ∧
      (∃ low, sqrtPriceAt m.pool.tick = .ok low ∧ low ≤ m.pool.sqrtPrice) ∧
      (m.pool.tick < maxTick →
        ∃ high, sqrtPriceAt (m.pool.tick + 1) = .ok high ∧ m.pool.sqrtPrice ≤ high) ∧
      ∀ (config : FeeConfig) (extension : Option BitmapExtension) (r : SwapRequest) (time : Nat)
        (arrays : List TickArray) (result : SwapResult) (b' : SwapBook), r.amount < 2 ^ 64 →
        Clmm.swap config extension r time ⟨m.pool, arrays⟩ = .ok result b' →
        r.direction.Leads m.pool.sqrtPrice b'.pool.sqrtPrice ∧
          r.direction.Leads b'.pool.sqrtPrice (Swap.effectiveLimit r) := by
  have hprice := h.orderly.price
  have hmin := minSqrtPrice_le_priceAt hprice.min_le hprice.le_max
  refine ⟨⟨hprice.min_le, hprice.le_max⟩, ⟨hmin.trans hprice.price_le, h.sqrtPrice_le⟩,
    ⟨_, sqrtPriceAt_eq_ok.2 ⟨⟨hprice.min_le, hprice.le_max⟩, rfl⟩, hprice.price_le⟩, ?_, ?_⟩
  · intro hlt
    have hnext : minTick ≤ m.pool.tick + 1 ∧ m.pool.tick + 1 ≤ maxTick :=
      ⟨hprice.min_le.trans (Int.le_add_one le_rfl), hlt⟩
    exact ⟨_, sqrtPriceAt_eq_ok.2 ⟨hnext, rfl⟩, hprice.le_next hlt⟩
  · intro config extension r time arrays result b' hamount hswap
    obtain ⟨_, _, _, hswapped⟩ := Swap.swap_eq_ok hswap
    exact hswapped.leads hprice hamount

/-- After a swap down to the price of tick 0, which it crossed, the pool stands at tick -1. The next swap
goes up from there. -/
theorem price_and_tick_agree_crossed : ∃ m total result b',
    sample 10 5 (openings ++ [.swap ⟨1000000, 0, 2 ^ 64, .exactIn, .down⟩ 0 ⟨[0, -600], true⟩]) =
      .ok (m, total) ∧
    m.pool.tick = -1 ∧ m.pool.sqrtPrice = 2 ^ 64 ∧
    (∃ high, sqrtPriceAt (m.pool.tick + 1) = .ok high ∧ m.pool.sqrtPrice ≤ high) ∧
    Clmm.swap m.config none ⟨400, 0, 0, .exactIn, .up⟩ 0 ⟨m.pool, m.pick [-600, 0]⟩ =
      .ok result b' ∧
    2 ^ 64 ≤ b'.pool.sqrtPrice ∧ b'.pool.sqrtPrice ≤ maxSqrtPrice - 1 := by
  obtain ⟨m, total, hsample, hrun⟩ := exists_of_sample (P := fun x =>
      decide (x.1.pool.tick = -1 ∧ x.1.pool.sqrtPrice = 2 ^ 64) &&
        succeedsWith (fun (_ : SwapResult) (_ : SwapBook) => true)
          (Clmm.swap x.1.config none ⟨400, 0, 0, .exactIn, .up⟩ 0 ⟨x.1.pool, x.1.pick [-600, 0]⟩))
    (show (sample 10 5 (openings ++ [.swap ⟨1000000, 0, 2 ^ 64, .exactIn, .down⟩ 0
      ⟨[0, -600], true⟩])).toOption.any _ = true by decide +kernel)
  obtain ⟨hplace, hruns⟩ := Bool.and_eq_true_iff.1 hrun
  obtain ⟨htick, hprice⟩ := of_decide_eq_true hplace
  obtain ⟨result, b', hswap, -⟩ := exists_of_succeedsWith hruns
  obtain ⟨-, -, -, hnext, hends⟩ := price_and_tick_agree (reached_of_sample hsample).attained
  obtain ⟨hleads, htoward⟩ := hends m.config none _ 0 _ result b' (by decide) hswap
  rw [hprice] at hleads
  exact ⟨m, total, result, b', hsample, htick, hprice, hnext (by rw [htick]; decide), hswap, hleads,
    htoward⟩

end Market

end Clmm
