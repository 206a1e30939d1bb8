import Clmm.Proofs.Reachable

/-!
# Clmm.Proofs.Configured

**A market stays under the fee config that it was created with** (`Attained.configured`): no operation
touches the config or the tick spacing, so what was checked when the config was accepted holds in every
market that a run leads to. A spacing of 16 bits is small enough for every index that a market works with
to fit 32 bits (`startOf_eq`).
-/

namespace Clmm

/-- What is known of a config that was accepted. -/
structure FeeConfig.Accepted (c : FeeConfig) : Prop where
  spacing_pos : 0 < c.spacing
  spacing_le : c.spacing ≤ maxTickSpacing
  rates_le : c.tradeRate + c.protocolRate + c.fundRate ≤ feeDenominator
  tradeRate_lt : c.tradeRate < feeDenominator

theorem FeeConfig.accepted_of_setUp {blank config : FeeConfig} {signer admin : Key} {bump index : Nat}
    {params : FeeConfig.Params} (h : blank.setUp signer admin bump index params = .ok config) :
    config.Accepted := by
  simp only [FeeConfig.setUp, FeeConfig.Params.isValid] at h
  simp only [Outcome.bind_eq_ok, require_eq_ok, Bool.and_eq_true, decide_eq_true_eq] at h
  obtain ⟨_, -, _, ⟨⟨⟨hpos, hle⟩, hrates⟩, hlt⟩, h⟩ := h
  obtain rfl := Except.ok.inj h
  exact ⟨hpos, hle, hrates, hlt⟩

/-! ### Indices in 32 bits -/

namespace TickArray

variable {t : Int} {spacing : Nat}

/-- The start of a tick's array lies less than a span, and so less than four million, below the tick. -/
theorem floorStart_bounds (hpos : 0 < spacing) (hwidth : spacing < 2 ^ 16) (hmin : minTick ≤ t)
    (hmax : t ≤ maxTick) : -2 ^ 23 ≤ floorStart t spacing ∧ floorStart t spacing ≤ maxTick := by
  have hstart := floorStart_le t hpos
  have hnext := lt_floorStart_add t hpos
  have hspan : span spacing ≤ 60 * 2 ^ 16 := by
    simp only [span]
    omega
  simp only [minTick] at hmin
  simp only [maxTick] at hmax ⊢
  omega

theorem startOf_eq (hpos : 0 < spacing) (hwidth : spacing < 2 ^ 16) (hmin : minTick ≤ t)
    (hmax : t ≤ maxTick) : startOf t spacing = .ok (floorStart t spacing) := by
  obtain ⟨hlow, hhigh⟩ := floorStart_bounds hpos hwidth hmin hmax
  simp only [startOf]
  rw [Outcome.bind_eq_ok]
  refine ⟨(), guardFault_eq_ok.2 hpos.ne', signedWithin_eq_ok.2 ⟨⟨?_, ?_⟩, rfl⟩⟩
  · omega
  · simp only [maxTick] at hhigh
    omega

/-- The spacing of a config has 16 bits. -/
theorem spacing_lt_of_le (hle : spacing ≤ maxTickSpacing) : spacing < 2 ^ 16 :=
  Nat.lt_of_le_of_lt hle (by decide)

end TickArray

/-! ### The config of a run -/

namespace Market

variable {m m' : Market} {total paid : Payment}

/-- The market's config was accepted, and the pool has its tick spacing. -/
structure Configured (m : Market) : Prop where
  accepted : m.config.Accepted
  spacing : m.pool.spacing = m.config.spacing

theorem Configured.spacing_le (h : m.Configured) : m.pool.spacing ≤ maxTickSpacing :=
  h.spacing ▸ h.accepted.spacing_le

theorem increase_config_eq (hm : m.Orderly) {i n : Nat} {d : Deposit} {derived : Bool} {s : Supply}
    {change : LiquidityChange} (h : m.increase i d derived s = .ok (m', n, change)) :
    m'.config = m.config ∧ m'.pool.spacing = m.pool.spacing := by
  obtain ⟨_, _, _, _, _, _, _, -, -, hc, rfl⟩ := increase_eq_ok hm h
  exact ⟨congrArg (·.config) hc.rest, congrArg (·.spacing) hc.pool⟩

/-- An operation touches neither the config nor the tick spacing. -/
theorem Performs.config_eq {op : Operation} (h : m.Performs op m' paid) (hm : m.Orderly) :
    m'.config = m.config ∧ m'.pool.spacing = m.pool.spacing := by
  cases h with
  | setUpArray h =>
      obtain ⟨_, -, rfl⟩ := addArray_eq_ok h
      exact ⟨rfl, rfl⟩
  | setUpPosition => exact ⟨rfl, rfl⟩
  | openPosition h =>
      have hconfig := increase_config_eq (hm.setUpPosition _ _) h
      exact hconfig
  | increase h => exact increase_config_eq hm h
  | decrease h =>
      obtain ⟨_, _, _, _, _, _, _, -, hc, -, rfl⟩ := decrease_eq_ok hm h
      exact ⟨congrArg (·.config) hc.rest, congrArg (·.spacing) hc.pool⟩
  | swap h =>
      obtain ⟨_, _, _, _, hswapped, -, hm'⟩ := swap_eq_ok h
      rw [hm']
      exact ⟨rfl, congrArg (·.spacing) hswapped.pool⟩
  | takeProtocolFees => exact ⟨rfl, rfl⟩
  | takeFundFees => exact ⟨rfl, rfl⟩

theorem Configured.perform (hm : m.Orderly) (hc : m.Configured) {op : Operation}
    (h : m.perform op = .ok (m', paid)) : m'.Configured := by
  obtain ⟨hconfig, hspacing⟩ := (performs_of_perform h).config_eq hm
  refine ⟨hconfig ▸ hc.accepted, ?_⟩
  rw [hspacing, hconfig, hc.spacing]

/-- **Every market that a run leads to stands under an accepted config.** -/
theorem Attained.configured (h : Attained m) : m.Configured := by
  induction h with
  | created hconfig hcreate =>
      obtain ⟨_, -, rfl⟩ := create_eq_ok hcreate
      exact ⟨FeeConfig.accepted_of_setUp hconfig, rfl⟩
  | performed op hattained _ hperform ih => exact ih.perform hattained.orderly hperform

theorem Reached.configured (h : Reached m total) : m.Configured := h.attained.configured

end Market

end Clmm
