import Clmm.Proofs.PositionChange
import Clmm.Proofs.RangeAmounts

/-!
# Clmm.Proofs.PositionBalance

**A deposit pays at least for what the claims rise by, and a withdrawal takes at most what they fall
by** (`Changed.claims_le`). The price stands still, so the liquidity that comes or goes is worth the same
per unit before and after, and its amounts are rounded in favour of the pool (`amountsFor_bounds`). What
a settlement adds to the owed fees is at most what had grown and was not settled. The other positions
notice nothing: the boundary ticks that they share keep their growth (`Changed.outside`).
-/

namespace Clmm

open TickTable

/-! ### Settled fees -/

/-- A settlement adds at most what the growth is to the liquidity. -/
theorem accrued_le {liquidity fees : Nat} {inside last : Growth}
    (h : Position.accrued liquidity inside last = .ok fees) :
    (fees : ℚ) ≤ liquidity * ((inside - last).toNat / 2 ^ 64) := by
  simp only [Position.accrued] at h
  by_cases hzero : inside - last = 0 ∨ liquidity = 0
  · rw [if_pos hzero] at h
    obtain rfl := Except.ok.inj h
    rw [Nat.cast_zero]
    positivity
  · rw [if_neg hzero, Outcome.bind_eq_ok] at h
    obtain ⟨_, hdiv, h⟩ := h
    rw [narrow_eq_ok] at h
    obtain ⟨-, rfl⟩ := h
    obtain ⟨hpos, hdiv⟩ := mulDiv_eq_ok hdiv
    have hle := (le_cast_div_iff hpos).1 (Nat.le_of_eq hdiv.symm)
    push_cast at hle
    rw [mul_comm, div_mul_eq_mul_div]
    exact hle

theorem pendingFees_le {p : Position} {inside : Pair Growth} {owed : Pair Nat}
    (h : p.pendingFees inside = .ok owed) (x : Token) :
    (owed.get x : ℚ) ≤ p.liquidity * ((inside.get x - p.growthLast.get x).toNat / 2 ^ 64) := by
  simp only [Position.pendingFees] at h
  rw [Outcome.bind_eq_ok] at h
  obtain ⟨n₀, hzero, h⟩ := h
  rw [Outcome.bind_eq_ok] at h
  obtain ⟨n₁, hone, h⟩ := h
  obtain rfl := Except.ok.inj h
  cases x with
  | zero => exact accrued_le hzero
  | one => exact accrued_le hone

/-- Only the indices and the outside growth of the bounds enter the growth inside a range. -/
theorem growthInside_congr {l l' u u' : Tick} (hl : l.index = l'.index) (hu : u.index = u'.index)
    (hlOutside : l.outside = l'.outside) (huOutside : u.outside = u'.outside) (tick : Int)
    (growth : Pair Growth) :
    Tick.growthInside l u tick growth = Tick.growthInside l' u' tick growth := by
  simp only [Tick.growthInside, Tick.growthBelow, Tick.growthAbove]
  rw [hl, hu, hlOutside, huOutside]

/-! ### The change of one position -/

namespace Changed

variable {m m' : Market} {p p' q : Position} {i : Nat} {delta : Int} {amounts : Pair Nat}
  {lowerMade lower upperMade upper : Tick}

/-- A tick in use before and after a change keeps its growth. -/
theorem outside (hc : Changed m m' p p' delta amounts lowerMade lower upperMade upper) {u : Int}
    (hold : (TickTable.lookup m.arrays u).gross ≠ 0)
    (hnew : (TickTable.lookup m'.arrays u).gross ≠ 0) :
    (TickTable.lookup m'.arrays u).outside = (TickTable.lookup m.arrays u).outside := by
  -- a boundary tick in use keeps its growth, and any other tick is not touched
  rcases hc.lookup_cases u with hkept | ⟨made, bound, hchanged⟩
  · rw [hkept]
  · rw [hchanged.kept hnew, hchanged.outside hold]

/-- The claims see of the change only what it did to the position and to its boundary ticks. -/
theorem scene_eq (hc : Changed m m' p p' delta amounts lowerMade lower upperMade upper) :
    m'.scene.sqrtPrice = m.scene.sqrtPrice ∧ m'.scene.tick = m.scene.tick ∧
      m'.scene.growth = m.scene.growth := by
  have hpool := hc.pool
  refine ⟨?_, ?_, ?_⟩
  · change m'.pool.sqrtPrice = m.pool.sqrtPrice
    rw [hpool]
  · change m'.pool.tick = m.pool.tick
    rw [hpool]
  · change m'.pool.growth = m.pool.growth
    rw [hpool]

/-- If its bounds were in use, the position settles the growth that the market showed. -/
theorem made_inside (hc : Changed m m' p p' delta amounts lowerMade lower upperMade upper)
    (hlower : (TickTable.lookup m.arrays p.lower).gross ≠ 0)
    (hupper : (TickTable.lookup m.arrays p.upper).gross ≠ 0) :
    Tick.growthInside lowerMade upperMade m.pool.tick m.pool.growth = m.scene.inside p :=
  growthInside_congr hc.lowerChanged.index_made hc.upperChanged.index_made
    (hc.lowerChanged.outside hlower) (hc.upperChanged.outside hupper) _ _

/-- If its bounds stay in use, the market shows the growth that the position settled. -/
theorem inside_made (hc : Changed m m' p p' delta amounts lowerMade lower upperMade upper)
    (hlower : lower.gross ≠ 0) (hupper : upper.gross ≠ 0) :
    m'.scene.inside p = Tick.growthInside lowerMade upperMade m.pool.tick m.pool.growth := by
  obtain ⟨-, htick, hgrowth⟩ := hc.scene_eq
  simp only [Scene.inside]
  rw [htick, hgrowth]
  change Tick.growthInside (TickTable.lookup m'.arrays p.lower) (TickTable.lookup m'.arrays p.upper)
    _ _ = _
  rw [hc.lookup_lower, hc.lookup_upper, hc.lowerChanged.kept hlower, hc.upperChanged.kept hupper]
  rfl

/-- The growth inside the range of every other position stays. -/
theorem inside_other (hc : Changed m m' p p' delta amounts lowerMade lower upperMade upper)
    (hm : m.WellFormed)
    (hm' : ({ m' with positions := m.positions.set i q } : Market).WellFormed) {r : Position} {j : Nat}
    (hj : j ≠ i) (hr : m.positions[j]? = some r) (hne : r.liquidity ≠ 0) :
    m'.scene.inside r = m.scene.inside r := by
  obtain ⟨-, htick, hgrowth⟩ := hc.scene_eq
  have hr' : (m.positions.set i q)[j]? = some r := by
    rw [List.getElem?_set_ne hj.symm]
    exact hr
  obtain ⟨hlower, hupper⟩ := grossAt_bounds (List.mem_of_getElem? hr) hne
  obtain ⟨hlower', hupper'⟩ := grossAt_bounds (List.mem_of_getElem? hr') hne
  have houtside : ∀ u, grossAt m.positions u ≠ 0 → grossAt (m.positions.set i q) u ≠ 0 →
      (TickTable.lookup m'.arrays u).outside = (TickTable.lookup m.arrays u).outside := by
    intro u hold hnew
    apply hc.outside
    · rwa [hm.gross]
    · rwa [hm'.gross u]
  -- both bounds are in use before and after
  simp only [Scene.inside]
  rw [htick, hgrowth]
  apply growthInside_congr
  · rw [Scene.index_table, Scene.index_table]
  · rw [Scene.index_table, Scene.index_table]
  · exact houtside _ hlower hlower'
  · exact houtside _ hupper hupper'

/-- Every other position can claim afterwards what it could before. -/
theorem share_other (hc : Changed m m' p p' delta amounts lowerMade lower upperMade upper)
    (hm : m.WellFormed)
    (hm' : ({ m' with positions := m.positions.set i q } : Market).WellFormed) {r : Position} {j : Nat}
    (hj : j ≠ i) (hr : m.positions[j]? = some r) (hne : r.liquidity ≠ 0) (x : Token) :
    m'.scene.share r x = m.scene.share r x := by
  simp only [Scene.share]
  rw [Scene.unsettled_eq_inside, Scene.unsettled_eq_inside, hc.scene_eq.1,
    hc.inside_other hm hm' hj hr hne]

/-- What was unsettled is owed now, rounded down. -/
theorem owed_le (hc : Changed m m' p p' delta amounts lowerMade lower upperMade upper)
    (hm : m.WellFormed) (hp : p ∈ m.positions) (x : Token) :
    (p'.owed.get x : ℚ) ≤
      p.owed.get x + p.liquidity * ((m.scene.unsettled p x).toNat / 2 ^ 64) := by
  obtain ⟨settled, hsettle, held, -, rfl⟩ := hc.position
  obtain ⟨fees, hfees, rfl⟩ := settle_eq_ok hsettle
  have hsum : ((⟨p.owed.zero + fees.zero, p.owed.one + fees.one⟩ : Pair Nat).get x : ℚ) =
      p.owed.get x + fees.get x := by
    cases x with
    | zero => exact Nat.cast_add _ _
    | one => exact Nat.cast_add _ _
  rw [hsum]
  have hle := pendingFees_le hfees x
  by_cases hne : p.liquidity = 0
  · rw [hne, Nat.cast_zero, zero_mul] at hle ⊢
    linarith
  · -- the boundary ticks are in use, so their growth is that of the market
    obtain ⟨hlower, hupper⟩ := grossAt_bounds hp hne
    rw [← hm.gross] at hlower hupper
    rw [hc.made_inside hlower hupper] at hle
    rw [Scene.unsettled_eq_inside]
    linarith

/-- After a change nothing of the position is unsettled. -/
theorem unsettled_eq (hc : Changed m m' p p' delta amounts lowerMade lower upperMade upper)
    (hm' : ({ m' with positions := m.positions.set i q } : Market).WellFormed)
    (hi : m.positions[i]? = some p) (hlower : q.lower = p.lower) (hupper : q.upper = p.upper)
    (hne : q.liquidity ≠ 0) (hlast : q.growthLast = p'.growthLast) (x : Token) :
    m'.scene.unsettled q x = 0 := by
  obtain ⟨settled, hsettle, held, -, rfl⟩ := hc.position
  obtain ⟨fees, -, rfl⟩ := settle_eq_ok hsettle
  have hq : q ∈ m.positions.set i q := by
    have hlt := (List.getElem?_eq_some_iff.1 hi).1
    exact List.mem_of_getElem? (List.getElem?_set_self hlt)
  obtain ⟨hlower', hupper'⟩ := grossAt_bounds hq hne
  have hgross := hm'.gross q.lower
  have hgross' := hm'.gross q.upper
  change (TickTable.lookup m'.arrays q.lower).gross = _ at hgross
  change (TickTable.lookup m'.arrays q.upper).gross = _ at hgross'
  rw [hlower, hc.lookup_lower, ← hlower] at hgross
  rw [hupper, hc.lookup_upper, ← hupper] at hgross'
  have hsame : m'.scene.inside q = m'.scene.inside p := by
    simp only [Scene.inside]
    rw [hlower, hupper]
  rw [Scene.unsettled_eq_inside, hsame, hc.inside_made (hgross ▸ hlower') (hgross' ▸ hupper'), hlast]
  exact sub_self _

/-- **A change of liquidity** changes the claims by at most what the liquidity is worth. -/
theorem claims_le (hc : Changed m m' p p' delta amounts lowerMade lower upperMade upper)
    (hm : m.WellFormed) (hi : m.positions[i]? = some p) (x : Token) :
    ({ m' with positions := m.positions.set i p' } : Market).claims x ≤
      m.claims x + delta * p.unitWorth m.pool.sqrtPrice x := by
  obtain ⟨hlower, hupper, hliquidity⟩ := hc.bounds
  obtain ⟨hprice, -, -⟩ := hc.scene_eq
  -- only the share of the changed position is another
  have hm' := hc.wellFormed hm hi hlower hupper hliquidity
  have hsum := sum_map_set_of_eq hi p'
    (f := fun r => (r.liquidity : ℚ) * m.scene.share r x + (r.owed.get x : ℚ))
    (g := fun r => (r.liquidity : ℚ) * m'.scene.share r x + (r.owed.get x : ℚ)) (by
      intro j r hj hr
      by_cases hne : r.liquidity = 0
      · simp [hne]
      · rw [hc.share_other hm hm' hj hr hne])
  have howed := hc.owed_le hm (List.mem_of_getElem? hi) x
  have hworth : p'.unitWorth m'.scene.sqrtPrice x = p.unitWorth m.pool.sqrtPrice x := by
    simp only [Position.unitWorth, Position.clamp, Position.emptyPrice]
    rw [hprice, hlower, hupper]
    rfl
  have hnew : (p'.liquidity : ℚ) * m'.scene.share p' x =
      p'.liquidity * p.unitWorth m.pool.sqrtPrice x := by
    simp only [Scene.share]
    by_cases hne : p'.liquidity = 0
    · simp [hne]
    · rw [hc.unsettled_eq hm' hi hlower hupper hne rfl, hworth]
      simp
  have hold : (p.liquidity : ℚ) * m.scene.share p x = p.liquidity * p.unitWorth m.pool.sqrtPrice x +
      p.liquidity * ((m.scene.unsettled p x).toNat / 2 ^ 64) := by
    simp only [Scene.share]
    exact mul_add _ _ _
  have hdelta : (p'.liquidity : ℚ) = p.liquidity + delta := by exact_mod_cast hliquidity
  change ((m.positions.set i p').map fun r =>
      (r.liquidity : ℚ) * m'.scene.share r x + (r.owed.get x : ℚ)).sum ≤ _
  simp only [Market.claims]
  rw [hnew, hold, hdelta, add_mul] at hsum
  linarith

end Changed

end Clmm
