import Clmm.Proofs.Afoot

/-!
# Clmm.Proofs.Walk

**A walk crosses exactly the ticks it passes.** In a well-formed market a step either *drifts*, passing
no tick in use, or *crosses* the next one (`step_moves`); and `Walking`, the invariant of a walk, says that the crossed ticks are those that were ahead and
are not any more, each once and in order, and that the liquidity in range is that of the tick.

There is one exception, which ends the walk: an upward walk that does not see past the native span can
come to stand on a tick in use that it has not crossed (`Stuck`).
-/

namespace Clmm

open TickTable

namespace Direction

variable {d : Direction} {s t u : Int}

theorem beyond_of_not_ahead (hs : ¬ d.Ahead t s) (hu : d.Ahead t u) : d.Beyond s u := by
  cases d
  · exact Int.lt_of_le_of_lt hu (Int.not_le.1 hs)
  · exact Int.lt_of_le_of_lt (Int.not_lt.1 hs) hu

/-- Having a tick ahead, or not, is a matter of which ticks lie at or below. -/
theorem ahead_iff_ahead (d : Direction) : (d.Ahead s u ↔ d.Ahead t u) ↔ (u ≤ s ↔ u ≤ t) := by
  cases d with
  | down => exact Iff.rfl
  | up =>
      change (s < u ↔ t < u) ↔ _
      omega

/-- The tick at which a walk stands just before it meets tick `s`, coming from far. -/
def before (d : Direction) (s : Int) : Int :=
  match d with
  | down => s
  | up => s - 1

end Direction

namespace Swap

/-! ### The setting of a walk -/

/-- The surroundings in which a market's walks take place. What the bitmap does not show lies beyond
the edge, except that upward the edge itself is not shown. -/
structure Setting (m : Market) (c : Course) (supplied : List TickArray) : Prop where
  wellFormed : m.WellFormed
  surveys : c.Surveys m.arrays supplied
  low : minSqrtPrice < c.limit
  high : c.direction = .up → c.limit < maxSqrtPrice
  shown : ∀ t, c.Shows m.arrays t → ¬ c.direction.Beyond c.edgeTick t
  hidden : ∀ t, m.InUse t → ¬ c.Shows m.arrays t → c.direction.Ahead m.pool.tick t →
    c.direction = .up ∧ t = c.edgeTick ∨ c.direction.Beyond c.edgeTick t

/-- The ticks a walk has crossed, in order. -/
def Walk.crossed (w : Walk) : List Int := w.crossings.map (·.tick.index)

/-- **The invariant of a walk.** -/
structure Walking (m : Market) (c : Course) (supplied : List TickArray) (w : Walk) : Prop where
  ready : ReadyAt c m.arrays supplied w.tick w.cursor
  price : Agrees w.sqrtPrice w.tick
  toward : c.direction.Leads w.sqrtPrice c.limit
  remaining : w.remaining < 2 ^ 64
  onward : ∀ t, m.InUse t → c.direction.Ahead w.tick t → c.direction.Ahead m.pool.tick t
  liquidity : w.liquidity = liquidityAt m.positions w.tick
  crossed : ∀ t, t ∈ w.crossed ↔
    m.InUse t ∧ c.direction.Ahead m.pool.tick t ∧ ¬ c.direction.Ahead w.tick t
  shown : ∀ t ∈ w.crossed, c.Shows m.arrays t
  ordered : w.crossed.Pairwise c.direction.Beyond
  fits : ∀ x ∈ w.crossings, x.Fits c m.arrays supplied

theorem Walking.afoot {m : Market} {c : Course} {supplied : List TickArray} {w : Walk}
    (h : Walking m c supplied w) : Afoot c m.arrays supplied w :=
  ⟨h.ready, h.price, h.toward, h.remaining, h.fits⟩

/-- A walk that stands on a tick in use which it did not see and has not crossed. -/
structure Stuck (m : Market) (c : Course) (supplied : List TickArray) (w : Walk) : Prop where
  up : c.direction = .up
  cursor : w.cursor = none
  edge : w.tick = c.visible.2
  inUse : m.InUse w.tick
  hidden : ¬ c.Shows m.arrays w.tick
  price : Agrees w.sqrtPrice w.tick
  toward : w.sqrtPrice ≤ c.limit
  liquidity : w.liquidity = liquidityAt m.positions (w.tick - 1)
  fits : ∀ x ∈ w.crossings, x.Fits c m.arrays supplied

/-- A step passes no tick in use. -/
structure Drifts (m : Market) (w moved w' : Walk) : Prop where
  price : Agrees moved.sqrtPrice w'.tick
  same : ∀ t, m.InUse t → (t ≤ w'.tick ↔ t ≤ w.tick)
  rest : w' = { moved with tick := w'.tick }

/-- A step crosses tick `t`, the next one in use. -/
structure Crosses (m : Market) (c : Course) (supplied : List TickArray) (w : Walk) (t : Int)
    (moved w' : Walk) (k : Cursor) (offset : Nat) : Prop where
  inUse : m.InUse t
  shows : c.Shows m.arrays t
  price : moved.sqrtPrice = priceAt t
  arrives : Agrees moved.sqrtPrice (c.direction.arrive t)
  ready : k.Ready c m.arrays supplied w.tick
  slot : ∃ _ : offset < arraySize, k.array.ticks[offset] = lookup m.arrays t
  cursor : moved.cursor = some k
  liquidity : (w'.liquidity : Int) = w.liquidity + (match c.direction with
    | .down => -netAt m.positions t
    | .up => netAt m.positions t)
  rest : w' = { moved with
    tick := c.direction.arrive t, liquidity := w'.liquidity,
    crossings := w.crossings ++ [⟨k.index, offset,
      (lookup m.arrays t).cross (c.growth.set c.direction.input moved.growth)⟩] }

section Invariant

variable {m : Market} {c : Course} {arrays supplied : List TickArray} {w w' moved : Walk} {t : Int}
  {s : SwapStep} {split : FeeSplit} {growth : Growth} {found : Option (Cursor × Nat)}

/-! ### Where a step heads -/

theorem Heads.bound_some {k : Cursor} {offset : Nat}
    (h : Heads c w (some (k, offset)) t) (hs : Setting m c supplied)
    (hw : Walking m c supplied w) : k.Ready c m.arrays supplied w.tick ∧
      c.direction.Nearest (c.Shows m.arrays) w.tick t ∧
      ∃ _ : offset < arraySize, k.array.ticks[offset] = lookup m.arrays t := by
  obtain ⟨hready, hlt, hnearest⟩ := finds_of_target hs.surveys hw.ready h.target_eq
  have hmem := hs.surveys.own _ hready.mem
  have hindex : k.array.ticks[offset].index = t := by
    rw [(hs.surveys.laid.aligned _ hmem).index offset hlt]
    exact TickArray.indexAt_eq_ok h.bound_eq hlt
  refine ⟨hready, hindex ▸ hnearest, hlt, ?_⟩
  rw [← hindex]
  exact (lookup_of_mem hs.surveys.laid (mem_ticks.2 ⟨_, hmem, offset, hlt, rfl⟩)).symm

theorem Heads.finds (h : Heads c w found t) (hs : Setting m c supplied)
    (hw : Walking m c supplied w) : Finds c m.arrays supplied w.tick found :=
  finds_of_target hs.surveys hw.ready h.target_eq

/-- No tick in use lies before the bound. -/
theorem Heads.eq_or_beyond (h : Heads c w found t) (hs : Setting m c supplied)
    (hw : Walking m c supplied w) {u : Int} (hu : m.InUse u) (hahead : c.direction.Ahead w.tick u) :
    u = t ∨ c.direction.Beyond t u := by
  by_cases hshown : c.Shows m.arrays u
  · cases found with
    | none => exact absurd hahead (h.finds hs hw u hshown)
    | some place => exact (h.bound_some hs hw).2.1.first u hshown hahead
  · -- what the bitmap does not show lies at the edge or beyond
    have hpast := hs.hidden u hu hshown (hw.onward u hu hahead)
    cases found with
    | none =>
        obtain ⟨rfl, -⟩ := edge_eq_ok h.bound_eq
        rcases hpast with ⟨-, rfl⟩ | hbeyond
        · exact Or.inl rfl
        · exact Or.inr hbeyond
    | some place =>
        -- a tick that is shown does not lie beyond the edge
        have hbefore := hs.shown t (h.bound_some hs hw).2.1.mem
        rcases Direction.eq_or_beyond_or_beyond c.direction c.edgeTick t with rfl | hbeyond | hbeyond
        · rcases hpast with ⟨-, rfl⟩ | hbeyond
          · exact Or.inl rfl
          · exact Or.inr hbeyond
        · exact absurd hbeyond hbefore
        · rcases hpast with ⟨-, rfl⟩ | hpast
          · exact Or.inr hbeyond
          · exact Or.inr (hbeyond.trans hpast)

/-! ### How a step ends -/

/-- Up to the bound, the ticks in use are those up to the walk's tick. -/
theorem Heads.same_before (h : Heads c w found t) (hs : Setting m c supplied)
    (hw : Walking m c supplied w) {u : Int} (hu : m.InUse u) :
    u ≤ c.direction.before t ↔ u ≤ w.tick := by
  have hbound := h.ahead
  have hnext := h.eq_or_beyond hs hw hu
  cases hd : c.direction with
  | down =>
      rw [hd] at hbound hnext
      simp only [Direction.before, Direction.Ahead, Direction.Beyond] at *
      omega
  | up =>
      rw [hd] at hbound hnext
      simp only [Direction.before, Direction.Ahead, Direction.Beyond] at *
      omega

theorem Leg.drifts_edge (hl : Leg c w none t s split growth moved) (hs : Setting m c supplied)
    (hw : Walking m c supplied w) (hprice : s.sqrtPrice = priceAt t)
    (hfree : ¬ (c.direction = .up ∧ m.InUse t)) :
    Drifts m w moved { moved with tick := c.direction.arrive t } := by
  have hsound := hl.sound hs.low hw.afoot.underway
  have hmoved : moved.sqrtPrice = priceAt t := by
    rw [hl.settled.rest]
    exact hprice
  refine ⟨?_, fun u hu => ?_, rfl⟩
  · change Agrees moved.sqrtPrice (c.direction.arrive t)
    rw [hmoved]
    exact agrees_arrive hl.low hl.high hs.low (hprice ▸ hsound.stays.trans nearer_leads.2)
  · rw [← Direction.ahead_iff_ahead c.direction, Direction.ahead_arrive]
    constructor
    · exact hl.heads.ahead.of_beyond
    · intro hahead
      rcases hl.heads.eq_or_beyond hs hw hu hahead with rfl | hbeyond
      · -- nothing is shown ahead, and the edge itself is hidden only upward
        have hnot := mt (hl.heads.finds hs hw u) (not_not_intro hahead)
        obtain ⟨rfl, -⟩ := edge_eq_ok hl.bound_eq
        rcases hs.hidden _ hu hnot (hw.onward _ hu hahead) with ⟨hup, -⟩ | hself
        · exact absurd ⟨hup, hu⟩ hfree
        · exact absurd hself Direction.not_beyond_self
      · exact hbeyond

theorem Leg.drifts_stop (hl : Leg c w found t s split growth moved) (hs : Setting m c supplied)
    (hw : Walking m c supplied w) (hprice : s.sqrtPrice ≠ priceAt t) {u : Int}
    (htick : tickAt s.sqrtPrice = .ok u) (hmoved : s.sqrtPrice ≠ w.sqrtPrice) :
    Drifts m w moved { moved with tick := u } := by
  have hsound := hl.sound hs.low hw.afoot.underway
  have hbelow := isTickBelow_of_tickAt htick
  have hsqrt : moved.sqrtPrice = s.sqrtPrice := hl.settled.sqrtPrice_eq
  have hleads := hsound.leads
  have hbound := hsound.stays.trans nearer_leads.1
  have hwhere := hl.heads.ahead
  refine ⟨?_, fun v hv => ?_, rfl⟩
  · change Agrees moved.sqrtPrice u
    rw [hsqrt]
    exact hbelow.agrees
  · have hnext := hl.heads.eq_or_beyond hs hw hv
    change v ≤ u ↔ v ≤ w.tick
    cases hd : c.direction with
    | down =>
        rw [hd] at hleads hbound hwhere hnext
        -- the price fell, so its tick is not above that of the walk
        have hle : u ≤ w.tick := ahead_of_isTickBelow hw.price hbelow hleads hmoved (Int.le_refl u)
        simp only [Direction.Ahead, Direction.Beyond, Direction.Leads] at *
        -- the bound was not reached, so its price is still below
        have hge : t ≤ u := hbelow.le_of_price_le hl.high (by omega)
        omega
    | up =>
        rw [hd] at hleads hbound hwhere hnext
        simp only [Direction.Ahead, Direction.Beyond, Direction.Leads] at *
        have hle : w.tick ≤ u :=
          hbelow.le_of_price_le hw.price.le_max (Nat.le_trans hw.price.price_le hleads)
        -- the bound was not reached, so its price is still above
        have hlt : u < t := hbelow.lt_of_lt_price hl.low (by omega)
        omega

theorem Leg.stuck (hl : Leg c w none t s split growth moved) (hs : Setting m c supplied)
    (hw : Walking m c supplied w) (hprice : s.sqrtPrice = priceAt t) (hup : c.direction = .up)
    (hu : m.InUse t) : Stuck m c supplied { moved with tick := c.direction.arrive t } := by
  have hsound := hl.sound hs.low hw.afoot.underway
  have htoward := hsound.stays.trans nearer_leads.2
  have hmoved : moved.sqrtPrice = priceAt t := by
    rw [hl.settled.rest]
    exact hprice
  have harrive : c.direction.arrive t = t := by rw [hup]; rfl
  have hahead := hl.heads.ahead
  have hcrossings : moved.crossings = w.crossings := by rw [hl.settled.rest]
  refine ⟨hup, ?_, ?_, ?_, ?_, ?_, ?_, ?_, hcrossings ▸ hw.fits⟩
  · rw [hl.settled.rest]
    rfl
  · change c.direction.arrive t = c.visible.2
    rw [harrive, (edge_eq_ok hl.bound_eq).1]
    simp only [Course.edgeTick]
    rw [hup]
  · change m.InUse (c.direction.arrive t)
    rwa [harrive]
  · change ¬ c.Shows m.arrays (c.direction.arrive t)
    rw [harrive]
    exact mt (hl.heads.finds hs hw t) (not_not_intro hahead)
  · change Agrees moved.sqrtPrice (c.direction.arrive t)
    rw [hmoved]
    exact agrees_arrive hl.low hl.high hs.low (hprice ▸ htoward)
  · change moved.sqrtPrice ≤ c.limit
    rw [hmoved, ← hprice]
    rw [hup] at htoward
    exact htoward
  · change moved.liquidity = liquidityAt m.positions (c.direction.arrive t - 1)
    have hliquidity : moved.liquidity = w.liquidity := by rw [hl.settled.rest]
    rw [hliquidity, hw.liquidity, harrive]
    apply liquidityAt_eq_of_same
    intro u hu
    have := hl.heads.same_before hs hw hu
    rw [hup] at this
    exact this.symm

theorem Leg.crosses {k : Cursor} {offset : Nat} {arrived : Walk}
    (hl : Leg c w (some (k, offset)) t s split growth moved) (hs : Setting m c supplied)
    (hw : Walking m c supplied w) (hprice : s.sqrtPrice = priceAt t)
    (hcross : crossTick c moved k offset = .ok arrived) :
    Crosses m c supplied w t moved { arrived with tick := c.direction.arrive t } k offset := by
  have hsound := hl.sound hs.low hw.afoot.underway
  obtain ⟨hready, hnearest, hlt, hslot⟩ := hl.heads.bound_some hs hw
  obtain ⟨_, liquidity, hliquidity, rfl⟩ := crossTick_eq_ok hcross
  have hmoved : moved.sqrtPrice = priceAt t := by
    rw [hl.settled.rest]
    exact hprice
  obtain ⟨a, ha, huses, -⟩ := hnearest.mem
  have hinUse : m.InUse t := hs.wellFormed.inUse_iff_uses.2 ⟨a, ha, huses⟩
  refine ⟨hinUse, hnearest.mem, hmoved, ?_, hready, ⟨hlt, hslot⟩, ?_, ?_, ?_⟩
  · rw [hmoved]
    exact agrees_arrive hl.low hl.high hs.low (hprice ▸ hsound.stays.trans nearer_leads.2)
  · rw [hl.settled.rest]
    rfl
  · have hold : moved.liquidity = w.liquidity := by rw [hl.settled.rest]
    rw [hslot, hs.wellFormed.net, hold] at hliquidity
    exact hliquidity
  · have hold : moved.crossings = w.crossings := by rw [hl.settled.rest]
    rw [hslot, hold]

/-- **A step drifts, crosses the next tick, or gets stuck.** -/
theorem step_moves (hs : Setting m c supplied) (hw : Walking m c supplied w)
    (h : step c w = .ok w') :
    ∃ found t s split growth moved, Leg c w found t s split growth moved ∧
      (Drifts m w moved w' ∨ (∃ k offset, Crosses m c supplied w t moved w' k offset) ∨
        Stuck m c supplied w') := by
  obtain ⟨found, t, s, split, growth, moved, hl, hend⟩ := step_cases h
  refine ⟨found, t, s, split, growth, moved, hl, ?_⟩
  cases hend with
  | crosses hprice hcross => exact Or.inr (Or.inl ⟨_, _, hl.crosses hs hw hprice hcross⟩)
  | reachesEdge hprice =>
      by_cases hfree : c.direction = .up ∧ m.InUse t
      · exact Or.inr (Or.inr (hl.stuck hs hw hprice hfree.1 hfree.2))
      · exact Or.inl (hl.drifts_edge hs hw hprice hfree)
  | stops hprice hmoved htick => exact Or.inl (hl.drifts_stop hs hw hprice htick hmoved)
  | stays hprice hsame =>
      left
      have hsqrt : w'.sqrtPrice = w.sqrtPrice := by
        rw [hl.settled.rest]
        exact hsame
      have htick : w'.tick = w.tick := by rw [hl.settled.rest]
      refine ⟨?_, fun u _ => by rw [htick], rfl⟩
      rw [hsqrt, htick]
      exact hw.price

/-! ### The invariant along a walk -/

theorem walking_of_drifts (hs : Setting m c supplied) (hw : Walking m c supplied w)
    (hl : Leg c w found t s split growth moved) (hd : Drifts m w moved w') :
    Walking m c supplied w' := by
  have hahead : ∀ u, m.InUse u → (c.direction.Ahead w'.tick u ↔ c.direction.Ahead w.tick u) :=
    fun u hu => (Direction.ahead_iff_ahead c.direction).2 (hd.same u hu)
  have hcrossings : w'.crossings = w.crossings := by rw [hd.rest, hl.settled.rest]
  have hcrossed : w'.crossed = w.crossed := by
    simp only [Walk.crossed]
    rw [hcrossings]
  exact {
    ready := by
      have hcursor : w'.cursor = moved.cursor := by rw [hd.rest]
      rw [hcursor]
      apply (hl.ready hs.surveys hw.ready).mono
      intro u hu
      obtain ⟨a, ha, huses, -⟩ := hu
      exact (hahead u (hs.wellFormed.inUse_iff_uses.2 ⟨a, ha, huses⟩)).1
    price := by
      have hsqrt : w'.sqrtPrice = moved.sqrtPrice := by rw [hd.rest]
      rw [hsqrt]
      exact hd.price
    toward := by
      have hsqrt : w'.sqrtPrice = moved.sqrtPrice := by rw [hd.rest]
      rw [hsqrt]
      exact hl.toward hs.low hw.afoot.underway
    remaining := by
      have hle := hl.settled.remaining_le
      have hremaining : w'.remaining = moved.remaining := by rw [hd.rest]
      rw [hremaining]
      exact Nat.lt_of_le_of_lt hle hw.remaining
    onward := fun u hu hu' => hw.onward u hu ((hahead u hu).1 hu')
    liquidity := by
      have hliquidity : w'.liquidity = w.liquidity := by rw [hd.rest, hl.settled.rest]
      rw [hliquidity, hw.liquidity]
      exact (liquidityAt_eq_of_same hd.same).symm
    crossed := by
      intro u
      rw [hcrossed, hw.crossed u]
      constructor
      · intro hpassed
        obtain ⟨hu, hbefore, hnot⟩ := hpassed
        exact ⟨hu, hbefore, mt (hahead u hu).1 hnot⟩
      · intro hpassed
        obtain ⟨hu, hbefore, hnot⟩ := hpassed
        exact ⟨hu, hbefore, mt (hahead u hu).2 hnot⟩
    shown := hcrossed ▸ hw.shown
    ordered := hcrossed ▸ hw.ordered
    fits := hcrossings ▸ hw.fits }

/-- What is ahead after crossing tick `t` is what was ahead before, except `t`. -/
theorem Leg.ahead_arrive_iff (hl : Leg c w found t s split growth moved) (hs : Setting m c supplied)
    (hw : Walking m c supplied w) {u : Int} (hu : m.InUse u) :
    c.direction.Ahead (c.direction.arrive t) u ↔ c.direction.Ahead w.tick u ∧ u ≠ t := by
  rw [Direction.ahead_arrive]
  constructor
  · intro hbeyond
    exact ⟨hl.heads.ahead.of_beyond hbeyond, hbeyond.ne⟩
  · intro hboth
    obtain ⟨hahead, hne⟩ := hboth
    exact (hl.heads.eq_or_beyond hs hw hu hahead).resolve_left hne

namespace Crosses

variable {k : Cursor} {offset : Nat}

theorem crossed_eq (hx : Crosses m c supplied w t moved w' k offset) :
    w'.crossed = w.crossed ++ [t] := by
  simp only [Walk.crossed]
  rw [hx.rest, List.map_append]
  exact congrArg (_ ++ [·]) index_lookup

/-- What is ahead after a crossing is what was ahead before, except the crossed tick. -/
theorem ahead_iff (hl : Leg c w found t s split growth moved) (hs : Setting m c supplied)
    (hw : Walking m c supplied w) (hx : Crosses m c supplied w t moved w' k offset) {u : Int}
    (hu : m.InUse u) : c.direction.Ahead w'.tick u ↔ c.direction.Ahead w.tick u ∧ u ≠ t := by
  have htick : w'.tick = c.direction.arrive t := by rw [hx.rest]
  rw [htick]
  exact hl.ahead_arrive_iff hs hw hu

/-- Crossing a tick changes the liquidity as the positions say. -/
theorem liquidity_eq (hl : Leg c w found t s split growth moved) (hs : Setting m c supplied)
    (hw : Walking m c supplied w) (hx : Crosses m c supplied w t moved w' k offset) :
    w'.liquidity = liquidityAt m.positions (c.direction.arrive t) := by
  -- up to the tick that is crossed, the liquidity in range is that of the walk
  have hgap := liquidityAt_eq_of_same fun u hu => hl.heads.same_before hs hw hu
  have hnext := liquidityAt_sub_one hs.wellFormed.ranged t
  have hnew := hx.liquidity
  rw [hw.liquidity, ← hgap] at hnew
  cases hd : c.direction with
  | down =>
      simp only [hd, Direction.before, Direction.arrive] at hnew ⊢
      omega
  | up =>
      simp only [hd, Direction.before, Direction.arrive] at hnew ⊢
      omega

theorem mem_crossed_iff (hl : Leg c w found t s split growth moved) (hs : Setting m c supplied)
    (hw : Walking m c supplied w) (hx : Crosses m c supplied w t moved w' k offset) (u : Int) :
    u ∈ w'.crossed ↔
      m.InUse u ∧ c.direction.Ahead m.pool.tick u ∧ ¬ c.direction.Ahead w'.tick u := by
  have hbound := hl.heads.ahead
  rw [hx.crossed_eq, List.mem_append, List.mem_singleton, hw.crossed u]
  constructor
  · intro hor
    rcases hor with ⟨hu, hbefore, hnot⟩ | rfl
    · exact ⟨hu, hbefore, fun hu' => hnot ((hx.ahead_iff hl hs hw hu).1 hu').1⟩
    · have hnot : ¬ c.direction.Ahead w'.tick u :=
        fun hu' => ((hx.ahead_iff hl hs hw hx.inUse).1 hu').2 rfl
      exact ⟨hx.inUse, hw.onward _ hx.inUse hbound, hnot⟩
  · intro hpassed
    obtain ⟨hu, hbefore, hnot⟩ := hpassed
    by_cases hstill : c.direction.Ahead w.tick u
    · right
      by_contra hne
      exact hnot ((hx.ahead_iff hl hs hw hu).2 ⟨hstill, hne⟩)
    · exact Or.inl ⟨hu, hbefore, hstill⟩

end Crosses

theorem walking_of_crosses (hs : Setting m c supplied) (hw : Walking m c supplied w)
    (hl : Leg c w found t s split growth moved) {k : Cursor} {offset : Nat}
    (hx : Crosses m c supplied w t moved w' k offset) : Walking m c supplied w' := by
  have htick : w'.tick = c.direction.arrive t := by rw [hx.rest]
  have hsqrt : w'.sqrtPrice = moved.sqrtPrice := by rw [hx.rest]
  have hcrossed := hx.crossed_eq
  exact {
    ready := by
      have hcursor : w'.cursor = some k := by
        rw [hx.rest]
        exact hx.cursor
      rw [hcursor]
      apply hx.ready.mono
      intro u hu hu'
      obtain ⟨a, ha, huses, -⟩ := hu
      have hinUse : m.InUse u := hs.wellFormed.inUse_iff_uses.2 ⟨a, ha, huses⟩
      exact ((hx.ahead_iff hl hs hw hinUse).1 hu').1
    price := by
      rw [hsqrt, htick]
      exact hx.arrives
    toward := by
      rw [hsqrt]
      exact hl.toward hs.low hw.afoot.underway
    remaining := by
      have hle := hl.settled.remaining_le
      have hremaining : w'.remaining = moved.remaining := by rw [hx.rest]
      rw [hremaining]
      exact Nat.lt_of_le_of_lt hle hw.remaining
    onward := fun u hu hu' => hw.onward u hu ((hx.ahead_iff hl hs hw hu).1 hu').1
    liquidity := by
      rw [htick]
      exact hx.liquidity_eq hl hs hw
    crossed := hx.mem_crossed_iff hl hs hw
    shown := by
      intro u hu
      rw [hcrossed] at hu
      rcases List.mem_append.1 hu with hu | hu
      · exact hw.shown u hu
      · exact List.mem_singleton.1 hu ▸ hx.shows
    ordered := by
      -- the tick is ahead, and those crossed before are not any more
      rw [hcrossed, List.pairwise_append]
      refine ⟨hw.ordered, List.pairwise_singleton _ _, ?_⟩
      intro u hu v hv
      rw [List.mem_singleton.1 hv]
      exact Direction.beyond_of_not_ahead ((hw.crossed u).1 hu).2.2 hl.heads.ahead
    fits := by
      intro x hxmem
      rw [hx.rest] at hxmem
      rcases List.mem_append.1 hxmem with hold | hnew
      · exact hw.fits x hold
      · rw [List.mem_singleton.1 hnew]
        obtain ⟨hlt, hslot⟩ := hx.slot
        exact ⟨k.array, hs.surveys.own _ hx.ready.mem, hx.ready.first, hlt, _, by rw [hslot]⟩ }

/-- **A step keeps the invariant**, unless it gets stuck. -/
theorem step_walking (hs : Setting m c supplied) (hw : Walking m c supplied w)
    (h : step c w = .ok w') : Walking m c supplied w' ∨ Stuck m c supplied w' := by
  obtain ⟨found, t, s, split, growth, moved, hl, hd | ⟨k, offset, hx⟩ | hstuck⟩ :=
    step_moves hs hw h
  · exact Or.inl (walking_of_drifts hs hw hl hd)
  · exact Or.inl (walking_of_crosses hs hw hl hx)
  · exact Or.inr hstuck

/-- A walk that is stuck has nowhere to head: it already stands on the edge. -/
theorem Stuck.not_heads (h : Stuck m c supplied w) : ¬ Heads c w found t := by
  intro hheads
  have htarget := hheads.target_eq
  simp only [target] at htarget
  rw [h.cursor] at htarget
  obtain rfl := Except.ok.inj htarget
  have hahead := edge_eq_ok hheads.bound_eq
  simp only [Course.edgeTick] at hahead
  rw [h.up, ← h.edge] at hahead
  obtain ⟨rfl, hlt⟩ := hahead
  exact Int.lt_irrefl _ hlt

/-- A walk that is stuck takes no further step. -/
theorem Stuck.step_ne_ok (h : Stuck m c supplied w) : step c w ≠ .ok w' := by
  intro hstep
  obtain ⟨found, t, s, split, growth, moved, hl, -⟩ := step_cases hstep
  exact h.not_heads hl.heads

/-- The price at which a step ends is that of its move. -/
theorem Leg.sqrtPrice_eq (hl : Leg c w found t s split growth moved)
    (hmoves : Drifts m w moved w' ∨ ∃ k offset, Crosses m c supplied w t moved w' k offset) :
    w'.sqrtPrice = s.sqrtPrice := by
  have hmoved : moved.sqrtPrice = s.sqrtPrice := hl.settled.sqrtPrice_eq
  rcases hmoves with hd | ⟨k, offset, hx⟩
  · rw [hd.rest]
    exact hmoved
  · rw [hx.rest]
    exact hmoved

/-- What every step that drifts or crosses keeps holds at the end of a walk, unless it gets stuck. -/
theorem walking_induct {I : Walk → Prop} (hs : Setting m c supplied)
    (hkeep : ∀ {w w' moved : Walk} {found : Option (Cursor × Nat)} {t : Int} {s : SwapStep}
      {split : FeeSplit} {growth : Growth}, Walking m c supplied w → I w →
      Leg c w found t s split growth moved →
      (Drifts m w moved w' ∨ ∃ k offset, Crosses m c supplied w t moved w' k offset) → I w')
    (hw : Walking m c supplied w) (hI : I w) {n : Nat} (h : walk c n w = .ok w') :
    Walking m c supplied w' ∧ I w' ∨ Stuck m c supplied w' := by
  refine walk_induct (I := fun w => Walking m c supplied w ∧ I w ∨ Stuck m c supplied w) ?_
    (Or.inl ⟨hw, hI⟩) h
  intro w w' hor hstep
  rcases hor with ⟨hw, hI⟩ | hstuck
  · obtain ⟨found, t, s, split, growth, moved, hl, hd | ⟨k, offset, hx⟩ | hstuck⟩ :=
      step_moves hs hw hstep
    · exact Or.inl ⟨walking_of_drifts hs hw hl hd, hkeep hw hI hl (Or.inl hd)⟩
    · exact Or.inl ⟨walking_of_crosses hs hw hl hx, hkeep hw hI hl (Or.inr ⟨k, offset, hx⟩)⟩
    · exact Or.inr hstuck
  · exact absurd hstep hstuck.step_ne_ok

/-- **A walk crosses exactly the ticks it passes**, or gets stuck. -/
theorem walk_walking (hs : Setting m c supplied) (hw : Walking m c supplied w) {n : Nat}
    (h : walk c n w = .ok w') : Walking m c supplied w' ∨ Stuck m c supplied w' :=
  (walking_induct (I := fun _ => True) hs (fun _ _ _ _ => trivial) hw trivial h).imp_left And.left

end Invariant

end Swap

end Clmm
