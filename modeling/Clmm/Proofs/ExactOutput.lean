import Clmm.Proofs.Curve
import Clmm.Proofs.SplitSwap
import Clmm.Proofs.StepContract

/-!
# Clmm.Proofs.ExactOutput

**A swap for an exact output gives it, or all there was** (`exact_output_or_all_there_was`). Without a
price limit a swap with a fixed output pays out exactly what was asked for, unless its walk came to the end
of the price range. Then it crossed all the liquidity on the way and paid out everything that this held,
up to less than one unit for each leg of the way: the legs end at the crossed ticks, and the last one at the
limit.

The exception is real (`not_every_exact_output_is_exact`): a walk that comes to its limit is over like one
that has nothing left, and what a swap with a fixed output is checked for afterwards is its input only.

What carries the proof is how much of what the positions lost was not handed out (`withheld`). A leg that
does not use up what is left goes to its target and gives the floor of what the move is worth, so it
withholds less than one unit.
-/

namespace Clmm

namespace Swap

section Steps

variable {m : Market} {c : Course} {supplied : List TickArray} {w w' moved : Walk} {t : Int}
  {s : SwapStep} {split : FeeSplit} {growth : Growth} {found : Option (Cursor × Nat)} {amount : Nat}

/-! ### One leg -/

/-- Of what the positions lost so far, the part that was not paid out. -/
def withheld (m : Market) (c : Course) (amount : Nat) (w : Walk) : ℚ :=
  worth m.positions m.pool.sqrtPrice c.direction.output -
    worth m.positions w.sqrtPrice c.direction.output - w.paidOut c amount

/-- A leg withholds the difference of what its move is worth and what it gives. -/
theorem Leg.withheld_eq (hl : Leg c w found t s split growth moved) (hs : Setting m c supplied)
    (hw : Walking m c supplied w) : withheld m c amount moved = withheld m c amount w +
      ((w.liquidity : ℚ) * (holding c.direction.output w.sqrtPrice -
        holding c.direction.output s.sqrtPrice) - s.amountOut) := by
  have hranged := hs.wellFormed.ranged
  have hmove := worth_move hranged (hw.price.within hranged) (hl.within hs hw) c.direction.output
  rw [← hw.liquidity] at hmove
  have hsqrt : moved.sqrtPrice = s.sqrtPrice := hl.settled.sqrtPrice_eq
  simp only [withheld]
  rw [hsqrt, (hl.paid amount).2, hmove]
  ring

/-- A leg with a fixed output that leaves something to hand out withholds less than one unit. -/
theorem Leg.withholds_lt (hl : Leg c w found t s split growth moved) (hmode : c.mode = .exactOut)
    (hw : Underway c w) (hleft : moved.remaining ≠ 0) :
    (w.liquidity : ℚ) * (holding c.direction.output w.sqrtPrice -
      holding c.direction.output s.sqrtPrice) - s.amountOut < 1 := by
  have hcomputed := hl.computed
  have hamounts := hl.settled.amounts
  rw [hmode] at hcomputed hamounts
  obtain ⟨-, -, -, full, hfull, hgives⟩ := SwapStep.gives_compute hcomputed
  cases hgives with
  | arrives _ hprice hall =>
      -- the output is the floor, so one unit more would be too much
      have hfloor : ¬ full + 1 ≤ full := by omega
      rw [le_amountOut_iff (hl.heads.leads_nearer hw) hfull, not_le, ← hprice] at hfloor
      rw [hall]
      push_cast at hfloor
      linarith
  | stops _ _ hused =>
      have hremaining : moved.remaining + s.amountOut = w.remaining := hamounts.1
      omega

/-! ### The whole walk -/

/-- Something is left to hand out only if less than one unit was withheld for each crossing, and for the
last leg, if the walk is at its limit. -/
def Generous (m : Market) (c : Course) (amount : Nat) (w : Walk) : Prop :=
  w.remaining = 0 ∨ withheld m c amount w ≤ w.crossings.length ∨
    w.sqrtPrice = c.limit ∧ withheld m c amount w < w.crossings.length + 1

/-- A step crosses a tick, or it ended at the edge or short of its bound. -/
theorem Ending.crossings_cases (h : Ending c w t s moved found w') :
    (∃ x, w'.crossings = moved.crossings ++ [x]) ∨
      w'.crossings = moved.crossings ∧ (found = none ∨ s.sqrtPrice ≠ priceAt t) := by
  cases h with
  | crosses _ hcross =>
      obtain ⟨_, _, -, rfl⟩ := crossTick_eq_ok hcross
      exact Or.inl ⟨_, rfl⟩
  | reachesEdge => exact Or.inr ⟨rfl, Or.inl rfl⟩
  | stops hprice => exact Or.inr ⟨rfl, Or.inr hprice⟩
  | stays hprice => exact Or.inr ⟨rfl, Or.inr hprice⟩

/-- A step that ends at the edge or short of its bound and leaves something to hand out is at the
limit. -/
theorem Leg.at_limit (hl : Leg c w found t s split growth moved) (hlimit : minSqrtPrice < c.limit)
    (hw : Underway c w) (hedge : c.direction.Leads c.limit (priceAt c.edgeTick))
    (hends : found = none ∨ s.sqrtPrice ≠ priceAt t) (hleft : moved.remaining ≠ 0) :
    moved.sqrtPrice = c.limit := by
  by_cases hprice : s.sqrtPrice = priceAt t
  · -- the edge is at the limit or beyond
    obtain rfl := hends.resolve_right (not_not_intro hprice)
    obtain ⟨rfl, -⟩ := edge_eq_ok hl.bound_eq
    have hsqrt : moved.sqrtPrice = s.sqrtPrice := hl.settled.sqrtPrice_eq
    rw [← hprice, ← hsqrt] at hedge
    exact (hl.toward hlimit hw).antisymm hedge
  · exact (hl.isDone hprice).resolve_left hleft

/-- **Every step that is taken with a fixed output is generous.** -/
theorem Generous.step (hg : Generous m c amount w) (hs : Setting m c supplied)
    (hw : Walking m c supplied w) (hmode : c.mode = .exactOut)
    (hedge : c.direction.Leads c.limit (priceAt c.edgeTick)) (hgoes : isDone c w = false)
    (h : step c w = .ok w') : Generous m c amount w' := by
  obtain ⟨found, t, s, split, growth, moved, hl, hend⟩ := step_cases h
  obtain ⟨hsqrt, hremaining, hcalculated⟩ := hend.booked
  have hunderway := hw.afoot.underway
  have hcrossings : moved.crossings = w.crossings := by rw [hl.settled.rest]
  -- the walk was not over, so at most its crossings had withheld anything
  have hso : withheld m c amount w ≤ w.crossings.length := by
    rw [isDone_eq_false_iff] at hgoes
    exact (hg.resolve_left hgoes.1).resolve_right fun hat => hgoes.2 hat.1
  have hsame : withheld m c amount w' = withheld m c amount moved := by
    simp only [withheld, Walk.paidOut]
    rw [hsqrt, hremaining, hcalculated]
  simp only [Generous]
  rw [hremaining, hsqrt, hsame]
  by_cases hleft : moved.remaining = 0
  · exact Or.inl hleft
  right
  have hless : withheld m c amount moved < w.crossings.length + 1 := by
    have := hl.withholds_lt hmode hunderway hleft
    rw [hl.withheld_eq hs hw]
    linarith
  rcases hend.crossings_cases with ⟨x, hx⟩ | ⟨hx, hends⟩
  · left
    rw [hx, hcrossings, List.length_append, List.length_singleton, Nat.cast_add, Nat.cast_one]
    exact hless.le
  · right
    rw [hx, hcrossings]
    exact ⟨hl.at_limit hs.low hunderway hedge hends hleft, hless⟩

/-- **Every walk with a fixed output is generous**, unless it gets stuck. -/
theorem Comes.generous_or_stuck (h : Comes c w w') (hs : Setting m c supplied)
    (hw : Walking m c supplied w) (hmode : c.mode = .exactOut)
    (hedge : c.direction.Leads c.limit (priceAt c.edgeTick)) (hg : Generous m c amount w) :
    Generous m c amount w' ∨ Stuck m c supplied w' := by
  refine (h.keeps_or_stuck (I := fun w => Walking m c supplied w ∧ Generous m c amount w) ?_
    ⟨hw, hg⟩).imp_left And.right
  intro w w' hI hgoes hstep
  obtain ⟨hw, hg⟩ := hI
  exact (step_walking hs hw hstep).imp_left fun hw' => ⟨hw', hg.step hs hw hmode hedge hgoes hstep⟩

/-! ### Where a walk may end -/

/-- A step heads for no tick beyond the edge. -/
theorem Heads.leads_edge (h : Heads c w found t) (hs : Setting m c supplied)
    (hw : Walking m c supplied w) (hedge : minTick ≤ c.edgeTick ∧ c.edgeTick ≤ maxTick) :
    c.direction.Leads (priceAt t) (priceAt c.edgeTick) := by
  cases found with
  | none =>
      obtain ⟨rfl, -⟩ := edge_eq_ok h.bound_eq
      exact .refl _ _
  | some place =>
      obtain ⟨-, hnearest, -⟩ := h.bound_some hs hw
      have hbefore := hs.shown t hnearest.mem
      cases hd : c.direction with
      | down =>
          rw [hd] at hbefore
          exact priceAt_le hedge.1 (Int.not_lt.1 hbefore) h.high
      | up =>
          rw [hd] at hbefore
          exact priceAt_le h.low (Int.not_lt.1 hbefore) hedge.2

/-- A walk that has left its first price has not passed the price of the edge. -/
theorem leads_edge_of_walk (hs : Setting m c supplied) (hw : Walking m c supplied w)
    (hedge : minTick ≤ c.edgeTick ∧ c.edgeTick ≤ maxTick) {n : Nat} (h : walk c n w = .ok w') :
    w'.sqrtPrice = w.sqrtPrice ∨ c.direction.Leads w'.sqrtPrice (priceAt c.edgeTick) := by
  refine (walk_induct (I := fun v => (Walking m c supplied v ∨ Stuck m c supplied v) ∧
    (v.sqrtPrice = w.sqrtPrice ∨ c.direction.Leads v.sqrtPrice (priceAt c.edgeTick)))
    (fun {v v'} hv hstep => ?_) ⟨Or.inl hw, Or.inl rfl⟩ h).2
  have hwalking := hv.1.resolve_right fun hstuck => hstuck.step_ne_ok hstep
  obtain ⟨found, t, s, split, growth, moved, hl, hend⟩ := step_cases hstep
  have hsqrt : v'.sqrtPrice = s.sqrtPrice := hend.booked.1.trans hl.settled.sqrtPrice_eq
  have hstays := (hl.sound hs.low hwalking.afoot.underway).stays
  refine ⟨step_walking hs hwalking hstep, Or.inr ?_⟩
  rw [hsqrt]
  exact (hstays.trans nearer_leads.1).trans (hl.heads.leads_edge hs hwalking hedge)

end Steps

section Whole

variable {m : Market} {r : SwapRequest} {s : Supply} {b : SwapBook} {result : SwapResult}
  {c : Course} {cursor : Option Cursor} {w : Walk}

/-- A swap with a fixed output from which nothing is hidden is generous. -/
theorem Swapped.generous (hm : m.WellFormed)
    (h : Swapped m.config (m.supplied s) r ⟨m.pool, m.pick s.starts⟩ b result c cursor w)
    (hamount : r.amount < 2 ^ 64) (hmode : r.mode = .exactOut) (hsighted : m.Sighted s) :
    Generous m c r.amount w := by
  obtain ⟨edges, -, hc⟩ := course_eq_ok h.course_eq
  obtain ⟨hcomes, -⟩ := comes_of_walk h.walk_eq
  have hstart : Generous m c r.amount (start m.pool r cursor) := by
    right
    left
    have hprice : (start m.pool r cursor).sqrtPrice = m.pool.sqrtPrice := rfl
    simp only [withheld]
    rw [(paid_start m.pool r cursor c).2, hprice, sub_self, sub_zero]
    exact Nat.cast_nonneg _
  exact (hcomes.generous_or_stuck (h.setting hm) (h.walking_start hm hamount) (by rw [hc, hmode])
    (h.leads_edge hsighted) hstart).resolve_right (h.not_stuck hm (Or.inl hsighted))

/-- The native span reaches equally far on both sides. -/
theorem native_bounds (spacing : Nat) : Bitmap.nativeBegin spacing = -(512 * 60 * spacing) ∧
    Bitmap.nativeEnd spacing = 512 * 60 * spacing := by
  have hspan : (TickArray.span spacing : Int) = 60 * spacing := Nat.cast_mul _ _
  have hbegin : ((64 * Bitmap.sideWords : Nat) : Int) - Bitmap.zeroBit = -512 := rfl
  have hend : ((64 * Bitmap.positiveStart : Nat) : Int) - Bitmap.zeroBit = 512 := rfl
  simp only [Bitmap.nativeBegin, Bitmap.nativeEnd, Bitmap.startAt]
  rw [hspan, hbegin, hend]
  omega

/-- The edge of a swap without sight lies strictly inside the tick range. -/
theorem farEdge_of_not_sighted (hblind : ¬ m.Sighted s) (d : Direction) :
    minTick < farEdge m s d ∧ farEdge m s d < maxTick := by
  obtain ⟨hbegin, hend⟩ := native_bounds m.pool.spacing
  simp only [Market.Sighted, Market.SpansAllTicks, not_or] at hblind
  obtain ⟨hext, hspan⟩ := hblind
  simp only [farEdge]
  rw [Bool.eq_false_iff.2 hext]
  rw [hbegin, hend] at hspan ⊢
  simp only [minTick, maxTick] at *
  cases d with
  | down =>
      dsimp only
      omega
  | up =>
      dsimp only
      omega

/-- No tick strictly inside the tick range has a price at or beyond the end of the price range. -/
theorem not_leads_of_no_limit (hlimit : r.limit = 0) {t : Int} (hlow : minTick < t) (hhigh : t < maxTick) :
    ¬ r.direction.Leads (effectiveLimit r) (priceAt t) := by
  have hfirst : minSqrtPrice + 1 < priceAt (minTick + 1) := by decide +kernel
  have hlast : priceAt (maxTick - 1) < maxSqrtPrice - 1 := by decide +kernel
  simp only [effectiveLimit]
  rw [if_pos hlimit]
  cases r.direction with
  | down =>
      have := priceAt_le (s := minTick + 1) (t := t) (by omega) hlow hhigh.le
      exact Nat.not_le.2 (hfirst.trans_le this)
  | up =>
      have := priceAt_le (s := t) (t := maxTick - 1) hlow.le (by omega) (by omega)
      exact Nat.not_le.2 (this.trans_lt hlast)

/-- Without a limit, only a swap from which nothing is hidden comes to the end of the price range. -/
theorem Swapped.sighted_of_at_limit (hm : m.WellFormed)
    (h : Swapped m.config (m.supplied s) r ⟨m.pool, m.pick s.starts⟩ b result c cursor w)
    (hamount : r.amount < 2 ^ 64) (hlimit : r.limit = 0) (hat : w.sqrtPrice = c.limit) :
    m.Sighted s := by
  by_contra hblind
  obtain ⟨edges, hedges, hc⟩ := course_eq_ok h.course_eq
  have heffective : c.limit = effectiveLimit r := by rw [hc]
  have hdirection : c.direction = r.direction := by rw [hc]
  obtain ⟨hlow, hhigh⟩ := farEdge_of_not_sighted hblind c.direction
  rw [← edgeTick_eq_farEdge hedges (by rw [hc])] at hlow hhigh
  rcases leads_edge_of_walk (h.setting hm) (h.walking_start hm hamount) ⟨hlow.le, hhigh.le⟩
    h.walk_eq with hsame | hleads
  · -- no swap begins at its limit
    obtain ⟨-, hne, -, -⟩ := checkLimit_eq_ok h.limit_eq
    rw [hat, heffective] at hsame
    exact hne hsame
  · rw [hat, heffective, hdirection] at hleads
    exact not_leads_of_no_limit hlimit hlow hhigh hleads

end Whole

end Swap

namespace Market

/-- **A swap for an exact output gives it, or all there was.** Whatever led to the market: a swap with a
fixed output and no limit pays out what was asked for, unless it came to the end of the price range. In that
case, with nothing of the bitmap hidden from it, it paid out all that the liquidity curve held up to there,
up to less than one unit for each crossed tick and one more. -/
theorem exact_output_or_all_there_was {m : Market} {total : Payment} (h : Reached m total)
    {r : SwapRequest} {time : Nat} {s : Supply} {b' : SwapBook} {result : SwapResult}
    (hamount : r.amount < 2 ^ 64) (hmode : r.mode = .exactOut) (hlimit : r.limit = 0)
    (hswap : Clmm.swap m.config (m.supplied s) r time ⟨m.pool, m.pick s.starts⟩ = .ok result b') :
    result.amountOut = r.amount ∨
      result.amountOut < r.amount ∧ m.Sighted s ∧
      b'.pool.sqrtPrice = Swap.effectiveLimit r ∧
      (result.amountOut : ℚ) ≤
        curveBetween m.arrays r.direction.output m.pool.sqrtPrice (Swap.effectiveLimit r) ∧
      curveBetween m.arrays r.direction.output m.pool.sqrtPrice (Swap.effectiveLimit r) <
        result.amountOut + result.crossed + 1 := by
  have hm := h.wellFormed
  obtain ⟨c, cursor, w, hswapped⟩ := Swap.swap_eq_ok hswap
  obtain ⟨edges, -, hc⟩ := Swap.course_eq_ok hswapped.course_eq
  have hsettles := Swap.settle_eq_ok hswapped.settle_eq
  obtain ⟨-, hover⟩ := Swap.comes_of_walk hswapped.walk_eq
  have hout : result.amountOut = r.amount - w.remaining := by
    have hamounts := hsettles.amounts
    rw [hmode] at hamounts
    exact hamounts.2
  have hle := hsettles.remaining
  by_cases hnone : w.remaining = 0
  · left
    omega
  right
  have hat : w.sqrtPrice = c.limit := (Swap.isDone_iff.1 hover).resolve_left hnone
  have hsighted := hswapped.sighted_of_at_limit hm hamount hlimit hat
  obtain ⟨hpriced, hleads⟩ := hswapped.priced hm hamount (Or.inl hsighted)
  have hgenerous := hswapped.generous hm hamount hmode hsighted
  have hdirection : c.direction = r.direction := by rw [hc]
  have heffective : c.limit = Swap.effectiveLimit r := by rw [hc]
  have hprice : b'.pool.sqrtPrice = w.sqrtPrice := by rw [hswapped.pool]
  obtain ⟨-, hpaidOut⟩ := hsettles.paid (c := c) (by rw [hc])
  have houtput := hpriced.output
  have hkept : Swap.withheld m c r.amount w < w.crossings.length + 1 := by
    rcases hgenerous with hzero | hless | ⟨-, hless⟩
    · exact absurd hzero hnone
    · linarith
    · exact hless
  simp only [Swap.withheld] at hkept
  rw [hdirection, hat, heffective] at hleads
  rw [hat, heffective, hdirection, hpaidOut] at houtput hkept
  rw [curveBetween_output hm hleads, hsettles.crossed, hprice, hat]
  refine ⟨by omega, hsighted, heffective, ?_, ?_⟩
  · linarith
  · linarith

/-- A million units of token 1, far more than the two positions hold. -/
def hugeRequest : SwapRequest := ⟨1000000, 2 ^ 64 - 1, 0, .exactOut, .down⟩

/-- The swap succeeds with 1374 units, at the end of the price range. -/
theorem huge_swap : ∃ m total result b', sample 10 5 openings = .ok (m, total) ∧
    Clmm.swap m.config (m.supplied ⟨[0, -600], true⟩) hugeRequest 0 ⟨m.pool, m.pick [0, -600]⟩ =
      .ok result b' ∧
    result.amountOut = 1374 ∧ result.crossed = 2 ∧ b'.pool.sqrtPrice = minSqrtPrice + 1 := by
  obtain ⟨m, total, hsample, hrun⟩ := exists_of_sample (P := fun x =>
      succeedsWith (fun (result : SwapResult) (b' : SwapBook) => decide (result.amountOut = 1374 ∧
          result.crossed = 2 ∧ b'.pool.sqrtPrice = minSqrtPrice + 1))
        (Clmm.swap x.1.config (x.1.supplied ⟨[0, -600], true⟩) hugeRequest 0
          ⟨x.1.pool, x.1.pick [0, -600]⟩))
    (show (sample 10 5 openings).toOption.any _ = true by decide +kernel)
  obtain ⟨result, b', hswap, hends⟩ := exists_of_succeedsWith hrun
  exact ⟨m, total, result, b', hsample, hswap, of_decide_eq_true hends⟩

theorem exact_output_or_all_there_was_huge : ∃ m total result b',
    sample 10 5 openings = .ok (m, total) ∧
    Clmm.swap m.config (m.supplied ⟨[0, -600], true⟩) hugeRequest 0 ⟨m.pool, m.pick [0, -600]⟩ =
      .ok result b' ∧
    result.amountOut = 1374 ∧ result.crossed = 2 ∧ b'.pool.sqrtPrice = minSqrtPrice + 1 ∧
    (1374 : ℚ) ≤ curveBetween m.arrays .one m.pool.sqrtPrice (minSqrtPrice + 1) ∧
    curveBetween m.arrays .one m.pool.sqrtPrice (minSqrtPrice + 1) < 1374 + 2 + 1 := by
  obtain ⟨m, total, result, b', hsample, hswap, hout, hcrossed, hprice⟩ := huge_swap
  rcases exact_output_or_all_there_was (reached_of_sample hsample) (by decide) rfl rfl hswap with
    hexact | ⟨-, -, -, hgiven, hheld⟩
  · rw [hout] at hexact
    exact absurd hexact (by decide)
  · rw [hout] at hgiven hheld
    rw [hcrossed] at hheld
    exact ⟨m, total, result, b', hsample, hswap, hout, hcrossed, hprice, hgiven, hheld⟩

/-- Not every swap with a fixed output and no limit gives what was asked for. -/
theorem not_every_exact_output_is_exact : ¬ ∀ (m : Market) (total : Payment), Reached m total →
    ∀ (r : SwapRequest) (time : Nat) (s : Supply) (result : SwapResult) (b' : SwapBook),
      r.amount < 2 ^ 64 → r.mode = .exactOut → r.limit = 0 →
      Clmm.swap m.config (m.supplied s) r time ⟨m.pool, m.pick s.starts⟩ = .ok result b' →
      result.amountOut = r.amount := by
  intro hall
  obtain ⟨m, total, result, b', hsample, hswap, hout, -, -⟩ := huge_swap
  have hexact := hall m total (reached_of_sample hsample) hugeRequest 0 ⟨[0, -600], true⟩ result b'
    (by decide) rfl rfl hswap
  rw [hout] at hexact
  exact absurd hexact (by decide)

end Market

end Clmm
