import Clmm.Proofs.InputReach
import Clmm.Proofs.RoundTrip
import Clmm.Proofs.WalkEnds

/-!
# Clmm.Proofs.SplitSwap

**Splitting a swap never helps** (`splitting_never_helps`). Two swaps with fixed inputs, one after the
other, give no more than one swap of both amounts together.

The walks of the two swaps are followed by the one walk (`Follows`), which crosses the same ticks. Between
two crossings it may lag behind: it waits while the others step on. What it has left then covers the way to
where they are, and what they got on that way is at most what the liquidity in range gives for it. When they
cross a tick it takes one step to that tick, and when they are at their end its next step goes at least as
far. For in one step the fee is rounded once, and not once for every part of the way.
-/

namespace Clmm

namespace Swap

/-! ### The relation of the walks -/

/-- Two walks over the same positions, both with a fixed input, in one direction, up to one limit and at
one rate. From the first one nothing is hidden: every tick in use is shown, and the edge lies beyond the
limit. -/
structure Alongside (m : Market) (c : Course) (supplied : List TickArray) (m' : Market) (c' : Course)
    (supplied' : List TickArray) : Prop where
  setting : Setting m c supplied
  setting' : Setting m' c' supplied'
  positions : m'.positions = m.positions
  direction : c'.direction = c.direction
  limit : c'.limit = c.limit
  tradeRate : c'.tradeRate = c.tradeRate
  mode : c.mode = .exactIn
  mode' : c'.mode = .exactIn
  shows : ∀ t, m.InUse t → c.Shows m.arrays t
  edge : c.direction.Leads c.limit (priceAt c.edgeTick)

/-- **The walk `w` follows the walk `v`**, before which the amount `earlier` was paid out and after which
the amount `later` is still to be paid in. No tick in use lies between them, what `w` has left more than
`v` covers the way from it to `v`, and `v` got no more than `w` and what the way gives. -/
structure Follows (m : Market) (c : Course) (supplied : List TickArray) (later earlier : Nat)
    (w v : Walk) : Prop where
  walking : Walking m c supplied w
  same : ∀ u, m.InUse u → (u ≤ v.tick ↔ u ≤ w.tick)
  leads : c.direction.Leads w.sqrtPrice v.sqrtPrice
  left : v.remaining + later ≤ w.remaining
  paid : (w.liquidity : ℚ) *
      (holding c.direction.input v.sqrtPrice - holding c.direction.input w.sqrtPrice) ≤
    budget c.tradeRate (w.remaining - (v.remaining + later))
  gained : (earlier + v.calculated : Nat) ≤ w.calculated + (w.liquidity : ℚ) *
      (holding c.direction.output w.sqrtPrice - holding c.direction.output v.sqrtPrice)

section Steps

variable {m m' : Market} {c c' : Course} {supplied supplied' : List TickArray}
  {w w' v v' moved wEnd : Walk} {t : Int} {s : SwapStep} {split : FeeSplit} {growth : Growth}
  {found : Option (Cursor × Nat)} {later earlier : Nat}

/-- What a step keeps, unless it gets the walk stuck, is kept on the whole way: a stuck walk takes no
further step. -/
theorem Comes.keeps_or_stuck {I : Walk → Prop}
    (hkeep : ∀ {w w'}, I w → isDone c w = false → Swap.step c w = .ok w' →
      I w' ∨ Stuck m c supplied w')
    (h : Comes c w w') (hw : I w) : I w' ∨ Stuck m c supplied w' := by
  induction h with
  | here => exact Or.inl hw
  | step hgoes hstep hrest ih =>
      rcases hkeep hw hgoes hstep with hkept | hstuck
      · exact ih hkept
      · cases hrest with
        | here => exact Or.inr hstuck
        | step _ hstep' => exact absurd hstep' hstuck.step_ne_ok

/-- What a step with a fixed input takes and gives. -/
theorem Leg.exactIn (hl : Leg c w found t s split growth moved) (hmode : c.mode = .exactIn) :
    SwapStep.compute w.sqrtPrice (nearer c.direction (priceAt t) c.limit) w.liquidity w.remaining
        c.tradeRate .exactIn c.direction = .ok s ∧
      moved.remaining + (s.amountIn + s.fee) = w.remaining ∧
      moved.calculated = w.calculated + s.amountOut := by
  have hcomputed := hl.computed
  have hamounts := hl.settled.amounts
  rw [hmode] at hcomputed hamounts
  exact ⟨hcomputed, hamounts⟩

/-- What a step gives is the floor of what the liquidity holds less. -/
theorem Leg.le_calculated (hl : Leg c w found t s split growth moved) (hmode : c.mode = .exactIn)
    (hlimit : minSqrtPrice < c.limit) (hw : Underway c w) {x : Nat}
    (h : (x : ℚ) ≤ w.calculated + (w.liquidity : ℚ) *
      (holding c.direction.output w.sqrtPrice - holding c.direction.output s.sqrtPrice)) :
    x ≤ moved.calculated := by
  obtain ⟨hcomputed, -, hcalculated⟩ := hl.exactIn hmode
  obtain ⟨-, -, hout, -⟩ := SwapStep.spends_compute hcomputed
  rw [hcalculated]
  rcases Nat.le_total x w.calculated with hle | hge
  · exact hle.trans (Nat.le_add_right _ _)
  · have hmore : x - w.calculated ≤ s.amountOut := by
      rw [le_amountOut_iff (hl.sound hlimit hw).leads hout, Nat.cast_sub hge]
      linarith
    omega

/-- What a walk has got does not become less. -/
theorem calculated_le_of_step (hmode : c.mode = .exactIn) (h : step c w = .ok w') :
    w.calculated ≤ w'.calculated := by
  obtain ⟨found, t, s, split, growth, moved, hl, hend⟩ := step_cases h
  obtain ⟨-, -, hsame⟩ := hend.booked
  obtain ⟨-, -, hcalculated⟩ := hl.exactIn hmode
  rw [hsame, hcalculated]
  exact Nat.le_add_right _ _

theorem Alongside.inUse_iff (ha : Alongside m c supplied m' c' supplied') :
    m'.InUse t ↔ m.InUse t := by
  simp only [Market.InUse]
  rw [ha.positions]

/-- The second walk has the limit before it too. -/
theorem Alongside.leads_limit (ha : Alongside m c supplied m' c' supplied')
    (hv : Walking m' c' supplied' v) : c.direction.Leads v.sqrtPrice c.limit := by
  rw [← ha.direction, ← ha.limit]
  exact hv.toward

/-- The tick that a walk finds is in use. -/
theorem Heads.inUse {place : Cursor × Nat} (hheads : Heads c w (some place) t)
    (hs : Setting m c supplied) (hw : Walking m c supplied w) : m.InUse t := by
  obtain ⟨a, ha, huses, -⟩ := (hheads.bound_some hs hw).2.1.mem
  exact hs.wellFormed.inUse_iff_uses.2 ⟨a, ha, huses⟩

namespace Follows

/-- Every walk follows itself. -/
theorem refl (hw : Walking m c supplied w) : Follows m c supplied 0 0 w w := by
  refine ⟨hw, fun _ _ => Iff.rfl, .refl _ _, Nat.le_refl _, ?_, ?_⟩
  · rw [sub_self, mul_zero]
    exact Nat.cast_nonneg _
  · rw [sub_self, mul_zero, add_zero, Nat.zero_add]

/-- What a walk follows may stand at another tick with the same ticks in use ahead, have less left and
have got less. -/
theorem mono (h : Follows m c supplied later earlier w v) {later' earlier' : Nat}
    (hsame : ∀ u, m.InUse u → (u ≤ v'.tick ↔ u ≤ v.tick)) (hsqrt : v'.sqrtPrice = v.sqrtPrice)
    (hleft : v'.remaining + later' ≤ v.remaining + later)
    (hgained : earlier' + v'.calculated ≤ earlier + v.calculated) :
    Follows m c supplied later' earlier' w v' := by
  refine ⟨h.walking, fun u hu => (hsame u hu).trans (h.same u hu), ?_, hleft.trans h.left, ?_, ?_⟩
  · rw [hsqrt]
    exact h.leads
  · have hbudget := budget_mono c.tradeRate (Nat.sub_le_sub_left hleft w.remaining)
    rw [hsqrt]
    exact h.paid.trans (by exact_mod_cast hbudget)
  · rw [hsqrt]
    exact le_trans (by exact_mod_cast hgained) h.gained

theorem ahead_iff (h : Follows m c supplied later earlier w v) {u : Int} (hu : m.InUse u) :
    c.direction.Ahead v.tick u ↔ c.direction.Ahead w.tick u :=
  (Direction.ahead_iff_ahead c.direction).2 (h.same u hu)

/-- A walk and the one that follows it have the same liquidity in range. -/
theorem liquidity_eq (h : Follows m c supplied later earlier w v)
    (ha : Alongside m c supplied m' c' supplied') (hv : Walking m' c' supplied' v) :
    v.liquidity = w.liquidity := by
  rw [hv.liquidity, h.walking.liquidity, ha.positions]
  exact liquidityAt_eq_of_same h.same

/-! ### A step of the walk in front -/

/-- The walk that follows may wait while the other moves. -/
theorem waits (h : Follows m c supplied later earlier w v)
    (ha : Alongside m c supplied m' c' supplied') (hv : Walking m' c' supplied' v)
    (hl : Leg c' v found t s split growth moved) : Follows m c supplied later earlier w moved := by
  have hliquidity := h.liquidity_eq ha hv
  have hsound := hl.sound ha.setting'.low hv.afoot.underway
  obtain ⟨hcomputed, hremaining, hcalculated⟩ := hl.exactIn ha.mode'
  have hsqrt : moved.sqrtPrice = s.sqrtPrice := hl.settled.sqrtPrice_eq
  have htick : moved.tick = v.tick := by rw [hl.settled.rest]
  have hahead := hsound.leads
  have hgives := hsound.gives
  have hpaid := SwapStep.paid_compute hv.price.price_pos hahead hcomputed
  rw [ha.direction, hliquidity] at hpaid hgives
  rw [ha.direction] at hahead
  rw [ha.tradeRate] at hpaid
  have hleft := h.left
  have hcost := h.paid
  have hgained := h.gained
  refine ⟨h.walking, fun u hu => ?_, ?_, by omega, ?_, ?_⟩
  · rw [htick]
    exact h.same u hu
  · rw [hsqrt]
    exact h.leads.trans hahead
  · -- the budgets of the parts are at most that of the whole
    have hparts := budget_add_le c.tradeRate (w.remaining - (v.remaining + later)) (s.amountIn + s.fee)
    rw [show w.remaining - (v.remaining + later) + (s.amountIn + s.fee) =
      w.remaining - (moved.remaining + later) by omega] at hparts
    have hparts' : (budget c.tradeRate (w.remaining - (v.remaining + later)) : ℚ) +
        budget c.tradeRate (s.amountIn + s.fee) ≤
          budget c.tradeRate (w.remaining - (moved.remaining + later)) := by exact_mod_cast hparts
    rw [hsqrt]
    linarith
  · rw [hsqrt, hcalculated]
    push_cast at hgained ⊢
    linarith

/-- It goes on waiting while the other passes no tick in use. -/
theorem drifts (h : Follows m c supplied later earlier w moved)
    (ha : Alongside m c supplied m' c' supplied') (htick : moved.tick = v.tick)
    (hd : Drifts m' v moved v') : Follows m c supplied later earlier w v' := by
  refine h.mono (fun u hu => ?_) ?_ ?_ ?_
  · rw [htick]
    exact hd.same u (ha.inUse_iff.2 hu)
  · rw [hd.rest]
  · rw [hd.rest]
  · rw [hd.rest]

/-- A walk that goes on is followed by one that goes on. -/
theorem goes (h : Follows m c supplied later earlier w v)
    (ha : Alongside m c supplied m' c' supplied') (hv : Walking m' c' supplied' v)
    (hgoes : isDone c' v = false) : isDone c w = false := by
  rw [isDone_eq_false_iff] at hgoes ⊢
  have hleft := h.left
  refine ⟨by omega, fun hlimit => ?_⟩
  have hleads := h.leads
  rw [hlimit] at hleads
  exact hgoes.2 (by rw [ha.limit, (ha.leads_limit hv).antisymm hleads])

/-- A tick that the walk in front crosses is the one for which the other heads. -/
theorem heads_eq (h : Follows m c supplied later earlier w v)
    (ha : Alongside m c supplied m' c' supplied') (hv : Walking m' c' supplied' v)
    {found' : Option (Cursor × Nat)} {t' : Int} (hheads : Heads c w found t)
    (hheads' : Heads c' v found' t') (hinUse : m.InUse t') : t = t' ∧ ∃ place, found = some place := by
  have hahead : c.direction.Ahead w.tick t' := by
    rw [← h.ahead_iff hinUse, ← ha.direction]
    exact hheads'.ahead
  have hfirst := hheads.eq_or_beyond ha.setting h.walking hinUse hahead
  cases found with
  | none =>
      exact absurd hahead (hheads.finds ha.setting h.walking t' (ha.shows t' hinUse))
  | some place =>
      refine ⟨?_, place, rfl⟩
      -- neither walk has anything in use before where it heads
      have hinUse' := hheads.inUse ha.setting h.walking
      have hahead' : c'.direction.Ahead v.tick t := by
        rw [ha.direction, h.ahead_iff hinUse']
        exact hheads.ahead
      have hfirst' := hheads'.eq_or_beyond ha.setting' hv (ha.inUse_iff.2 hinUse') hahead'
      rw [ha.direction] at hfirst'
      rcases hfirst with heq | hbeyond
      · exact heq.symm
      · rcases hfirst' with heq | hbeyond'
        · exact heq
        · exact absurd (hbeyond.trans hbeyond') Direction.not_beyond_self

/-- Having both crossed a tick, the walks stand together. -/
theorem crosses_both (h : Follows m c supplied later earlier w v)
    (ha : Alongside m c supplied m' c' supplied') (hv : Walking m' c' supplied' v)
    (hl : Leg c' v found t s split growth moved) {k : Cursor} {offset : Nat}
    (hx : Crosses m' c' supplied' v t moved v' k offset) {foundW : Option (Cursor × Nat)}
    {sW : SwapStep} {splitW : FeeSplit} {growthW : Growth} {movedW : Walk} {kW : Cursor}
    {offsetW : Nat} (hlW : Leg c w foundW t sW splitW growthW movedW)
    (hxW : Crosses m c supplied w t movedW w' kW offsetW)
    (hleft : moved.remaining + later ≤ movedW.remaining)
    (hgained : earlier + moved.calculated ≤ movedW.calculated) :
    Follows m c supplied later earlier w' v' := by
  refine (refl (walking_of_crosses ha.setting h.walking hlW hxW)).mono (fun u hu => ?_) ?_ ?_ ?_
  · have hahead := hx.ahead_iff hl ha.setting' hv (ha.inUse_iff.2 hu)
    rw [ha.direction] at hahead
    rw [← Direction.ahead_iff_ahead c.direction, hahead,
      hxW.ahead_iff hlW ha.setting h.walking hu, h.ahead_iff hu]
  · have hsqrt : v'.sqrtPrice = moved.sqrtPrice := by rw [hx.rest]
    have hsqrtW : w'.sqrtPrice = movedW.sqrtPrice := by rw [hxW.rest]
    rw [hsqrt, hsqrtW, hx.price, hxW.price]
  · rw [hx.rest, hxW.rest]
    exact hleft
  · rw [hx.rest, hxW.rest, Nat.zero_add]
    exact hgained

/-- **Where the walk in front crosses a tick, the other goes there in one step.** -/
theorem crosses (h : Follows m c supplied later earlier w v)
    (ha : Alongside m c supplied m' c' supplied') (hv : Walking m' c' supplied' v)
    (hl : Leg c' v found t s split growth moved) {k : Cursor} {offset : Nat}
    (hx : Crosses m' c' supplied' v t moved v' k offset) (hstep : step c w = .ok w') :
    Follows m c supplied later earlier w' v' := by
  have hwaits := h.waits ha hv hl
  have hunderway := h.walking.afoot.underway
  obtain ⟨foundW, u, sW, splitW, growthW, movedW, hlW, hend⟩ := step_cases hstep
  obtain ⟨rfl, place, rfl⟩ := h.heads_eq ha hv hlW.heads hl.heads (ha.inUse_iff.1 hx.inUse)
  -- the limit does not lie before the tick
  have htarget : nearer c.direction (priceAt u) c.limit = priceAt u := by
    have hsqrt : moved.sqrtPrice = s.sqrtPrice := hl.settled.sqrtPrice_eq
    have hstays := (hl.sound ha.setting'.low hv.afoot.underway).stays
    rw [← hsqrt, hx.price, ha.direction, ha.limit] at hstays
    exact nearer_leads.1.antisymm hstays
  have hleads := hlW.heads.leads_nearer hunderway
  obtain ⟨hcomputed, hremaining, -⟩ := hlW.exactIn ha.mode
  have hcost := hwaits.paid
  have hgained := hwaits.gained
  rw [htarget] at hcomputed hleads
  rw [hx.price] at hcost hgained
  obtain ⟨harrives, hcheap⟩ :=
    SwapStep.arrives_compute hleads hunderway.remaining hcomputed (Nat.sub_le _ _) hcost
  rw [← harrives] at hgained
  have hout := hlW.le_calculated ha.mode ha.setting.low hunderway hgained
  have hleft : moved.remaining + later ≤ movedW.remaining := by
    have := hwaits.left
    omega
  cases hend with
  | stops hne => exact absurd harrives hne
  | stays hne => exact absurd harrives hne
  | crosses _ hcross =>
      exact h.crosses_both ha hv hl hx hlW (hlW.crosses ha.setting h.walking harrives hcross) hleft hout

/-- **The relation is kept by every step of the walk in front.** -/
theorem step_or_stuck (h : Follows m c supplied later earlier w v)
    (ha : Alongside m c supplied m' c' supplied') (hv : Walking m' c' supplied' v)
    (hgoes : isDone c' v = false) (hstep : step c' v = .ok v') (hw : Comes c w wEnd)
    (hend : isDone c wEnd = true) :
    (∃ w', Comes c w' wEnd ∧ Follows m c supplied later earlier w' v') ∧
      Walking m' c' supplied' v' ∨ Stuck m' c' supplied' v' := by
  obtain ⟨found, t, s, split, growth, moved, hl, hd | ⟨k, offset, hx⟩ | hstuck⟩ :=
    step_moves ha.setting' hv hstep
  · left
    have htick : moved.tick = v.tick := by rw [hl.settled.rest]
    exact ⟨⟨w, hw, (h.waits ha hv hl).drifts ha htick hd⟩, walking_of_drifts ha.setting' hv hl hd⟩
  · left
    refine ⟨?_, walking_of_crosses ha.setting' hv hl hx⟩
    -- the walk that follows is not over either
    cases hw with
    | here =>
        rw [h.goes ha hv hgoes] at hend
        cases hend
    | step _ hstepW hcomes => exact ⟨_, hcomes, h.crosses ha hv hl hx hstepW⟩
  · exact Or.inr hstuck

/-- **A whole walk is followed.** -/
theorem walk_or_stuck (h : Follows m c supplied later earlier w v)
    (ha : Alongside m c supplied m' c' supplied') (hv : Walking m' c' supplied' v)
    (hw : Comes c w wEnd) (hend : isDone c wEnd = true) (hcomes : Comes c' v v') :
    (∃ w', Comes c w' wEnd ∧ Follows m c supplied later earlier w' v') ∧
      Walking m' c' supplied' v' ∨ Stuck m' c' supplied' v' := by
  refine hcomes.keeps_or_stuck (I := fun v => (∃ w', Comes c w' wEnd ∧
    Follows m c supplied later earlier w' v) ∧ Walking m' c' supplied' v) ?_ ⟨⟨w, hw, h⟩, hv⟩
  intro v v' hI hgoes hstep
  obtain ⟨⟨w', hw', h'⟩, hv⟩ := hI
  exact h'.step_or_stuck ha hv hgoes hstep hw' hend

/-! ### The end of the walks -/

/-- The walk in front has not passed what the other heads for. -/
theorem leads_target (h : Follows m c supplied later earlier w v)
    (ha : Alongside m c supplied m' c' supplied') (hv : Walking m' c' supplied' v)
    (hheads : Heads c w found t) :
    c.direction.Leads v.sqrtPrice (nearer c.direction (priceAt t) c.limit) := by
  have htoward := ha.leads_limit hv
  refine leads_nearer ?_ htoward
  cases found with
  | none =>
      obtain ⟨rfl, -⟩ := edge_eq_ok hheads.bound_eq
      exact htoward.trans ha.edge
  | some place =>
      exact Direction.leads_priceAt hv.price hheads.low hheads.high
        ((h.ahead_iff (hheads.inUse ha.setting h.walking)).2 hheads.ahead)

/-- A walk with nothing left that follows another has got as much. -/
theorem gained_le_of_isDone (h : Follows m c supplied later earlier w v)
    (ha : Alongside m c supplied m' c' supplied') (hv : Walking m' c' supplied' v)
    (hdone : isDone c w = true) : earlier + v.calculated ≤ w.calculated := by
  have hleads := h.leads
  have hgained := h.gained
  rw [isDone_iff] at hdone
  have hnothing : (w.liquidity : ℚ) *
      (holding c.direction.output w.sqrtPrice - holding c.direction.output v.sqrtPrice) = 0 := by
    by_cases hzero : w.liquidity = 0
    · rw [hzero, Nat.cast_zero, zero_mul]
    suffices hsame : w.sqrtPrice = v.sqrtPrice by rw [hsame, sub_self, mul_zero]
    rcases hdone with hnone | hlimit
    · -- nothing is left for a way that costs something
      have hcost := h.paid
      rw [hnone, Nat.zero_sub, budget_zero, Nat.cast_zero] at hcost
      have hpos : (0 : ℚ) < w.liquidity := by exact_mod_cast Nat.pos_of_ne_zero hzero
      have hle := nonpos_of_mul_nonpos_right hcost hpos
      have hge := holding_input_mono hv.price.price_pos hleads
      exact holding_inj (x := c.direction.input) h.walking.price.price_pos hv.price.price_pos
        (by linarith)
    · rw [hlimit] at hleads ⊢
      exact hleads.antisymm (ha.leads_limit hv)
  rw [hnothing, add_zero] at hgained
  exact_mod_cast hgained

/-- **A walk that follows another gets at least as much.** -/
theorem gained_le (h : Follows m c supplied later earlier w v)
    (ha : Alongside m c supplied m' c' supplied') (hv : Walking m' c' supplied' v)
    (hw : Comes c w wEnd) (hend : isDone c wEnd = true) :
    earlier + v.calculated ≤ wEnd.calculated := by
  cases hw with
  | here => exact h.gained_le_of_isDone ha hv hend
  | @step _ w₁ _ _ hstep hcomes =>
      have hunderway := h.walking.afoot.underway
      obtain ⟨found, t, s, split, growth, moved, hl, hends⟩ := step_cases hstep
      obtain ⟨hcomputed, -⟩ := hl.exactIn ha.mode
      -- the next step goes at least as far as the walk in front got
      have hcost : (w.liquidity : ℚ) * (holding c.direction.input v.sqrtPrice -
          holding c.direction.input w.sqrtPrice) ≤ budget c.tradeRate w.remaining := by
        have hmono := budget_mono c.tradeRate (Nat.sub_le w.remaining (v.remaining + later))
        exact h.paid.trans (by exact_mod_cast hmono)
      have hpasses := SwapStep.passes_compute hunderway.price.price_pos hcomputed hv.price.price_pos
        (h.leads_target ha hv hl.heads) hcost
      have hless := mul_le_mul_of_nonneg_left
        (Direction.holding_output_anti hv.price.price_pos hpasses) (Nat.cast_nonneg w.liquidity)
      have hgained := h.gained
      have hmoved : earlier + v.calculated ≤ moved.calculated := by
        apply hl.le_calculated ha.mode ha.setting.low hunderway
        linarith
      have hlater := hcomes.keeps (I := fun u => earlier + v.calculated ≤ u.calculated)
        (fun hI hstep' => hI.trans (calculated_le_of_step ha.mode hstep')) (hends.booked.2.2 ▸ hmoved)
      exact hlater

end Follows

end Steps

/-! ### The walks of swaps -/

section Whole

variable {m m' : Market} {r r' : SwapRequest} {s s' : Supply} {b b' : SwapBook}
  {result result' : SwapResult} {c c' : Course} {cursor cursor' : Option Cursor} {w w' : Walk}

/-- A swap from which nothing of the bitmap is hidden sees every tick in use. -/
theorem Swapped.shows (hm : m.WellFormed)
    (h : Swapped m.config (m.supplied s) r ⟨m.pool, m.pick s.starts⟩ b result c cursor w)
    (hsighted : m.Sighted s) {t : Int} (ht : m.InUse t) : c.Shows m.arrays t := by
  obtain ⟨edges, -, hc⟩ := course_eq_ok h.course_eq
  obtain ⟨a, ha, huses⟩ := hm.inUse_iff_uses.1 ht
  have hview : c.view = m.pool.bitmapView (m.supplied s) := by rw [hc]
  refine ⟨a, ha, huses, hview ▸ (marks_bitmapView hm ha huses).2 (hsighted.imp id fun hspan => ?_)⟩
  obtain ⟨hmin, hmax⟩ := hm.ranged.bounds ht
  exact ⟨hspan.1.trans hmin, Int.lt_of_le_of_lt hmax hspan.2⟩

/-- With everything in sight, the edge is the end of the tick range. -/
theorem farEdge_of_sighted (hsighted : m.Sighted s) (d : Direction) :
    farEdge m s d = match d with
      | .down => minTick
      | .up => maxTick := by
  simp only [farEdge]
  cases hext : s.extension with
  | true => cases d <;> rfl
  | false =>
      obtain ⟨hbegin, hend⟩ := hsighted.resolve_left (by rw [hext]; exact Bool.false_ne_true)
      cases d with
      | down => exact Int.max_eq_right hbegin
      | up => exact Int.min_eq_right hend.le

/-- The edge of what such a swap sees lies beyond the limit. -/
theorem Swapped.leads_edge
    (h : Swapped m.config (m.supplied s) r ⟨m.pool, m.pick s.starts⟩ b result c cursor w)
    (hsighted : m.Sighted s) : c.direction.Leads c.limit (priceAt c.edgeTick) := by
  obtain ⟨edges, hedges, hc⟩ := course_eq_ok h.course_eq
  obtain ⟨-, -, hlow, hhigh⟩ := checkLimit_eq_ok h.limit_eq
  rw [edgeTick_eq_farEdge hedges (by rw [hc])]
  have hdirection : c.direction = r.direction := by rw [hc]
  have hlimit : c.limit = effectiveLimit r := by rw [hc]
  rw [hdirection, hlimit]
  rw [farEdge_of_sighted hsighted]
  cases hd : r.direction with
  | down =>
      rw [priceAt_minTick]
      exact (hlow hd).le
  | up =>
      rw [priceAt_maxTick]
      exact (hhigh hd).le

/-- The walks of two swaps with fixed inputs go alongside. -/
theorem Swapped.alongside (hm : m.WellFormed) (hm' : m'.WellFormed)
    (h : Swapped m.config (m.supplied s) r ⟨m.pool, m.pick s.starts⟩ b result c cursor w)
    (h' : Swapped m'.config (m'.supplied s') r' ⟨m'.pool, m'.pick s'.starts⟩ b' result' c' cursor' w')
    (hsighted : m.Sighted s) (hpositions : m'.positions = m.positions)
    (hconfig : m'.config = m.config) (hdirection : r'.direction = r.direction)
    (hlimit : r'.limit = r.limit) (hmode : r.mode = .exactIn) (hmode' : r'.mode = .exactIn) :
    Alongside m c (m.pick s.starts) m' c' (m'.pick s'.starts) := by
  obtain ⟨edges, -, hc⟩ := course_eq_ok h.course_eq
  obtain ⟨edges', -, hc'⟩ := course_eq_ok h'.course_eq
  have heffective : effectiveLimit r' = effectiveLimit r := by
    simp only [effectiveLimit]
    rw [hlimit, hdirection]
  exact {
    setting := h.setting hm
    setting' := h'.setting hm'
    positions := hpositions
    direction := by rw [hc, hc', hdirection]
    limit := by rw [hc, hc', heffective]
    tradeRate := by rw [hc, hc', hconfig]
    mode := by rw [hc, hmode]
    mode' := by rw [hc', hmode']
    shows := fun _ => h.shows hm hsighted
    edge := h.leads_edge hsighted }

end Whole

end Swap

namespace Market

/-- **Splitting a swap never helps.** Whatever led to the market and under whatever fee config its swaps are
charged: two swaps with fixed inputs, one after the other and in one direction, give no more than a single
swap of both amounts, up to the same limit and with nothing of the bitmap hidden from any of them. -/
theorem splitting_never_helps {m m₁ m₂ m' : Market} {total : Payment} (h : Reached m total)
    (config : FeeConfig) {d : Direction} {limit a₁ a₂ threshold₁ threshold₂ threshold : Nat}
    {time₁ time₂ time : Nat} {s₁ s₂ s : Supply} {x₁ x₂ x : SwapResult} (hamount : a₁ + a₂ < 2 ^ 64)
    (hsighted₁ : (m.under config).Sighted s₁) (hsighted₂ : m₁.Sighted s₂)
    (hsighted : (m.under config).Sighted s)
    (hfirst : (m.under config).swap ⟨a₁, threshold₁, limit, .exactIn, d⟩ time₁ s₁ = .ok (m₁, x₁))
    (hsecond : m₁.swap ⟨a₂, threshold₂, limit, .exactIn, d⟩ time₂ s₂ = .ok (m₂, x₂))
    (hwhole : (m.under config).swap ⟨a₁ + a₂, threshold, limit, .exactIn, d⟩ time s = .ok (m', x)) :
    x₁.amountOut + x₂.amountOut ≤ x.amountOut := by
  have hm := h.wellFormed.under config
  generalize m.under config = m at hm hsighted₁ hsighted hfirst hwhole
  have ha₁ : a₁ < 2 ^ 64 := by omega
  have ha₂ : a₂ < 2 ^ 64 := by omega
  have hm₁ := hm.swap ⟨ha₁, Or.inl hsighted₁⟩ hfirst
  obtain ⟨c₁, cursor₁, v₁, b₁, hswapped₁, -, hm₁'⟩ := swap_eq_ok hfirst
  obtain ⟨c₂, cursor₂, v₂, b₂, hswapped₂, -, -⟩ := swap_eq_ok hsecond
  obtain ⟨c, cursor, w, b, hswapped, -, -⟩ := swap_eq_ok hwhole
  have hpositions : m₁.positions = m.positions := by rw [hm₁']
  have hconfig : m₁.config = m.config := by rw [hm₁']
  have halong₁ := hswapped.alongside hm hm hswapped₁ hsighted rfl rfl rfl rfl rfl rfl
  have halong₂ := hswapped.alongside hm hm₁ hswapped₂ hsighted hpositions hconfig rfl rfl rfl rfl
  obtain ⟨hcomes, hover⟩ := Swap.comes_of_walk hswapped.walk_eq
  -- the walk of the first swap is followed
  have hstart : Swap.Follows m c (m.pick s.starts) a₂ 0 _
      (Swap.start m.pool ⟨a₁, threshold₁, limit, .exactIn, d⟩ cursor₁) :=
    (Swap.Follows.refl (hswapped.walking_start hm hamount)).mono (fun _ _ => Iff.rfl) rfl le_rfl le_rfl
  obtain ⟨⟨w₁, hcomes₁, hfollows₁⟩, hv₁⟩ := (hstart.walk_or_stuck halong₁
    (hswapped₁.walking_start hm ha₁) hcomes hover (Swap.comes_of_walk hswapped₁.walk_eq).1).resolve_right
      (hswapped₁.not_stuck hm (Or.inl hsighted₁))
  -- the second swap begins where the first one ended
  have hnext : Swap.Follows m c (m.pick s.starts) v₁.remaining v₁.calculated w₁
      (Swap.start m₁.pool ⟨a₂, threshold₂, limit, .exactIn, d⟩ cursor₂) := by
    have htick : m₁.pool.tick = v₁.tick := by rw [hm₁', hswapped₁.pool]
    have hsqrt : m₁.pool.sqrtPrice = v₁.sqrtPrice := by rw [hm₁', hswapped₁.pool]
    refine hfollows₁.mono (fun u _ => ?_) hsqrt (Nat.add_comm _ _).le (Nat.add_comm _ _).le
    change u ≤ m₁.pool.tick ↔ _
    rw [htick]
  obtain ⟨⟨w₂, hcomes₂, hfollows₂⟩, hv₂⟩ := (hnext.walk_or_stuck halong₂
    (hswapped₂.walking_start hm₁ ha₂) hcomes₁ hover
      (Swap.comes_of_walk hswapped₂.walk_eq).1).resolve_right
        (hswapped₂.not_stuck hm₁ (Or.inl hsighted₂))
  have hgained := hfollows₂.gained_le halong₂ hv₂ hcomes₂ hover
  rw [(Swap.settle_eq_ok hswapped₁.settle_eq).amounts.2, (Swap.settle_eq_ok hswapped₂.settle_eq).amounts.2,
    (Swap.settle_eq_ok hswapped.settle_eq).amounts.2]
  exact hgained

/-- Down over tick 0, which the second part crosses. The parts give two tokens less than the whole. -/
theorem splitting_never_helps_openings : ∃ m m₁ m₂ m' total x₁ x₂ x,
    sample 10 5 openings = .ok (m, total) ∧
    (m.under m.config).swap ⟨200, 0, 0, .exactIn, .down⟩ 0 ⟨[0, -600], true⟩ = .ok (m₁, x₁) ∧
    m₁.swap ⟨700, 0, 0, .exactIn, .down⟩ 0 ⟨[0, -600], true⟩ = .ok (m₂, x₂) ∧
    (m.under m.config).swap ⟨900, 0, 0, .exactIn, .down⟩ 0 ⟨[0, -600], true⟩ = .ok (m', x) ∧
    (x₁.amountOut = 199 ∧ x₁.crossed = 0) ∧ (x₂.amountOut = 695 ∧ x₂.crossed = 1) ∧
    (x.amountOut = 896 ∧ x.crossed = 1) ∧ x₁.amountOut + x₂.amountOut ≤ x.amountOut := by
  obtain ⟨m, total, hsample, hrun⟩ := exists_of_sample (P := fun x =>
      (((x.1.under x.1.config).swap ⟨200, 0, 0, .exactIn, .down⟩ 0 ⟨[0, -600], true⟩).toOption.any
        fun (y : Market × SwapResult) =>
          decide (y.2.amountOut = 199 ∧ y.2.crossed = 0) &&
          (y.1.swap ⟨700, 0, 0, .exactIn, .down⟩ 0 ⟨[0, -600], true⟩).toOption.any
            fun (z : Market × SwapResult) => decide (z.2.amountOut = 695 ∧ z.2.crossed = 1)) &&
      ((x.1.under x.1.config).swap ⟨900, 0, 0, .exactIn, .down⟩ 0 ⟨[0, -600], true⟩).toOption.any
        fun (y : Market × SwapResult) => decide (y.2.amountOut = 896 ∧ y.2.crossed = 1))
    (show (sample 10 5 openings).toOption.any _ = true by decide +kernel)
  obtain ⟨hparts, hrun⟩ := Bool.and_eq_true_iff.1 hrun
  obtain ⟨⟨m₁, x₁⟩, hfirst, hparts⟩ := exists_ok_of_any hparts
  obtain ⟨hamounts₁, hparts⟩ := Bool.and_eq_true_iff.1 hparts
  obtain ⟨⟨m₂, x₂⟩, hsecond, hamounts₂⟩ := exists_ok_of_any hparts
  obtain ⟨⟨m', x⟩, hwhole, hamounts⟩ := exists_ok_of_any hrun
  exact ⟨m, m₁, m₂, m', total, x₁, x₂, x, hsample, hfirst, hsecond, hwhole, of_decide_eq_true hamounts₁,
    of_decide_eq_true hamounts₂, of_decide_eq_true hamounts,
    splitting_never_helps (reached_of_sample hsample) m.config (by decide) (Or.inl rfl) (Or.inl rfl)
      (Or.inl rfl) hfirst hsecond hwhole⟩

end Market

end Clmm
