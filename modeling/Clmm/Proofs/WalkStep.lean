import Clmm.Proofs.PriceOrder
import Clmm.Proofs.Seek

/-!
# Clmm.Proofs.WalkStep

**Everything one step of a walk does** (`step_cases`): it heads for the next tick in use, or for the edge
of what the bitmap shows, computes how far the amount leads, books the amounts and fees, and ends in one
of four ways (`Ending`). What every step keeps holds at the end of a walk (`walk_induct`).
-/

namespace Clmm.Swap

/-! ### Reading one step -/

section Steps

variable {c : Course} {w w' moved : Walk} {s : SwapStep}

/-- What booking the amounts and fees of a step does. -/
structure Settled (c : Course) (w : Walk) (s : SwapStep) (split : FeeSplit) (growth : Growth)
    (moved : Walk) : Prop where
  split_eq : splitFee s.fee c.protocolRate c.fundRate = .ok split
  growth_eq : feeGrowth split.providers w.liquidity = .ok growth
  amounts : match c.mode with
    | .exactIn => moved.remaining + (s.amountIn + s.fee) = w.remaining ∧
        moved.calculated = w.calculated + s.amountOut
    | .exactOut => moved.remaining + s.amountOut = w.remaining ∧
        moved.calculated = w.calculated + (s.amountIn + s.fee)
  rest : moved = { w with
    remaining := moved.remaining, calculated := moved.calculated, fee := w.fee + s.fee,
    protocolFee := w.protocolFee + split.protocol, fundFee := w.fundFee + split.fund,
    growth := w.growth + growth, sqrtPrice := s.sqrtPrice }

/-- A step is booked at the price where it ends. -/
theorem Settled.sqrtPrice_eq {split : FeeSplit} {growth : Growth}
    (h : Settled c w s split growth moved) : moved.sqrtPrice = s.sqrtPrice := by
  rw [h.rest]

theorem settleStep_eq_ok (h : settleStep c w s = .ok moved) :
    ∃ split growth, Settled c w s split growth moved := by
  unfold settleStep at h
  rw [Outcome.bind_eq_ok] at h
  obtain ⟨paid, hpaid, h⟩ := h
  rw [narrow_eq_ok] at hpaid
  obtain ⟨-, rfl⟩ := hpaid
  dsimp only at h
  rw [Outcome.bind_eq_ok] at h
  obtain ⟨remaining, hremaining, h⟩ := h
  rw [Outcome.bind_eq_ok] at h
  obtain ⟨calculated, hcalculated, h⟩ := h
  simp only [Outcome.bind_eq_ok, narrow_eq_ok] at h
  obtain ⟨split, hsplit, _, ⟨-, rfl⟩, _, ⟨-, rfl⟩, _, ⟨-, rfl⟩, growth, hgrowth, h⟩ := h
  obtain rfl := Except.ok.inj h
  refine ⟨split, growth, hsplit, hgrowth, ?_, rfl⟩
  rw [subOrRefuse_eq_ok] at hremaining
  rw [narrow_eq_ok] at hcalculated
  cases hmode : c.mode with
  | exactIn =>
      rw [hmode] at hremaining hcalculated
      dsimp only at *
      omega
  | exactOut =>
      rw [hmode] at hremaining hcalculated
      dsimp only at *
      omega

/-- Where a step heads: the next tick in use, if there is one. -/
def target (c : Course) (w : Walk) : Outcome (Option (Cursor × Nat)) :=
  match w.cursor with
  | some k => seek c w.tick k.index k.array k.rest
  | none => pure none

/-- The tick at which a step ends at the latest. -/
def bound (c : Course) (w : Walk) (target : Option (Cursor × Nat)) : Outcome Int :=
  match target with
  | some (k, offset) => k.array.indexAt offset c.spacing
  | none => edge c w.tick

/-- The end of a step at its bound. -/
def arriveAt (c : Course) (target : Option (Cursor × Nat)) (bound : Int) (moved : Walk) :
    Outcome Walk := do
  let arrived ← match target with
    | some (k, offset) => crossTick c moved k offset
    | none => pure moved
  return { arrived with tick := c.direction.arrive bound }

/-- A step, part by part. -/
theorem step_eq (c : Course) (w : Walk) : step c w = do
    let target ← target c w
    let bound ← bound c w target
    let boundPrice ← sqrtPriceAt bound
    let s ← SwapStep.compute w.sqrtPrice (nearer c.direction boundPrice c.limit) w.liquidity
      w.remaining c.tradeRate c.mode c.direction
    let moved ← settleStep c { w with cursor := target.map (·.1) } s
    if s.sqrtPrice = boundPrice then arriveAt c target bound moved
    else if s.sqrtPrice ≠ w.sqrtPrice then do
      return { moved with tick := ← tickAt s.sqrtPrice }
    else return moved := by
  simp only [step, target, bound, arriveAt]
  cases w.cursor with
  | some k =>
      dsimp only
      congr 1
      funext target
      cases target <;> rfl
  | none => rfl

/-- A step heads for what was found, and ends at tick `t` at the latest. -/
structure Heads (c : Course) (w : Walk) (found : Option (Cursor × Nat)) (t : Int) : Prop where
  target_eq : target c w = .ok found
  bound_eq : bound c w found = .ok t
  low : minTick ≤ t
  high : t ≤ maxTick

/-- What a step does before its end is looked at: where it heads and what it moves. -/
structure Leg (c : Course) (w : Walk) (found : Option (Cursor × Nat)) (t : Int) (s : SwapStep)
    (split : FeeSplit) (growth : Growth) (moved : Walk) : Prop where
  target_eq : target c w = .ok found
  bound_eq : bound c w found = .ok t
  low : minTick ≤ t
  high : t ≤ maxTick
  computed : SwapStep.compute w.sqrtPrice (nearer c.direction (priceAt t) c.limit) w.liquidity
    w.remaining c.tradeRate c.mode c.direction = .ok s
  settled : Settled c { w with cursor := found.map (·.1) } s split growth moved

theorem Leg.heads {found : Option (Cursor × Nat)} {t : Int} {split : FeeSplit} {growth : Growth}
    (hl : Leg c w found t s split growth moved) : Heads c w found t :=
  ⟨hl.target_eq, hl.bound_eq, hl.low, hl.high⟩

/-- How a step ends. -/
inductive Ending (c : Course) (w : Walk) (t : Int) (s : SwapStep) (moved : Walk) :
    Option (Cursor × Nat) → Walk → Prop
  /-- At a tick in use, which is crossed. -/
  | crosses {k : Cursor} {offset : Nat} {arrived : Walk} (hprice : s.sqrtPrice = priceAt t)
      (hcross : crossTick c moved k offset = .ok arrived) :
      Ending c w t s moved (some (k, offset)) { arrived with tick := c.direction.arrive t }
  /-- At the edge of what the bitmap shows. -/
  | reachesEdge (hprice : s.sqrtPrice = priceAt t) :
      Ending c w t s moved none { moved with tick := c.direction.arrive t }
  /-- At a price between two ticks. -/
  | stops {found : Option (Cursor × Nat)} {u : Int} (hprice : s.sqrtPrice ≠ priceAt t)
      (hmoved : s.sqrtPrice ≠ w.sqrtPrice)
      (htick : tickAt s.sqrtPrice = .ok u) : Ending c w t s moved found { moved with tick := u }
  /-- Where it began. -/
  | stays {found : Option (Cursor × Nat)} (hprice : s.sqrtPrice ≠ priceAt t)
      (hsame : s.sqrtPrice = w.sqrtPrice) : Ending c w t s moved found moved

/-- **Everything one step does.** -/
theorem step_cases (h : step c w = .ok w') :
    ∃ found t s split growth moved, Leg c w found t s split growth moved ∧
      Ending c w t s moved found w' := by
  rw [step_eq, Outcome.bind_eq_ok] at h
  obtain ⟨found, hfound, h⟩ := h
  rw [Outcome.bind_eq_ok] at h
  obtain ⟨t, ht, h⟩ := h
  rw [Outcome.bind_eq_ok] at h
  obtain ⟨price, hprice, h⟩ := h
  rw [sqrtPriceAt_eq_ok] at hprice
  obtain ⟨⟨hlow, hhigh⟩, rfl⟩ := hprice
  rw [Outcome.bind_eq_ok] at h
  obtain ⟨s, hs, h⟩ := h
  rw [Outcome.bind_eq_ok] at h
  obtain ⟨moved, hmoved, h⟩ := h
  obtain ⟨split, growth, hsettled⟩ := settleStep_eq_ok hmoved
  refine ⟨found, t, s, split, growth, moved, ⟨hfound, ht, hlow, hhigh, hs, hsettled⟩, ?_⟩
  by_cases harrived : s.sqrtPrice = priceAt t
  · rw [if_pos harrived] at h
    simp only [arriveAt] at h
    cases found with
    | none =>
        obtain rfl := Except.ok.inj h
        exact .reachesEdge harrived
    | some place =>
        obtain ⟨k, offset⟩ := place
        dsimp only at h
        rw [Outcome.bind_eq_ok] at h
        obtain ⟨arrived, hcross, h⟩ := h
        obtain rfl := Except.ok.inj h
        exact .crosses harrived hcross
  · rw [if_neg harrived] at h
    by_cases hsame : s.sqrtPrice = w.sqrtPrice
    · rw [if_neg (not_not_intro hsame)] at h
      obtain rfl := Except.ok.inj h
      exact .stays harrived hsame
    · rw [if_pos hsame, Outcome.bind_eq_ok] at h
      obtain ⟨u, hu, h⟩ := h
      obtain rfl := Except.ok.inj h
      exact .stops harrived hsame hu

/-- What crossing a tick does. -/
theorem crossTick_eq_ok {k : Cursor} {offset : Nat} (h : crossTick c w k offset = .ok w') :
    ∃ hlt : offset < arraySize, ∃ liquidity : Nat,
      (liquidity : Int) = w.liquidity + (match c.direction with
        | .down => -k.array.ticks[offset].net
        | .up => k.array.ticks[offset].net) ∧
      w' = { w with liquidity, crossings := w.crossings ++
        [⟨k.index, offset,
          k.array.ticks[offset].cross (c.growth.set c.direction.input w.growth)⟩] } := by
  simp only [crossTick] at h
  rw [Outcome.bind_eq_ok] at h
  obtain ⟨before, hbefore, h⟩ := h
  obtain ⟨hlt, rfl⟩ := TickArray.slot_eq_ok.1 hbefore
  refine ⟨hlt, ?_⟩
  cases hd : c.direction with
  | down =>
      simp only [hd, Outcome.bind_eq_ok, signedNarrow_eq_ok] at h
      obtain ⟨_, ⟨-, rfl⟩, liquidity, hliquidity, h⟩ := h
      exact ⟨liquidity, addSigned_eq_ok hliquidity, (Except.ok.inj h).symm⟩
  | up =>
      simp only [hd, Outcome.bind_eq_ok] at h
      obtain ⟨_, hnet, liquidity, hliquidity, h⟩ := h
      obtain rfl := Except.ok.inj hnet
      exact ⟨liquidity, addSigned_eq_ok hliquidity, (Except.ok.inj h).symm⟩

/-- However a step ends, its price and amounts are those it booked. -/
theorem Ending.booked {found : Option (Cursor × Nat)} {t : Int} (h : Ending c w t s moved found w') :
    w'.sqrtPrice = moved.sqrtPrice ∧ w'.remaining = moved.remaining ∧
      w'.calculated = moved.calculated := by
  cases h with
  | crosses _ hcross =>
      obtain ⟨_, _, -, rfl⟩ := crossTick_eq_ok hcross
      exact ⟨rfl, rfl, rfl⟩
  | reachesEdge => exact ⟨rfl, rfl, rfl⟩
  | stops => exact ⟨rfl, rfl, rfl⟩
  | stays => exact ⟨rfl, rfl, rfl⟩

/-- A step that books its amounts leaves the rest of the walk alone. -/
theorem Settled.remaining_le {before : Walk} {split : FeeSplit} {growth : Growth}
    (h : Settled c before s split growth moved) :
    moved.remaining ≤ before.remaining := by
  have hamounts := h.amounts
  cases hmode : c.mode with
  | exactIn =>
      rw [hmode] at hamounts
      have := hamounts.1
      omega
  | exactOut =>
      rw [hmode] at hamounts
      have := hamounts.1
      omega

/-- The edge of the visible ticks in the direction of the walk. -/
def Course.edgeTick (c : Course) : Int :=
  match c.direction with
  | .down => c.visible.1
  | .up => c.visible.2

theorem edge_eq_ok {c : Course} {t e : Int} (h : edge c t = .ok e) :
    e = c.edgeTick ∧ c.direction.Ahead t e := by
  simp only [edge] at h
  simp only [Course.edgeTick]
  cases hd : c.direction with
  | down =>
      simp only [hd, Outcome.bind_eq_ok, require_eq_ok] at h
      obtain ⟨_, hle, h⟩ := h
      obtain rfl := Except.ok.inj h
      exact ⟨rfl, hle⟩
  | up =>
      simp only [hd, Outcome.bind_eq_ok, require_eq_ok] at h
      obtain ⟨_, hlt, h⟩ := h
      obtain rfl := Except.ok.inj h
      exact ⟨rfl, hlt⟩

/-- What every step keeps holds at the end of a walk. -/
theorem walk_induct {I : Walk → Prop} (hstep : ∀ {w w'}, I w → step c w = .ok w' → I w') {n : Nat}
    (hw : I w) (h : walk c n w = .ok w') : I w' := by
  induction n generalizing w with
  | zero =>
      simp only [walk] at h
      by_cases hdone : isDone c w
      · rw [if_pos hdone] at h
        exact Except.ok.inj h ▸ hw
      · rw [if_neg hdone] at h
        cases h
  | succ n ih =>
      simp only [walk] at h
      by_cases hdone : isDone c w
      · rw [if_pos hdone] at h
        exact Except.ok.inj h ▸ hw
      · rw [if_neg hdone, Outcome.bind_eq_ok] at h
        obtain ⟨next, hnext, h⟩ := h
        exact ih (hstep hw hnext) h

end Steps

end Clmm.Swap
