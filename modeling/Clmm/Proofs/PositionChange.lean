import Clmm.Proofs.TickChange

/-!
# Clmm.Proofs.PositionChange

**A change of liquidity keeps a market well formed.** `Changed` says everything that a successful
change of one position's liquidity did to the market: the two boundary ticks, the counts and bits of
their arrays, the liquidity in range and the position itself, and that the rest is as it was. Deposits
and withdrawals are such changes (`increase_eq_ok`, `decrease_eq_ok`); `Changed.wellFormed` then is
the preservation lemma for both.
-/

namespace Clmm

open TickTable

/-! ### Reading a plan -/

/-- What was read and checked for a plan. The ticks `lowerMade` and `upperMade` are the boundary ticks
as changed, before an unused one is cleared. -/
structure Planned (b : Book) (delta : Int) (plan : ChangePlan) (lowerOld lowerMade upperOld
    upperMade : Tick) (lowerFlipped upperFlipped : Bool) (settled : Position) : Prop where
  range : minTick ≤ b.position.lower ∧ b.position.lower < b.position.upper ∧
    b.position.upper ≤ maxTick
  lower : Found b.arrays b.pool.spacing b.position.lower plan.lower.index plan.lower.array
    plan.lower.offset lowerOld
  upper : Found b.arrays b.pool.spacing b.position.upper plan.upper.index plan.upper.array
    plan.upper.offset upperOld
  lowerChanged : Tick.Changed lowerOld lowerMade plan.lower.tick .lower delta
  upperChanged : Tick.Changed upperOld upperMade plan.upper.tick .upper delta
  lowerOutside : delta ≠ 0 → lowerMade.outside = lowerOld.outsideInUse b.pool.tick b.pool.growth
  upperOutside : delta ≠ 0 → upperMade.outside = upperOld.outsideInUse b.pool.tick b.pool.growth
  lowerFlips : lowerFlipped = (plan.lower.tick.isInitialized != lowerOld.isInitialized)
  upperFlips : upperFlipped = (plan.upper.tick.isInitialized != upperOld.isInitialized)
  settle : b.position.settle (Tick.growthInside lowerMade upperMade b.pool.tick b.pool.growth) =
    .ok settled
  position : ∃ held : Nat, (held : Int) = b.position.liquidity + delta ∧
    plan.position = { settled with liquidity := held }
  amounts : amountsFor b.pool.sqrtPrice b.pool.tick b.position.lower b.position.upper delta.natAbs
    (if 0 < delta then .up else .down) = .ok plan.amounts
  liquidity : (plan.liquidity : Int) = b.pool.liquidity +
    if b.position.Covers b.pool.tick then delta else 0
  counts : ChangePlan.countUpdates plan.lower plan.upper lowerFlipped upperFlipped = .ok plan.counts

theorem checkRange_eq_ok {lower upper : Int} {spacing : Nat} {u : Unit}
    (h : checkRange lower upper spacing = .ok u) :
    minTick ≤ lower ∧ lower < upper ∧ upper ≤ maxTick := by
  simp only [checkRange] at h
  simp only [Outcome.bind_eq_ok, require_eq_ok] at h
  obtain ⟨_, hlt, _, hrange, -⟩ := h
  exact ⟨hrange.1, hlt, hrange.2⟩

/-- A boundary tick as a plan changes it: not at all by zero. -/
theorem changed_of_plan {k u : Tick} {current delta : Int} {globals : Pair Growth}
    {bound : Tick.Bound} {flipped : Bool}
    (h : (if delta = 0 then pure (k, false) else k.update current delta globals bound) =
      Except.ok (ε := Failure) (u, flipped)) :
    Tick.Changed k u (u.clearIfUnused flipped) bound delta ∧
      (delta ≠ 0 → u.outside = k.outsideInUse current globals) ∧
        flipped = ((u.clearIfUnused flipped).isInitialized != k.isInitialized) := by
  by_cases hdelta : delta = 0
  · rw [if_pos hdelta] at h
    obtain ⟨rfl, rfl⟩ := Prod.mk.inj (Except.ok.inj h)
    subst hdelta
    have hkeep : k.clearIfUnused false = k := rfl
    rw [hkeep]
    exact ⟨Tick.changed_zero k bound, fun hne => absurd rfl hne, by simp⟩
  · rw [if_neg hdelta] at h
    obtain ⟨hchanged, hflips⟩ := Tick.changed_of_update hdelta h
    exact ⟨hchanged, fun _ => Tick.outside_of_update h, hflips⟩

theorem make_eq_ok {b : Book} {delta : Int} {limits : Pair Nat} {plan : ChangePlan}
    (h : ChangePlan.make b delta limits = .ok plan) :
    ∃ lowerOld lowerMade upperOld upperMade lowerFlipped upperFlipped settled,
      Planned b delta plan lowerOld lowerMade upperOld upperMade lowerFlipped upperFlipped
        settled := by
  simp only [ChangePlan.make] at h
  rw [Outcome.bind_eq_ok] at h
  obtain ⟨_, hrange, h⟩ := h
  rw [Outcome.bind_eq_ok] at h
  obtain ⟨⟨lowerIndex, lowerArray⟩, hlower, h⟩ := h
  rw [Outcome.bind_eq_ok] at h
  obtain ⟨⟨upperIndex, upperArray⟩, hupper, h⟩ := h
  rw [Outcome.bind_eq_ok] at h
  obtain ⟨lowerOffset, hlowerOffset, h⟩ := h
  rw [Outcome.bind_eq_ok] at h
  obtain ⟨upperOffset, hupperOffset, h⟩ := h
  rw [Outcome.bind_eq_ok] at h
  obtain ⟨lowerOld, hlowerOld, h⟩ := h
  rw [Outcome.bind_eq_ok] at h
  obtain ⟨upperOld, hupperOld, h⟩ := h
  dsimp only at h
  rw [Outcome.ite_bind_eq_ok] at h
  obtain ⟨⟨lowerMade, lowerFlipped⟩, hlowerMade, h⟩ := h
  dsimp only at h
  rw [Outcome.ite_bind_eq_ok] at h
  obtain ⟨⟨upperMade, upperFlipped⟩, hupperMade, h⟩ := h
  dsimp only at h
  rw [Outcome.bind_eq_ok] at h
  obtain ⟨settled, hsettled, h⟩ := h
  rw [Outcome.bind_eq_ok] at h
  obtain ⟨held, hheld, h⟩ := h
  rw [Outcome.bind_eq_ok] at h
  obtain ⟨amounts, hamounts, h⟩ := h
  rw [Outcome.bind_eq_ok] at h
  obtain ⟨_, -, h⟩ := h
  rw [Outcome.ite_bind_eq_ok] at h
  obtain ⟨liquidity, hliquidity, h⟩ := h
  rw [Outcome.bind_eq_ok] at h
  obtain ⟨counts, hcounts, h⟩ := h
  rw [Outcome.bind_eq_ok] at h
  obtain ⟨_, -, h⟩ := h
  obtain rfl := Except.ok.inj h
  -- what is left is to read the two updates and the change of the pool
  obtain ⟨hlowerChanged, hlowerOutside, hlowerFlips⟩ := changed_of_plan hlowerMade
  obtain ⟨hupperChanged, hupperOutside, hupperFlips⟩ := changed_of_plan hupperMade
  refine ⟨lowerOld, lowerMade, upperOld, upperMade, lowerFlipped, upperFlipped, settled, {
    range := checkRange_eq_ok hrange
    lower := found_of_eq_ok hlower hlowerOffset hlowerOld
    upper := found_of_eq_ok hupper hupperOffset hupperOld
    lowerChanged := hlowerChanged
    upperChanged := hupperChanged
    lowerOutside := hlowerOutside
    upperOutside := hupperOutside
    lowerFlips := hlowerFlips
    upperFlips := hupperFlips
    settle := hsettled
    position := ⟨held, addSigned_eq_ok (Outcome.orRefuse_eq_ok.1 hheld), rfl⟩
    amounts := hamounts
    liquidity := ?_
    counts := hcounts }⟩
  by_cases hcovers : b.position.Covers b.pool.tick
  · rw [if_pos hcovers]
    rw [if_pos (Position.covers_iff.1 hcovers)] at hliquidity
    exact addSigned_eq_ok hliquidity
  · rw [if_neg hcovers]
    rw [if_neg (mt Position.covers_iff.2 hcovers)] at hliquidity
    obtain rfl := Except.ok.inj hliquidity
    exact (Int.add_zero _).symm

/-! ### What a change writes -/

/-- What a change of the liquidity of `p` by `delta` did to the market `m`: it led to `m'` and the
position `p'`. Ticks `lower` and `upper` are the new boundary ticks, `lowerMade` and `upperMade` the
same before an unused one was cleared. -/
structure Changed (m m' : Market) (p p' : Position) (delta : Int) (amounts : Pair Nat)
    (lowerMade lower upperMade upper : Tick) : Prop where
  range : minTick ≤ p.lower ∧ p.lower < p.upper ∧ p.upper ≤ maxTick
  lowerChanged : Tick.Changed (lookup m.arrays p.lower) lowerMade lower .lower delta
  upperChanged : Tick.Changed (lookup m.arrays p.upper) upperMade upper .upper delta
  lowerOutside : delta ≠ 0 →
    lowerMade.outside = (lookup m.arrays p.lower).outsideInUse m.pool.tick m.pool.growth
  upperOutside : delta ≠ 0 →
    upperMade.outside = (lookup m.arrays p.upper).outsideInUse m.pool.tick m.pool.growth
  laid : Laid m'.arrays m.pool.spacing
  lookup : lookup m'.arrays =
    Function.update (Function.update (lookup m.arrays) p.lower lower) p.upper upper
  counted : ∀ a ∈ m'.arrays, a.count = a.usedCount
  tracks : Tracks m'.arrays m'.bitmap
  starts : m'.arrays.map (·.start) = m.arrays.map (·.start)
  labels : m'.arrays.map (·.label) = m.arrays.map (·.label)
  extension : m'.extension.pool = m.extension.pool
  pool : m'.pool =
    { m.pool with liquidity := m'.pool.liquidity, bitmap := m'.pool.bitmap }
  liquidity : (m'.pool.liquidity : Int) = m.pool.liquidity + if p.Covers m.pool.tick then delta else 0
  rest : m' = { m with pool := m'.pool, arrays := m'.arrays, extension := m'.extension }
  position : ∃ settled, p.settle (Tick.growthInside lowerMade upperMade m.pool.tick m.pool.growth) =
    .ok settled ∧ ∃ held : Nat, (held : Int) = p.liquidity + delta ∧
      p' = { settled with liquidity := held }
  amounts : amountsFor m.pool.sqrtPrice m.pool.tick p.lower p.upper delta.natAbs
    (if 0 < delta then .up else .down) = .ok amounts

/-- A boundary tick found among the picked arrays is the one that the market keeps. -/
theorem Found.tickState {m : Market} {spacing : Nat} (hl : Laid m.arrays spacing) {starts : List Int}
    {t : Int} {i offset : Nat} {a : TickArray} {k : Tick}
    (h : Found (m.pick starts) spacing t i a offset k) :
    a ∈ m.arrays ∧ k.index = t ∧ k = lookup m.arrays t := by
  have ha := mem_of_mem_pick h.mem
  have hindex : k.index = t := by
    rw [← h.slot, (hl.aligned a ha).index offset h.offset_lt, h.index_eq]
  refine ⟨ha, hindex, ?_⟩
  rw [← hindex]
  exact (lookup_of_mem hl (mem_ticks.2 ⟨a, ha, offset, h.offset_lt, h.slot⟩)).symm

/-- By how much a turned tick changes the number of ticks in use. -/
theorem tickDelta_eq {k k' : Tick} {flipped : Bool}
    (h : flipped = (k'.isInitialized != k.isInitialized)) :
    CountUpdate.tickDelta flipped k' = (k'.isInitialized.toNat : Int) - k.isInitialized.toNat := by
  subst h
  simp only [CountUpdate.tickDelta]
  cases k.isInitialized <;> cases k'.isInitialized <;> rfl

section Writing

variable {m : Market} {p : Position} {s : Supply} {delta : Int} {plan : ChangePlan}
  {lowerOld lowerMade upperOld upperMade : Tick} {lowerFlipped upperFlipped : Bool}
  {settled : Position}

/-- The arrays after the counts and both boundary ticks were written. -/
def writtenArrays (arrays : List TickArray) (plan : ChangePlan) (gain : Int → Int) :
    List TickArray :=
  modifyAt (modifyAt (recount arrays gain) plan.lower.array.start
    (·.setSlot plan.lower.offset plan.lower.tick)) plan.upper.array.start
    (·.setSlot plan.upper.offset plan.upper.tick)

theorem Planned.laid (hp : Planned (m.book p s) delta plan lowerOld lowerMade upperOld upperMade
    lowerFlipped upperFlipped settled) (hm : m.Orderly) (gain : Int → Int) :
    Laid (writtenArrays m.arrays plan gain) m.pool.spacing := by
  obtain ⟨-, hlower, -⟩ := hp.lower.tickState hm.laid
  obtain ⟨-, hupper, -⟩ := hp.upper.tickState hm.laid
  refine laid_setSlot (laid_setSlot (laid_recount hm.laid gain) ?_) ?_
  · rw [hp.lowerChanged.index, hlower, ← hp.lower.index_eq]
    rfl
  · rw [hp.upperChanged.index, hupper, ← hp.upper.index_eq]
    rfl

theorem Planned.lookup (hp : Planned (m.book p s) delta plan lowerOld lowerMade upperOld upperMade
    lowerFlipped upperFlipped settled) (hm : m.Orderly) (gain : Int → Int) :
    lookup (writtenArrays m.arrays plan gain) =
      Function.update (Function.update (lookup m.arrays) p.lower plan.lower.tick) p.upper
        plan.upper.tick := by
  obtain ⟨hlowerMem, hlower, -⟩ := hp.lower.tickState hm.laid
  obtain ⟨hupperMem, hupper, -⟩ := hp.upper.tickState hm.laid
  have hlowerIndex : plan.lower.tick.index = p.lower := hp.lowerChanged.index.trans hlower
  have hupperIndex : plan.upper.tick.index = p.upper := hp.upperChanged.index.trans hupper
  have hlaid := laid_recount hm.laid gain
  have hlowerPlace : plan.lower.tick.index =
      plan.lower.array.start + (plan.lower.offset : Int) * m.pool.spacing :=
    hlowerIndex.trans hp.lower.index_eq.symm
  have hupperPlace : plan.upper.tick.index =
      plan.upper.array.start + (plan.upper.offset : Int) * m.pool.spacing :=
    hupperIndex.trans hp.upper.index_eq.symm
  simp only [writtenArrays]
  rw [lookup_setSlot (laid_setSlot hlaid hlowerPlace) ?_ hp.upper.offset_lt hupperPlace,
    lookup_setSlot hlaid ?_ hp.lower.offset_lt hlowerPlace, lookup_recount, hlowerIndex, hupperIndex]
  · rw [map_start_recount]
    exact List.mem_map_of_mem hlowerMem
  · rw [map_start_modifyAt_setSlot, map_start_recount]
    exact List.mem_map_of_mem hupperMem

/-- Writing a place of an array, if a condition holds. -/
theorem usedCount_writeIf {c : Prop} [Decidable c] {a : TickArray} {offset : Nat} {old : Tick}
    (h : offset < arraySize) (hold : c → a.ticks[offset] = old) (k : Tick) :
    ((if c then a.setSlot offset k else a).usedCount : Int) =
      a.usedCount + if c then (k.isInitialized.toNat : Int) - old.isInitialized.toNat else 0 := by
  by_cases hc : c
  · have := TickArray.usedCount_setSlot (a := a) h k
    rw [hold hc] at this
    rw [if_pos hc, if_pos hc]
    omega
  · rw [if_neg hc, if_neg hc, Int.add_zero]

/-- The place of the lower tick holds what was found there. -/
theorem Found.slot_of_start {m : Market} {spacing : Nat} (hl : Laid m.arrays spacing)
    {starts : List Int} {t : Int} {i offset : Nat} {a b : TickArray} {k : Tick}
    (h : Found (m.pick starts) spacing t i a offset k) (hb : b ∈ m.arrays) (hstart : b.start = a.start) :
    ∃ _ : offset < arraySize, b.ticks[offset] = k := by
  obtain rfl := hl.eq_of_start_eq hb (mem_of_mem_pick h.mem) hstart
  exact ⟨h.offset_lt, h.slot⟩

/-- Where both ticks lie in one array, they have different places. -/
theorem Planned.offset_ne (hp : Planned (m.book p s) delta plan lowerOld lowerMade upperOld upperMade
    lowerFlipped upperFlipped settled) (hstart : plan.lower.array.start = plan.upper.array.start) :
    plan.lower.offset ≠ plan.upper.offset := by
  intro hoffset
  have hl := hp.lower.index_eq
  have hu := hp.upper.index_eq
  rw [hoffset, hstart] at hl
  exact absurd (hl.symm.trans hu) (Int.ne_of_lt hp.range.2.1)

/-- Once the two ticks are written, the counts are those of the ticks in use. -/
theorem Planned.counted (hp : Planned (m.book p s) delta plan lowerOld lowerMade upperOld upperMade
    lowerFlipped upperFlipped settled) (hm : m.Orderly)
    (hnonneg : ∀ a ∈ m.arrays, 0 ≤ (a.count : Int) +
      countGain plan.lower plan.upper lowerFlipped upperFlipped a.start)
    {a : TickArray} (ha : a ∈ writtenArrays m.arrays plan
      (countGain plan.lower plan.upper lowerFlipped upperFlipped)) : a.count = a.usedCount := by
  have hlowerLt := hp.lower.offset_lt
  have hupperLt := hp.upper.offset_lt
  obtain ⟨written, hwritten, rfl⟩ := mem_modifyAt.1 ha
  obtain ⟨counted, hcounted, rfl⟩ := mem_modifyAt.1 hwritten
  obtain ⟨c, hc, hcountedEq⟩ := List.mem_map.1 hcounted
  have hticks : counted.ticks = c.ticks := by rw [← hcountedEq]
  have hstart : counted.start = c.start := by rw [← hcountedEq]
  have hused : counted.usedCount = c.count := by
    rw [hm.counted c hc]
    simp only [TickArray.usedCount]
    rw [hticks]
  have hcount : (counted.count : Int) =
      c.count + countGain plan.lower plan.upper lowerFlipped upperFlipped c.start := by
    rw [← hcountedEq]
    exact Int.toNat_of_nonneg (hnonneg c hc)
  have hlowerOld : counted.start = plan.lower.array.start →
      counted.ticks[plan.lower.offset] = lowerOld := by
    intro heq
    obtain ⟨_, hslot⟩ := hp.lower.slot_of_start hm.laid hc (hstart.symm.trans heq)
    exact (congrArg (·[plan.lower.offset]) hticks).trans hslot
  -- the array may hold either of the two ticks, both of them or none
  have hone := usedCount_writeIf hp.lower.offset_lt hlowerOld plan.lower.tick
  set written := if counted.start = plan.lower.array.start then
    counted.setSlot plan.lower.offset plan.lower.tick else counted with hwrittenEq
  have hwrittenStart : written.start = counted.start := by
    rw [hwrittenEq]
    split <;> rfl
  have hwrittenCount : written.count = counted.count := by
    rw [hwrittenEq]
    split <;> rfl
  have hupperOld : written.start = plan.upper.array.start →
      written.ticks[plan.upper.offset] = upperOld := by
    intro heq
    rw [hwrittenStart] at heq
    obtain ⟨_, hslot⟩ := hp.upper.slot_of_start hm.laid hc (hstart.symm.trans heq)
    refine Eq.trans ?_ ((congrArg (·[plan.upper.offset]) hticks).trans hslot)
    by_cases hlower : counted.start = plan.lower.array.start
    · -- the first write left the second place alone
      simp only [hwrittenEq, if_pos hlower]
      exact Vector.getElem_setIfInBounds_ne _ (hp.offset_ne (hlower.symm.trans heq))
    · simp only [hwrittenEq, if_neg hlower]
  have htwo := usedCount_writeIf hp.upper.offset_lt hupperOld plan.upper.tick
  have hfinal : (if written.start = plan.upper.array.start then
      written.setSlot plan.upper.offset plan.upper.tick else written).count = counted.count := by
    rw [← hwrittenCount]
    split <;> rfl
  rw [hfinal]
  simp only [countGain] at hcount
  rw [tickDelta_eq hp.lowerFlips, tickDelta_eq hp.upperFlips, ← hstart] at hcount
  rw [hwrittenStart] at htwo ⊢
  omega

theorem modifyPosition_eq_ok {b b' : Book} {limits amounts : Pair Nat}
    (h : modifyPosition delta limits b = .ok amounts b') :
    ∃ plan t, ChangePlan.make b delta limits = .ok plan ∧
      plan.counts.forM CountUpdate.commit b = .ok () t ∧ plan.amounts = amounts ∧
      b' = { t with
        arrays := (t.arrays.modify plan.lower.index
          (·.setSlot plan.lower.offset plan.lower.tick)).modify plan.upper.index
          (·.setSlot plan.upper.offset plan.upper.tick)
        pool := { t.pool with liquidity := plan.liquidity }
        position := plan.position } := by
  simp only [modifyPosition, ChangePlan.commit] at h
  simp only [Update.bind_eq_ok, Update.get_eq_ok, Update.lift_eq_ok, Update.pure_eq_ok,
    Update.modify_eq_ok] at h
  obtain ⟨_, _, ⟨rfl, rfl⟩, plan, _, ⟨hmake, rfl⟩, _, _, ⟨_, t, hcounts, rfl⟩, rfl, rfl⟩ := h
  exact ⟨plan, t, hmake, hcounts, rfl, rfl⟩

theorem runOn_eq_ok {α : Type} {u : Update Book α} {a : α} {m' : Market} {p' : Position}
    (h : m.runOn p s u = .ok (m', p', a)) :
    ∃ b, u (m.book p s) = .ok a b ∧ m' = m.takeOver b ∧ p' = b.position := by
  simp only [Market.runOn] at h
  cases hu : u (m.book p s) with
  | ok a' b =>
      rw [hu] at h
      obtain ⟨rfl, hrest⟩ := Prod.mk.inj (Except.ok.inj h)
      obtain ⟨rfl, rfl⟩ := Prod.mk.inj hrest
      exact ⟨b, rfl, rfl, rfl⟩
  | error e b =>
      rw [hu] at h
      cases h

theorem supplied_getD (m : Market) (s : Supply) : (m.supplied s).getD m.extension = m.extension := by
  simp only [Market.supplied]
  split <;> rfl

/-- An extension that is taken over from a book belongs to the same pool. -/
theorem pool_takeOver {extension : Option BitmapExtension}
    (h : extension.map (·.pool) = (m.supplied s).map (·.pool)) :
    (extension.getD m.extension).pool = m.extension.pool := by
  cases extension with
  | none => rfl
  | some e =>
      simp only [Market.supplied] at h
      split at h
      · exact Option.some.inj h
      · cases h

/-- The two writes of a change, put back into the market's arrays. -/
theorem Planned.putBack_written (hp : Planned (m.book p s) delta plan lowerOld lowerMade upperOld
    upperMade lowerFlipped upperFlipped settled) {e : BitmapExtension} {t : Book}
    (hc : CountsCommitted m.arrays (countGain plan.lower plan.upper lowerFlipped upperFlipped) e
      (m.book p s) t) :
    Market.putBack m.arrays ((t.arrays.modify plan.lower.index
      (·.setSlot plan.lower.offset plan.lower.tick)).modify plan.upper.index
      (·.setSlot plan.upper.offset plan.upper.tick)) = writtenArrays m.arrays plan
        (countGain plan.lower plan.upper lowerFlipped upperFlipped) := by
  have hlowerFirst : FirstAt (t.arrays.map (·.start)) plan.lower.index plan.lower.array.start := by
    rw [hc.starts]
    exact hp.lower.first
  have hupperFirst : FirstAt ((t.arrays.modify plan.lower.index
      (·.setSlot plan.lower.offset plan.lower.tick)).map (·.start)) plan.upper.index
      plan.upper.array.start := by
    rw [map_start_setSlot, hc.starts]
    exact hp.upper.first
  rw [putBack_setSlot hupperFirst, putBack_setSlot hlowerFirst, hc.arrays_eq]
  rfl

/-- **What a change of liquidity does to a market.** -/
theorem changed_of_modify (hm : m.Orderly) {m' : Market} {p' : Position}
    {limits amounts : Pair Nat}
    (h : m.runOn p s (modifyPosition delta limits) = .ok (m', p', amounts)) :
    ∃ lowerMade lower upperMade upper,
      Changed m m' p p' delta amounts lowerMade lower upperMade upper := by
  obtain ⟨b, hu, rfl, rfl⟩ := runOn_eq_ok h
  obtain ⟨plan, t, hmake, hcommit, rfl, rfl⟩ := modifyPosition_eq_ok hu
  obtain ⟨lowerOld, lowerMade, upperOld, upperMade, lowerFlipped, upperFlipped, settled, hp⟩ :=
    make_eq_ok hmake
  obtain ⟨hlowerMem, -, hlowerOld⟩ := hp.lower.tickState hm.laid
  obtain ⟨hupperMem, -, hupperOld⟩ := hp.upper.tickState hm.laid
  have hsame : Market.putBack m.arrays (m.pick s.starts) = m.arrays :=
    putBack_self hm.laid fun _ ha => mem_of_mem_pick ha
  -- without an extension in the book, the market's own one stands in
  have htracks : Tracks m.arrays ((m.book p s).bitmap m.extension) := by
    have heq : (m.book p s).bitmap m.extension = m.bitmap := by
      simp only [Book.bitmap, Market.bitmap]
      exact congrArg (BitmapView.whole m.pool.bitmap · m.pool.spacing) (supplied_getD m s)
    rw [heq]
    exact hm.marked
  have hc := counts_committed hm.laid hlowerMem hupperMem hp.lower.first hp.upper.first hsame htracks
    hp.counts hcommit
  have hpool := hc.pool
  have hwritten := hp.putBack_written hc
  refine ⟨lowerMade, plan.lower.tick, upperMade, plan.upper.tick, {
    range := hp.range
    lowerChanged := hlowerOld ▸ hp.lowerChanged
    upperChanged := hupperOld ▸ hp.upperChanged
    lowerOutside := hlowerOld ▸ hp.lowerOutside
    upperOutside := hupperOld ▸ hp.upperOutside
    laid := ?_
    lookup := ?_
    counted := ?_
    tracks := ?_
    starts := ?_
    labels := ?_
    extension := ?_
    pool := ?_
    liquidity := hp.liquidity
    rest := rfl
    position := ⟨settled, hp.settle, hp.position⟩
    amounts := hp.amounts }⟩
  · change Laid (Market.putBack m.arrays _) _
    rw [hwritten]
    exact hp.laid hm _
  · exact (congrArg TickTable.lookup hwritten).trans (hp.lookup hm _)
  · intro a ha
    exact hp.counted hm hc.nonneg (hwritten ▸ ha)
  · have hview : (m.takeOver { t with
        arrays := (t.arrays.modify plan.lower.index
          (·.setSlot plan.lower.offset plan.lower.tick)).modify plan.upper.index
          (·.setSlot plan.upper.offset plan.upper.tick)
        pool := { t.pool with liquidity := plan.liquidity }
        position := plan.position }).bitmap = t.bitmap m.extension := rfl
    rw [hview]
    change Tracks (Market.putBack m.arrays _) _
    rw [hwritten]
    exact (hc.tracks.setSlot _ _ _).setSlot _ _ _
  · change (Market.putBack m.arrays _).map (·.start) = _
    rw [hwritten]
    simp only [writtenArrays]
    rw [map_start_modifyAt_setSlot, map_start_modifyAt_setSlot, map_start_recount]
  · change (Market.putBack m.arrays _).map (·.label) = _
    rw [hwritten]
    simp only [writtenArrays]
    rw [map_label_modifyAt_setSlot, map_label_modifyAt_setSlot, map_label_recount]
  · exact pool_takeOver (CountUpdate.pool_extension_of_commits hcommit)
  · change { t.pool with liquidity := plan.liquidity } = _
    rw [hpool]
    rfl

end Writing

/-! ### The market stays well formed -/

theorem settle_eq_ok {p settled : Position} {inside : Pair Growth}
    (h : p.settle inside = .ok settled) :
    ∃ fees, p.pendingFees inside = .ok fees ∧ settled = { p with
      owed := ⟨p.owed.zero + fees.zero, p.owed.one + fees.one⟩, growthLast := inside } := by
  simp only [Position.settle] at h
  simp only [Outcome.bind_eq_ok, narrow_eq_ok] at h
  obtain ⟨fees, hfees, _, ⟨-, rfl⟩, _, ⟨-, rfl⟩, h⟩ := h
  exact ⟨fees, hfees, (Except.ok.inj h).symm⟩

namespace Changed

variable {m m' : Market} {p p' q : Position} {i : Nat} {delta : Int} {amounts : Pair Nat}
  {lowerMade lower upperMade upper : Tick}

/-- The position keeps its range, and its liquidity changes by the amount. -/
theorem bounds (hc : Changed m m' p p' delta amounts lowerMade lower upperMade upper) :
    p'.lower = p.lower ∧ p'.upper = p.upper ∧ (p'.liquidity : Int) = p.liquidity + delta := by
  obtain ⟨settled, hsettle, held, hheld, rfl⟩ := hc.position
  obtain ⟨_, -, rfl⟩ := settle_eq_ok hsettle
  exact ⟨rfl, rfl, hheld⟩

theorem lookup_upper (hc : Changed m m' p p' delta amounts lowerMade lower upperMade upper) :
    TickTable.lookup m'.arrays p.upper = upper := by
  rw [hc.lookup, Function.update_self]

theorem lookup_lower (hc : Changed m m' p p' delta amounts lowerMade lower upperMade upper) :
    TickTable.lookup m'.arrays p.lower = lower := by
  rw [hc.lookup, Function.update_of_ne (Int.ne_of_lt hc.range.2.1), Function.update_self]

theorem lookup_other (hc : Changed m m' p p' delta amounts lowerMade lower upperMade upper) {t : Int}
    (hlower : t ≠ p.lower) (hupper : t ≠ p.upper) :
    TickTable.lookup m'.arrays t = TickTable.lookup m.arrays t := by
  rw [hc.lookup, Function.update_of_ne hupper, Function.update_of_ne hlower]

/-- Every tick is kept or changes as a boundary tick does. -/
theorem lookup_cases (hc : Changed m m' p p' delta amounts lowerMade lower upperMade upper) (t : Int) :
    TickTable.lookup m'.arrays t = TickTable.lookup m.arrays t ∨ ∃ made bound,
      Tick.Changed (TickTable.lookup m.arrays t) made (TickTable.lookup m'.arrays t) bound delta := by
  by_cases hu : t = p.upper
  · subst hu
    rw [hc.lookup_upper]
    exact Or.inr ⟨_, _, hc.upperChanged⟩
  · by_cases hl : t = p.lower
    · subst hl
      rw [hc.lookup_lower]
      exact Or.inr ⟨_, _, hc.lowerChanged⟩
    · exact Or.inl (hc.lookup_other hl hu)

/-- Only the boundary ticks change what refers to them. -/
theorem gross_eq (hc : Changed m m' p p' delta amounts lowerMade lower upperMade upper) (t : Int) :
    ((TickTable.lookup m'.arrays t).gross : Int) =
      (TickTable.lookup m.arrays t).gross + if p.lower = t ∨ p.upper = t then delta else 0 := by
  by_cases hl : p.lower = t
  · subst hl
    rw [hc.lookup_lower, if_pos (Or.inl rfl)]
    exact hc.lowerChanged.gross
  · by_cases hu : p.upper = t
    · subst hu
      rw [hc.lookup_upper, if_pos (Or.inr rfl)]
      exact hc.upperChanged.gross
    · rw [hc.lookup_other (Ne.symm hl) (Ne.symm hu), if_neg fun hor => hor.elim hl hu, Int.add_zero]

/-- Every tick still records what the positions contribute to it. -/
theorem gross (hc : Changed m m' p p' delta amounts lowerMade lower upperMade upper)
    (hm : ∀ t, (TickTable.lookup m.arrays t).gross = grossAt m.positions t)
    (hi : m.positions[i]? = some p) (hlower : q.lower = p.lower) (hupper : q.upper = p.upper)
    (hliquidity : (q.liquidity : Int) = p.liquidity + delta) (t : Int) :
    (TickTable.lookup m'.arrays t).gross = grossAt (m.positions.set i q) t := by
  have hset := grossAt_set hi hlower hupper t
  have hold := hm t
  have hnew := hc.gross_eq t
  by_cases hbound : p.lower = t ∨ p.upper = t
  · rw [if_pos hbound] at hset hnew
    omega
  · rw [if_neg hbound] at hset hnew
    omega

theorem net (hc : Changed m m' p p' delta amounts lowerMade lower upperMade upper)
    (hm : m.WellFormed) (hi : m.positions[i]? = some p) (hlower : q.lower = p.lower)
    (hupper : q.upper = p.upper) (hliquidity : (q.liquidity : Int) = p.liquidity + delta) (t : Int) :
    (TickTable.lookup m'.arrays t).net = netAt (m.positions.set i q) t := by
  have hgross := hc.gross hm.gross hi hlower hupper hliquidity t
  have hne : p.lower ≠ p.upper := Int.ne_of_lt hc.range.2.1
  have hold : (TickTable.lookup m.arrays t).gross = 0 → (TickTable.lookup m.arrays t).net = 0 := by
    rw [hm.gross, hm.net]
    exact netAt_eq_zero
  have hset := netAt_set hi hlower hupper t
  by_cases hl : t = p.lower
  · subst hl
    rw [hc.lookup_lower] at hgross ⊢
    by_cases hzero : lower.gross = 0
    · rw [hc.lowerChanged.net_eq_zero hold hzero, netAt_eq_zero (hgross ▸ hzero)]
    · have := hc.lowerChanged.net hzero
      have := hm.net p.lower
      rw [if_pos rfl, if_neg hne.symm] at hset
      unfold Tick.Bound.signed at *
      dsimp only at *
      omega
  · by_cases hu : t = p.upper
    · subst hu
      rw [hc.lookup_upper] at hgross ⊢
      by_cases hzero : upper.gross = 0
      · rw [hc.upperChanged.net_eq_zero hold hzero, netAt_eq_zero (hgross ▸ hzero)]
      · have := hc.upperChanged.net hzero
        have := hm.net p.upper
        rw [if_neg hne, if_pos rfl] at hset
        unfold Tick.Bound.signed at *
        dsimp only at *
        omega
    · rw [hc.lookup_other hl hu, hm.net t, hset, if_neg (Ne.symm hl), if_neg (Ne.symm hu),
        Int.sub_zero, Int.add_zero]

/-- A change of liquidity keeps a market orderly, whatever becomes of its positions. -/
theorem orderly (hc : Changed m m' p p' delta amounts lowerMade lower upperMade upper)
    (hm : m.Orderly) (positions : List Position) : ({ m' with positions } : Market).Orderly := by
  have hspacing : m'.pool.spacing = m.pool.spacing := by rw [hc.pool]
  have htick : m'.pool.tick = m.pool.tick := by rw [hc.pool]
  have hprice : m'.pool.sqrtPrice = m.pool.sqrtPrice := by rw [hc.pool]
  exact {
    spacing_pos := by
      change 0 < m'.pool.spacing
      rw [hspacing]
      exact hm.spacing_pos
    laid := by
      change Laid m'.arrays m'.pool.spacing
      rw [hspacing]
      exact hc.laid
    counted := hc.counted
    marked := hc.tracks
    price := by
      change Agrees m'.pool.sqrtPrice m'.pool.tick
      rw [hprice, htick]
      exact hm.price
    oracle := by
      change m'.oracle.newest < 32
      rw [hc.rest]
      exact hm.oracle }

/-- **A change of liquidity keeps the market well formed**, whatever becomes of the position's other
fields. -/
theorem wellFormed (hc : Changed m m' p p' delta amounts lowerMade lower upperMade upper)
    (hm : m.WellFormed) (hi : m.positions[i]? = some p) (hlower : q.lower = p.lower)
    (hupper : q.upper = p.upper) (hliquidity : (q.liquidity : Int) = p.liquidity + delta) :
    ({ m' with positions := m.positions.set i q } : Market).WellFormed := by
  have htick : m'.pool.tick = m.pool.tick := by rw [hc.pool]
  exact { hc.orderly hm.orderly (m.positions.set i q) with
    gross := hc.gross hm.gross hi hlower hupper hliquidity
    net := hc.net hm hi hlower hupper hliquidity
    ranged := by
      intro r hr hne
      rcases List.mem_or_eq_of_mem_set hr with hr | rfl
      · exact hm.ranged r hr hne
      · rw [hlower, hupper]
        exact hc.range
    liquidity := by
      change m'.pool.liquidity = liquidityAt (m.positions.set i q) m'.pool.tick
      have hset := liquidityAt_set hi hlower hupper m.pool.tick
      have hold := hm.liquidity
      have hnew := hc.liquidity
      rw [htick]
      by_cases hcovers : p.Covers m.pool.tick
      · rw [if_pos hcovers] at hset hnew
        omega
      · rw [if_neg hcovers] at hset hnew
        omega }

end Changed

/-! ### Deposits and withdrawals -/

namespace Market

variable {m m' : Market} {i : Nat} {s : Supply}

theorem position_eq_ok {p : Position} (h : m.position i = .ok p) : m.positions[i]? = some p := by
  simp only [position] at h
  cases hp : m.positions[i]? with
  | none =>
      rw [hp] at h
      cases h
  | some q =>
      rw [hp] at h
      rw [Except.ok.inj h]

theorem runAt_eq_ok {α : Type} {u : Update Book α} {a : α} (h : m.runAt i s u = .ok (m', a)) :
    ∃ p b, m.positions[i]? = some p ∧ u (m.book p s) = .ok a b ∧
      m' = { m.takeOver b with positions := m.positions.set i b.position } := by
  simp only [runAt] at h
  rw [Outcome.bind_eq_ok] at h
  obtain ⟨p, hp, h⟩ := h
  rw [Outcome.bind_eq_ok] at h
  obtain ⟨⟨t, p', a'⟩, hrun, h⟩ := h
  obtain ⟨b, hu, rfl, rfl⟩ := runOn_eq_ok hrun
  obtain ⟨rfl, rfl⟩ := Prod.mk.inj (Except.ok.inj h)
  exact ⟨p, b, position_eq_ok hp, hu, rfl⟩

theorem increaseLiquidity_eq_ok {b b' : Book} {liquidity : Nat} {maxima : Pair Nat}
    {change : LiquidityChange} (h : increaseLiquidity liquidity maxima b = .ok change b') :
    0 < liquidity ∧ liquidity < 2 ^ 127 ∧
      modifyPosition liquidity maxima b = .ok change.amounts b' := by
  simp only [increaseLiquidity] at h
  simp only [Update.bind_eq_ok, Update.lift_eq_ok, Update.pure_eq_ok, require_eq_ok,
    narrow_eq_ok] at h
  obtain ⟨_, _, ⟨hpos, rfl⟩, _, _, ⟨⟨hnarrow, rfl⟩, rfl⟩, amounts, _, hmodify, rfl, rfl⟩ := h
  exact ⟨hpos, hnarrow, hmodify⟩

/-- A deposit changes the liquidity by a positive amount, which is the one asked for or derived. -/
theorem deposit_eq_ok {b b' : Book} {d : Deposit} {derived : Bool} {n : Nat}
    {change : LiquidityChange} (h : deposit d derived b = .ok (n, change) b') :
    (if derived then depositLiquidity b.pool b.position d.liquidity d.maxima d.only = .ok n
      else n = d.liquidity) ∧
    0 < n ∧ n < 2 ^ 127 ∧ modifyPosition n d.maxima b = .ok change.amounts b' := by
  simp only [deposit] at h
  cases derived with
  | true =>
      simp only [if_true, addDeposit, Update.bind_eq_ok, Update.get_eq_ok, Update.lift_eq_ok,
        Update.pure_eq_ok] at h ⊢
      obtain ⟨_, _, ⟨rfl, rfl⟩, liquidity, _, ⟨hderive, rfl⟩, _, _, hincrease, heq, rfl⟩ := h
      obtain ⟨rfl, rfl⟩ := Prod.mk.inj heq
      exact ⟨hderive, increaseLiquidity_eq_ok hincrease⟩
  | false =>
      simp only [Bool.false_eq_true, if_false, Update.bind_eq_ok, Update.pure_eq_ok] at h ⊢
      obtain ⟨_, _, hincrease, heq, rfl⟩ := h
      obtain ⟨rfl, rfl⟩ := Prod.mk.inj heq
      exact ⟨rfl, increaseLiquidity_eq_ok hincrease⟩

theorem decreaseLiquidity_eq_ok {b b' : Book} {liquidity : Nat} {minima : Pair Nat}
    {change : LiquidityChange} (h : decreaseLiquidity liquidity minima b = .ok change b') :
    ∃ t, modifyPosition (-(liquidity : Int)) minima b = .ok change.amounts t ∧
      change.fees = t.position.owed ∧
        b' = { t with position := { t.position with owed := ⟨0, 0⟩ } } := by
  simp only [decreaseLiquidity] at h
  simp only [Update.bind_eq_ok, Update.get_eq_ok, Update.lift_eq_ok, Update.pure_eq_ok,
    Update.modify_eq_ok, require_eq_ok, narrow_eq_ok] at h
  obtain ⟨_, _, ⟨rfl, rfl⟩, _, _, ⟨-, rfl⟩, _, _, ⟨⟨-, rfl⟩, rfl⟩, amounts, t, hmodify, _, _,
    ⟨rfl, rfl⟩, _, _, rfl, rfl, rfl⟩ := h
  exact ⟨_, hmodify, rfl, rfl⟩

/-- A run of a change on position number `i`, before the other markets' positions are put back. -/
theorem changed_of_run (hm : m.Orderly) {p : Position} {b : Book} {delta : Int}
    {limits amounts : Pair Nat} (h : modifyPosition delta limits (m.book p s) = .ok amounts b) :
    ∃ lowerMade lower upperMade upper,
      Changed m (m.takeOver b) p b.position delta amounts lowerMade lower upperMade upper := by
  have hrun : m.runOn p s (modifyPosition delta limits) = .ok (m.takeOver b, b.position, amounts) := by
    simp only [runOn]
    rw [h]
  exact changed_of_modify hm hrun

/-- **A deposit is a change by a positive amount.** -/
theorem increase_eq_ok (hm : m.Orderly) {d : Deposit} {derived : Bool} {n : Nat}
    {change : LiquidityChange} (h : m.increase i d derived s = .ok (m', n, change)) :
    ∃ p p' m₁ lowerMade lower upperMade upper, m.positions[i]? = some p ∧ 0 < n ∧
      Changed m m₁ p p' n change.amounts lowerMade lower upperMade upper ∧
      m' = { m₁ with positions := m.positions.set i p' } := by
  simp only [increase] at h
  obtain ⟨p, b, hi, hu, rfl⟩ := runAt_eq_ok h
  obtain ⟨-, hpos, -, hmodify⟩ := deposit_eq_ok hu
  obtain ⟨lowerMade, lower, upperMade, upper, hc⟩ := changed_of_run hm hmodify
  exact ⟨p, b.position, _, lowerMade, lower, upperMade, upper, hi, hpos, hc, rfl⟩

/-- **A withdrawal is a change by a negative amount**, after which the owed fees are paid out. -/
theorem decrease_eq_ok (hm : m.Orderly) {liquidity : Nat} {minima : Pair Nat}
    {change : LiquidityChange} (h : m.decrease i liquidity minima s = .ok (m', change)) :
    ∃ p p' m₁ lowerMade lower upperMade upper, m.positions[i]? = some p ∧
      Changed m m₁ p p' (-(liquidity : Int)) change.amounts lowerMade lower upperMade upper ∧
      change.fees = p'.owed ∧
      m' = { m₁ with positions := m.positions.set i { p' with owed := ⟨0, 0⟩ } } := by
  simp only [decrease] at h
  obtain ⟨p, b, hi, hu, rfl⟩ := runAt_eq_ok h
  obtain ⟨t, hmodify, hfees, rfl⟩ := decreaseLiquidity_eq_ok hu
  obtain ⟨lowerMade, lower, upperMade, upper, hc⟩ := changed_of_run hm hmodify
  exact ⟨p, t.position, _, lowerMade, lower, upperMade, upper, hi, hc, hfees, rfl⟩

/-- Opening a position is setting it up and paying a deposit into it. -/
theorem openPosition_eq (lower upper : Int) (d : Deposit) (derived : Bool) :
    m.openPosition lower upper d derived s =
      (m.setUpPosition lower upper).increase m.positions.length d derived s := by
  have hat : (m.setUpPosition lower upper).position m.positions.length =
      .ok (m.freshPosition lower upper) := by
    simp only [position, setUpPosition]
    simp
  have hset : ∀ p : Position, (m.setUpPosition lower upper).positions.set m.positions.length p =
      m.positions ++ [p] := by
    intro p
    simp only [setUpPosition]
    simp
  have hfresh : Position.zeroed.setUp 0 0 m.key lower upper = m.freshPosition lower upper := rfl
  have hbook : (m.setUpPosition lower upper).book (m.freshPosition lower upper) s =
      m.book (m.freshPosition lower upper) s := rfl
  simp only [openPosition, increase, runAt, runOn]
  simp only [hat, Outcome.ok_bind, hbook, hfresh]
  cases deposit d derived (m.book (m.freshPosition lower upper) s) with
  | ok a b =>
      refine congrArg (fun ps : List Position =>
        Except.ok ({ m.takeOver b with positions := ps }, a)) ?_
      exact (hset b.position).symm
  | error e b => rfl

end Market

end Clmm
