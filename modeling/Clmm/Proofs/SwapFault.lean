import Clmm.Proofs.LiquidityLedger
import Clmm.Proofs.SearchDecides
import Clmm.Proofs.StepFault
import Clmm.Proofs.WalkEnds

/-!
# Clmm.Proofs.SwapFault

**When a swap faults** (`swap_faults_iff`). It does so in one way only: on a walk that came that far, a
product of liquidity and prices leaves 256 bits (`SwapStep.Overflows`). Everything else that a swap
computes is small enough or is checked, and its walk does not run out of steps.

For this, liquidity times price has to reach `2 ^ 192` somewhere on the curve (`Moderate`). It can, near
the upper end of the price range, where a narrow position has much liquidity for few tokens
(`not_every_swap_decides`).
-/

namespace Clmm

open TickTable Outcome

/-! ### Parts of a step that decide -/

theorem decides_sqrtPriceAt {t : Int} : Decides (sqrtPriceAt t) :=
  decides_require.bind fun _ _ => decides_pure _

theorem decides_tickAt {p : Nat} : Decides (tickAt p) :=
  decides_require.bind fun _ _ => decides_pure _

theorem decides_splitFee {fee protocolRate fundRate : Nat} :
    Decides (splitFee fee protocolRate fundRate) := by
  have hshare : ∀ rate, Decides (feeShare fee rate) := fun rate =>
    decides_mulDiv.bind fun _ _ => decides_pure _
  exact (hshare _).bind fun _ _ => (hshare _).bind fun _ _ => decides_subOrRefuse.bind fun _ _ =>
    decides_subOrRefuse.bind fun _ _ => decides_pure _

theorem decides_feeGrowth {fee liquidity : Nat} : Decides (feeGrowth fee liquidity) :=
  .ite (fun _ => decides_ok _) fun _ => decides_mulDiv.bind fun _ _ => decides_pure _

namespace Swap

section Step

variable {c : Course} {arrays supplied : List TickArray} {w : Walk} {s : SwapStep}

theorem decides_settleStep : Decides (settleStep c w s) := by
  simp only [settleStep]
  exact decides_narrow.bind fun _ _ => decides_subOrRefuse.bind fun _ _ =>
    decides_narrow.bind fun _ _ => decides_splitFee.bind fun _ _ => decides_narrow.bind fun _ _ =>
    decides_narrow.bind fun _ _ => decides_narrow.bind fun _ _ => decides_feeGrowth.bind fun _ _ =>
    decides_pure _

theorem decides_crossTick {k : Cursor} {offset : Nat} (hoffset : offset < arraySize) :
    Decides (crossTick c w k offset) := by
  have hslot : Succeeds (k.array.slot offset) := ⟨_, TickArray.slot_eq_ok.2 ⟨hoffset, rfl⟩⟩
  simp only [crossTick]
  refine hslot.decides.bind fun before _ => ?_
  cases c.direction with
  | down =>
      exact decides_signedNarrow.bind fun _ _ => decides_addSigned.bind fun _ _ => decides_pure _
  | up => exact (decides_pure _).bind fun _ _ => decides_addSigned.bind fun _ _ => decides_pure _

/-- The next step of the walk forms a product that leaves 256 bits. -/
def Walk.Overflows (c : Course) (w : Walk) : Prop :=
  ∃ found t, Heads c w found t ∧
    SwapStep.Overflows w.sqrtPrice (nearer c.direction (priceAt t) c.limit) w.liquidity w.remaining
      c.tradeRate c.mode c.direction

/-- What a walk's numbers rely on, besides its place. -/
structure Course.Sized (c : Course) : Prop where
  low : minSqrtPrice < c.limit
  high : c.direction = .up → c.limit < maxSqrtPrice
  rate : c.tradeRate < feeDenominator

/-- **When a step of a walk faults.** -/
theorem faultsIff_step (hc : c.Charted arrays supplied) (hsized : c.Sized)
    (hw : Afoot c arrays supplied w) (hgoes : isDone c w = false) :
    FaultsIff (step c w) (w.Overflows c) := by
  rw [isDone_eq_false_iff] at hgoes
  rw [step_eq]
  refine ((hc.decides_target hw).bind_faultsIff fun found hfound =>
    (hc.decides_bound hw hfound).bind_faultsIff fun t ht =>
    decides_sqrtPriceAt.bind_faultsIff
      (G := fun price => SwapStep.Overflows w.sqrtPrice (nearer c.direction price c.limit)
        w.liquidity w.remaining c.tradeRate c.mode c.direction) fun price hprice => ?_).congr ?_
  · obtain ⟨⟨hlow, hhigh⟩, rfl⟩ := sqrtPriceAt_eq_ok.1 hprice
    have hheads : Heads c w found t := ⟨hfound, ht, hlow, hhigh⟩
    have hsmall : c.direction = .up → w.sqrtPrice < 2 ^ 96 := by
      intro hup
      have htoward := hw.toward
      rw [hup] at htoward
      have hlimit := hsized.high hup
      simp only [maxSqrtPrice] at hlimit
      exact Nat.lt_of_le_of_lt htoward (by omega)
    refine (SwapStep.faultsIff_compute hw.price.price_pos hsmall
      (nearer_pos hlow hhigh hsized.low) (hheads.leads_nearer hw.underway) (by omega) hw.remaining
      hsized.rate).bind_decides fun s _ => decides_settleStep.bind fun moved _ =>
        .ite (fun _ => ?_) fun _ => .ite (fun _ => ?_) fun _ => decides_pure _
    · -- at the bound, the place of the tick to cross is one of the array
      simp only [arriveAt]
      cases found with
      | none => exact (decides_pure _).bind fun _ _ => decides_pure _
      | some place =>
          obtain ⟨-, hlt, -⟩ := finds_of_target hc.surveys hw.ready hfound
          exact (decides_crossTick hlt).bind fun _ _ => decides_pure _
    · exact decides_tickAt.bind fun _ _ => decides_pure _
  · constructor
    · intro h
      obtain ⟨found, hfound, t, ht, price, hprice, h⟩ := h
      obtain ⟨⟨hlow, hhigh⟩, rfl⟩ := sqrtPriceAt_eq_ok.1 hprice
      exact ⟨found, t, ⟨hfound, ht, hlow, hhigh⟩, h⟩
    · intro h
      obtain ⟨found, t, hheads, h⟩ := h
      exact ⟨found, hheads.target_eq, t, hheads.bound_eq, _,
        sqrtPriceAt_eq_ok.2 ⟨⟨hheads.low, hheads.high⟩, rfl⟩, h⟩

end Step

/-! ### A swap -/

section Swapping

variable {m : Market} {r : SwapRequest} {time : Nat} {s : Supply} {c : Course} {cursor : Option Cursor}
  {w : Walk}

/-- A view shows no start that the market does not mark. -/
theorem marks_of_view (hpos : 0 < m.pool.spacing) {t : Int}
    (h : (m.pool.bitmapView (m.supplied s)).Marks t) : m.bitmap.Marks t := by
  cases hext : s.extension with
  | true => rwa [bitmapView_sighted hext] at h
  | false =>
      rw [bitmapView_blind hext] at h
      exact ((BitmapView.marks_without_extension hpos).1 h).1

theorem charted_of_course (hm : m.Orderly) (hconfigured : m.Configured)
    (hc : course m.config m.pool (m.supplied s) r = .ok c) : c.Charted m.arrays (m.pick s.starts) := by
  have hsurveys := surveys_of_course hm hc
  obtain ⟨edges, -, rfl⟩ := course_eq_ok hc
  refine ⟨hsurveys, hm.spacing_pos, hconfigured.spacing_le, fun t ht => ?_⟩
  obtain ⟨a, ha, hstart, -⟩ := (hm.marked t).1 (marks_of_view hm.spacing_pos ht)
  exact ⟨a, ha, hstart⟩

theorem sized_of_course (hm : m.Orderly) (hconfigured : m.Configured)
    (hlimit : checkLimit r m.pool.sqrtPrice = .ok ())
    (hc : course m.config m.pool (m.supplied s) r = .ok c) : c.Sized := by
  have hlow := lt_limit_of_course hm hlimit hc
  obtain ⟨-, -, -, hhigh⟩ := checkLimit_eq_ok hlimit
  obtain ⟨edges, -, rfl⟩ := course_eq_ok hc
  exact ⟨hlow, hhigh, hconfigured.accepted.tradeRate_lt⟩

/-- What a swap sets out with once its request is admitted. -/
structure SetsOut (m : Market) (r : SwapRequest) (time : Nat) (s : Supply) (c : Course)
    (cursor : Option Cursor) : Prop where
  amount : r.amount ≠ 0
  opened : m.pool.isOpen time = true
  limit_eq : checkLimit r m.pool.sqrtPrice = .ok ()
  course_eq : course m.config m.pool (m.supplied s) r = .ok c
  cursor_eq : firstCursor c (m.pick s.starts) m.pool.tick = .ok cursor

/-- A walk of the swap comes to a step that overflows. -/
def Meets (m : Market) (r : SwapRequest) (c : Course) (cursor : Option Cursor) : Prop :=
  ∃ w, Comes c (start m.pool r cursor) w ∧ isDone c w = false ∧ w.Overflows c

theorem faultsIff_walk_of_setsOut (hm : m.Orderly) (hconfigured : m.Configured)
    (hamount : r.amount < 2 ^ 64) (h : SetsOut m r time s c cursor) :
    FaultsIff (walk c stepLimit (start m.pool r cursor)) (Meets m r c cursor) := by
  have hcharted := charted_of_course hm hconfigured h.course_eq
  have hsized := sized_of_course hm hconfigured h.limit_eq h.course_eq
  have hstart := afoot_start hm h.limit_eq h.course_eq h.cursor_eq hamount
  refine faultsIff_walk (room_lt_stepLimit hm.price.min_le hm.price.le_max) fun w hcomes hgoes => ?_
  have hw := hcomes.keeps (step_afoot hcharted.surveys hsized.low) hstart
  exact faultsIff_step hcharted hsized hw hgoes

theorem decides_checkLimit {p : Nat} : Decides (checkLimit r p) := by
  simp only [checkLimit]
  cases r.direction with
  | down => exact decides_require
  | up => exact decides_require

theorem decides_settle : Decides (settle r w) := by
  simp only [settle]
  refine decides_subOrRefuse.bind fun settled _ => ?_
  cases r.mode with
  | exactIn => exact decides_require.bind fun _ _ => decides_require.bind fun _ _ => decides_pure _
  | exactOut => exact decides_require.bind fun _ _ => decides_require.bind fun _ _ => decides_pure _

theorem decides_course (hconfigured : m.Configured) :
    Decides (course m.config m.pool (m.supplied s) r) := by
  simp only [course]
  exact (BitmapView.decides_visibleTicks hconfigured.spacing_le).bind fun _ _ => decides_pure _

/-- **When a quote faults.** -/
theorem faultsIff_quote (hm : m.Orderly) (hconfigured : m.Configured) (hamount : r.amount < 2 ^ 64) :
    FaultsIff (quote m.config ⟨m.pool, m.pick s.starts⟩ (m.supplied s) r time)
      (∃ c cursor, SetsOut m r time s c cursor ∧ Meets m r c cursor) := by
  simp only [quote]
  refine (decides_require.bind_faultsIff fun _ hne => decides_require.bind_faultsIff fun _ hopened =>
    decides_checkLimit.bind_faultsIff fun _ hlimit =>
    (decides_course hconfigured).bind_faultsIff fun c hc =>
    ((charted_of_course hm hconfigured hc).decides_firstCursor hm.price.min_le
      hm.price.le_max).bind_faultsIff
      (G := fun cursor => SetsOut m r time s c cursor ∧ Meets m r c cursor)
      fun cursor hcursor => ?_).congr ?_
  · have hsetsOut : SetsOut m r time s c cursor :=
      ⟨require_eq_ok.1 hne, require_eq_ok.1 hopened, hlimit, hc, hcursor⟩
    refine ((faultsIff_walk_of_setsOut hm hconfigured hamount hsetsOut).bind_decides fun w _ =>
      decides_settle.bind fun _ _ => decides_pure _).congr ?_
    exact ⟨fun h => ⟨hsetsOut, h⟩, And.right⟩
  · constructor
    · intro h
      obtain ⟨_, -, _, -, _, -, c, -, cursor, -, h⟩ := h
      exact ⟨c, cursor, h⟩
    · intro h
      obtain ⟨c, cursor, hsetsOut, h⟩ := h
      exact ⟨(), require_eq_ok.2 hsetsOut.amount, (), require_eq_ok.2 hsetsOut.opened, (),
        hsetsOut.limit_eq, c, hsetsOut.course_eq, cursor, hsetsOut.cursor_eq, hsetsOut, h⟩

theorem decides_onPool {α : Type} {u : Update Pool α} {b : SwapBook} (h : Update.Decides u b.pool) :
    Update.Decides (onPool u) b := by
  intro e t ht
  simp only [onPool] at ht
  cases hu : u b.pool with
  | ok a p =>
      rw [hu] at ht
      cases ht
  | error e' p =>
      rw [hu] at ht
      obtain ⟨rfl, -⟩ := EStateM.Result.error.inj ht
      exact h _ _ hu

/-- Writing a finished walk ends with checked additions. -/
theorem decides_commit {d : Direction} {result : SwapResult} {b : SwapBook} :
    Update.Decides (commit d w result) b := by
  have hadd : ∀ {bits n : Nat} {refusal : Refusal} {p : Pool},
      Update.Decides (liftM (narrow bits n refusal) : Update Pool Nat) p :=
    Update.decides_lift decides_narrow
  have hfees : ∀ p, Update.Decides (Pool.accrueFees d result.protocolFee result.fundFee) p :=
    fun p => (Update.decides_get).bind fun _ _ _ => hadd.bind fun _ _ _ =>
      (Update.decides_modify _).bind fun _ _ _ => (Update.decides_get).bind fun _ _ _ =>
      hadd.bind fun _ _ _ => Update.decides_modify _
  have hvolume : ∀ p, Update.Decides (Pool.recordVolume d result.amountIn result.amountOut) p :=
    fun p => (Update.decides_get).bind fun _ _ _ => hadd.bind fun _ _ _ =>
      (Update.decides_modify _).bind fun _ _ _ => (Update.decides_get).bind fun _ _ _ =>
      hadd.bind fun _ _ _ => Update.decides_modify _
  exact (Update.decides_modify _).bind fun _ _ _ => (decides_onPool (hfees _)).bind fun _ _ _ =>
    decides_onPool (hvolume _)

end Swapping

end Swap

namespace Market

variable {m : Market} {r : SwapRequest} {time : Nat} {s : Supply}

/-- A swap of the market comes to a step that overflows. -/
def Overflows (m : Market) (r : SwapRequest) (time : Nat) (s : Supply) : Prop :=
  ∃ c cursor, Swap.SetsOut m r time s c cursor ∧ Swap.Meets m r c cursor

/-- **When a swap of an orderly market faults.** -/
theorem Orderly.faultsIff_swap (hm : m.Orderly) (hconfigured : m.Configured)
    (hamount : r.amount < 2 ^ 64) :
    Update.FaultsIff (Clmm.swap m.config (m.supplied s) r time) ⟨m.pool, m.pick s.starts⟩
      (m.Overflows r time s) := by
  simp only [Clmm.swap]
  exact .get_bind (.lift_bind (Swap.faultsIff_quote hm hconfigured hamount) fun _ _ =>
    Swap.decides_commit.bind fun _ _ _ => Update.decides_pure _)

/-- At every tick, the liquidity in range times the highest price of the tick's interval is less than
`2 ^ 192`. -/
def Moderate (m : Market) : Prop :=
  ∀ t, minTick ≤ t → t < maxTick → liquidityAt m.positions t * priceAt (t + 1) < 2 ^ 192

/-- Every price has 96 bits, so it is enough that all liquidity together has as many. -/
theorem moderate_of_sum (h : (m.positions.map (·.liquidity)).sum < 2 ^ 96) : m.Moderate := by
  intro t hmin hmax
  have hliquidity := Nat.lt_of_le_of_lt (liquidityAt_le_sum m.positions t) h
  have hprice : priceAt (t + 1) < 2 ^ 96 :=
    Nat.lt_of_le_of_lt (priceAt_le_maxSqrtPrice (by omega) (by omega)) (by decide)
  calc liquidityAt m.positions t * priceAt (t + 1)
      ≤ liquidityAt m.positions t * 2 ^ 96 := Nat.mul_le_mul_left _ hprice.le
    _ < 2 ^ 96 * 2 ^ 96 := Nat.mul_lt_mul_of_pos_right hliquidity (by positivity)
    _ = 2 ^ 192 := (pow_add 2 96 96).symm

/-- The prices on the way of a step have a highest one, and that is worth little. -/
theorem Moderate.exists_price (hmoderate : m.Moderate) {c : Swap.Course} {supplied : List TickArray}
    {w : Swap.Walk} (hs : Swap.Setting m c supplied) (hw : Swap.Walking m c supplied w)
    {found : Option (Swap.Cursor × Nat)} {t : Int} (hheads : Swap.Heads c w found t) :
    ∃ p, w.sqrtPrice ≤ p ∧ Swap.nearer c.direction (priceAt t) c.limit ≤ p ∧
      w.liquidity * p < 2 ^ 192 := by
  have hleads := hheads.leads_nearer hw.afoot.underway
  have hnear := (Swap.nearer_leads (d := c.direction) (a := priceAt t) (b := c.limit)).1
  have hahead := hheads.ahead
  have hsame := liquidityAt_eq_of_same fun u hu => hheads.same_before hs hw hu
  obtain ⟨hmin, hmax, -, hnext⟩ := hw.price
  cases hd : c.direction with
  | down =>
      -- downward it is the price of the walk, in the interval of its tick
      rw [hd] at hleads
      refine ⟨w.sqrtPrice, Nat.le_refl _, hleads, ?_⟩
      rw [hw.liquidity]
      rcases Int.lt_or_eq_of_le hmax with hlt | heq
      · exact Nat.lt_of_le_of_lt (Nat.mul_le_mul_left _ (hnext hlt)) (hmoderate _ hmin hlt)
      · rw [heq, hs.wellFormed.ranged.liquidityAt_maxTick, Nat.zero_mul]
        positivity
  | up =>
      -- upward it is that of the bound, up to which the liquidity is the same
      rw [hd] at hleads hnear hahead hsame
      refine ⟨priceAt t, hleads.trans hnear, hnear, ?_⟩
      have hlt : w.tick < t := hahead
      have hbound := hmoderate (t - 1) (by omega) (by have := hheads.high; omega)
      rw [Int.sub_add_cancel] at hbound
      rw [hw.liquidity, ← hsame]
      exact hbound

theorem Moderate.not_overflows (hmoderate : m.Moderate) {c : Swap.Course} {supplied : List TickArray}
    {w : Swap.Walk} (hs : Swap.Setting m c supplied) (hw : Swap.Walking m c supplied w) :
    ¬ w.Overflows c := by
  intro h
  obtain ⟨found, t, hheads, hoverflows⟩ := h
  obtain ⟨p, hcurrent, htarget, hproduct⟩ := hmoderate.exists_price hs hw hheads
  exact SwapStep.not_overflows (Nat.lt_of_le_of_lt (Nat.mul_le_mul_left _ hcurrent) hproduct)
    (Nat.lt_of_le_of_lt (Nat.mul_le_mul_left _ htarget) hproduct) hoverflows

/-- **No swap of a moderate market overflows.** -/
theorem WellFormed.not_overflows (hm : m.WellFormed) (hmoderate : m.Moderate)
    (hamount : r.amount < 2 ^ 64) : ¬ m.Overflows r time s := by
  intro h
  obtain ⟨c, cursor, hsetsOut, w, hcomes, -, hoverflows⟩ := h
  have hs := Swap.setting_of_course hm hsetsOut.limit_eq hsetsOut.course_eq hsetsOut.cursor_eq
  have hstart := Swap.walking_start hm hsetsOut.limit_eq hsetsOut.course_eq hsetsOut.cursor_eq hamount
  have hkept := hcomes.keeps (I := fun w =>
    Swap.Walking m c (m.pick s.starts) w ∨ Swap.Stuck m c (m.pick s.starts) w) ?_ (Or.inl hstart)
  · rcases hkept with hw | hstuck
    · exact hmoderate.not_overflows hs hw hoverflows
    · obtain ⟨found, t, hheads, -⟩ := hoverflows
      exact hstuck.not_heads hheads
  · intro w w' hor hstep
    rcases hor with hw | hstuck
    · exact Swap.step_walking hs hw hstep
    · exact absurd hstep hstuck.step_ne_ok

/-- **When a swap faults.** Whatever the run that led to the market and whatever the request, the swap
faults exactly if one of its steps overflows; otherwise it succeeds or refuses. Nowhere does it, while at
every tick the liquidity in range times the price keeps below `2 ^ 192`. -/
theorem swap_faults_iff {m : Market} (h : Attained m) {r : SwapRequest} (hamount : r.amount < 2 ^ 64)
    (time : Nat) (s : Supply) :
    Update.FaultsIff (Clmm.swap m.config (m.supplied s) r time) ⟨m.pool, m.pick s.starts⟩
        (m.Overflows r time s) ∧
      ∀ total, Reached m total → m.Moderate → ¬ m.Overflows r time s :=
  ⟨h.orderly.faultsIff_swap h.configured hamount,
    fun _ hreached hmoderate => hreached.wellFormed.not_overflows hmoderate hamount⟩

/-- Near the highest price, much liquidity on a narrow range, paid for with less than `2 ^ 60` of
token 0. -/
def steepRun : List Operation :=
  [.setUpArray 442800 0,
   .openPosition 443520 443580 ⟨2 ^ 100, ⟨2 ^ 63, 2 ^ 63⟩, none⟩ false ⟨[442800], true⟩]

/-- Some of token 0, whatever it costs. -/
def steepRequest : SwapRequest := ⟨1000000, 2 ^ 64 - 1, 0, .exactOut, .up⟩

theorem steep_swap : ∃ m total b', sample 60 443520 steepRun = .ok (m, total) ∧
    Clmm.swap m.config (m.supplied ⟨[442800], true⟩) steepRequest 0 ⟨m.pool, m.pick [442800]⟩ =
      .error .fault b' := by
  obtain ⟨m, total, hsample, hrun⟩ := exists_of_sample (P := fun x =>
      faults (Clmm.swap x.1.config (x.1.supplied ⟨[442800], true⟩) steepRequest 0
        ⟨x.1.pool, x.1.pick [442800]⟩))
    (show (sample 60 443520 steepRun).toOption.any _ = true by decide +kernel)
  obtain ⟨b', hswap⟩ := exists_of_faults hrun
  exact ⟨m, total, b', hsample, hswap⟩

/-- The steep market overflows; a market with little liquidity does not. -/
theorem swap_faults_iff_steep :
    (∃ m total, sample 60 443520 steepRun = .ok (m, total) ∧
      m.Overflows steepRequest 0 ⟨[442800], true⟩) ∧
    ∃ m total, sample 10 5 openings = .ok (m, total) ∧ m.Moderate ∧
      ∀ time s, ¬ m.Overflows steepRequest time s := by
  constructor
  · obtain ⟨m, total, b', hsample, hswap⟩ := steep_swap
    refine ⟨m, total, hsample, ?_⟩
    by_contra hnot
    obtain ⟨r, hr⟩ := (swap_faults_iff (reached_of_sample hsample).attained (by decide) 0
      ⟨[442800], true⟩).1.decides hnot _ _ hswap
    cases hr
  · obtain ⟨m, total, hsample, hsum⟩ := exists_of_sample
      (P := fun x => decide ((x.1.positions.map (·.liquidity)).sum < 2 ^ 96))
      (show (sample 10 5 openings).toOption.any _ = true by decide +kernel)
    have hreached := reached_of_sample hsample
    have hmoderate := moderate_of_sum (of_decide_eq_true hsum)
    exact ⟨m, total, hsample, hmoderate, fun time s =>
      (swap_faults_iff hreached.attained (by decide) time s).2 total hreached hmoderate⟩

/-- Not every swap succeeds or refuses. -/
theorem not_every_swap_decides : ¬ ∀ m : Market, Attained m →
    ∀ (r : SwapRequest) (time : Nat) (s : Supply), r.amount < 2 ^ 64 →
      Update.Decides (Clmm.swap m.config (m.supplied s) r time) ⟨m.pool, m.pick s.starts⟩ := by
  intro hall
  obtain ⟨m, total, b', hsample, hswap⟩ := steep_swap
  obtain ⟨r, hr⟩ := hall m (reached_of_sample hsample).attained steepRequest 0 ⟨[442800], true⟩
    (by decide) _ _ hswap
  cases hr

end Market

end Clmm
