import Clmm.Proofs.LiquidityLedger
import Clmm.Proofs.SwapBalance
import Mathlib.Algebra.BigOperators.Ring.Finset
import Mathlib.Algebra.Order.BigOperators.Group.LocallyFinite
import Mathlib.Data.Int.Interval
import Mathlib.Data.Int.SuccPred
import Mathlib.Data.Int.ConditionallyCompleteOrder

/-!
# Clmm.Proofs.Curve

**A swap creates no value** (`swap_creates_no_value`). Between the prices of two neighbouring ticks the
liquidity is constant: it is the running sum of the nets of the ticks in use. This curve holds, between
any two prices, an exact amount of each token (`curveBetween`). However many ticks a swap crosses and
however often it rounds, it pays out at most what the curve holds of the output token between the price
at which it began and the one at which it ended, and it takes in, without the fee, at least what the curve
holds of the input token.

The curve is the sum of the positions. The part of each position telescopes over the ticks of its range
(`sum_tickClamp`), so a walk has to be compared only with what the positions are worth (`Priced`), step by
step, where the liquidity does not change.
-/

namespace Clmm

open TickTable

/-! ### The curve -/

/-- The price, moved into the interval from the price of a tick to that of the next. -/
def tickClamp (t : Int) (price : Nat) : Nat := max (priceAt t) (min price (priceAt (t + 1)))

/-- What the liquidity curve of the arrays holds of a token between two prices. On the interval of each
tick the liquidity is the running sum of nets. -/
noncomputable def curveBetween (arrays : List TickArray) (x : Token) (a b : Nat) : ℚ :=
  ∑ t ∈ Finset.Ico minTick maxTick,
    (netUpTo arrays t : ℚ) * |holding x (tickClamp t b) - holding x (tickClamp t a)|

section Sums

variable {l u : Int} {a b price : Nat} {x : Token} {d : Direction}

/-- Over neighbouring ticks, the parts of the way to a price join. -/
theorem sum_tickClamp (hmin : minTick ≤ l) (hlu : l ≤ u) (hmax : u ≤ maxTick) (price : Nat)
    (x : Token) :
    ∑ t ∈ Finset.Ico l u, (holding x (tickClamp t price) - holding x (priceAt t)) =
      holding x (max (priceAt l) (min price (priceAt u))) - holding x (priceAt l) := by
  induction u, hlu using Int.leInduction with
  | base =>
      rw [Finset.Ico_self, Finset.sum_empty, Nat.max_eq_left (Nat.min_le_right _ _), sub_self]
  | succ u hlu ih =>
      have hstart := priceAt_le hmin hlu (by omega)
      have hnext := priceAt_le (hmin.trans hlu) (by omega) hmax
      rw [← Finset.sum_Ico_add_eq_sum_Ico_add_one hlu, ih (by omega)]
      simp only [tickClamp]
      rcases Nat.le_total price (priceAt u) with hbelow | habove
      · -- the price was passed before this tick
        rw [Nat.min_eq_left hbelow, Nat.min_eq_left (hbelow.trans hnext), Nat.max_eq_left hbelow,
          sub_self, add_zero]
      · have hin := Nat.le_min.2 ⟨habove, hnext⟩
        rw [Nat.min_eq_right habove, Nat.max_eq_right hstart, Nat.max_eq_right hin,
          Nat.max_eq_right (hstart.trans hin)]
        ring

/-- What a unit of a position's liquidity gains is joined from the ticks of its range. -/
theorem sum_tickClamp_sub {p : Position} (hmin : minTick ≤ p.lower) (hlt : p.lower < p.upper)
    (hmax : p.upper ≤ maxTick) (a b : Nat) (x : Token) :
    ∑ t ∈ Finset.Ico p.lower p.upper, (holding x (tickClamp t b) - holding x (tickClamp t a)) =
      p.unitWorth b x - p.unitWorth a x := by
  have hb := sum_tickClamp hmin hlt.le hmax b x
  have ha := sum_tickClamp hmin hlt.le hmax a x
  rw [Finset.sum_sub_distrib] at ha hb ⊢
  simp only [Position.unitWorth, Position.clamp]
  linarith

/-- A sum over all ticks, weighed by the liquidity in range, is one over the positions. -/
theorem sum_liquidityAt_mul {positions : List Position} (hr : Ranged positions) (g : Int → ℚ) :
    ∑ t ∈ Finset.Ico minTick maxTick, (liquidityAt positions t : ℚ) * g t =
      (positions.map fun p => p.liquidity * ∑ t ∈ Finset.Ico p.lower p.upper, g t).sum := by
  induction positions with
  | nil => simp [liquidityAt]
  | cons p rest ih =>
      have hrest := ih fun q hq => hr q (List.mem_cons_of_mem _ hq)
      have hhead : ∑ t ∈ Finset.Ico minTick maxTick,
          ((if p.Covers t then p.liquidity else 0 : Nat) : ℚ) * g t =
            p.liquidity * ∑ t ∈ Finset.Ico p.lower p.upper, g t := by
        by_cases hzero : p.liquidity = 0
        · simp [hzero]
        · obtain ⟨hmin, -, hmax⟩ := hr p List.mem_cons_self hzero
          have hsubset := Finset.Ico_subset_Ico hmin hmax
          rw [← Finset.sum_subset hsubset, Finset.mul_sum]
          · apply Finset.sum_congr rfl
            intro t ht
            have hcovers : p.Covers t := Finset.mem_Ico.1 ht
            rw [if_pos hcovers]
          · intro t _ ht
            have hnot : ¬ p.Covers t := fun hcovers => ht (Finset.mem_Ico.2 hcovers)
            rw [if_neg hnot, Nat.cast_zero, zero_mul]
      rw [List.map_cons, List.sum_cons, ← hrest, ← hhead, ← Finset.sum_add_distrib]
      apply Finset.sum_congr rfl
      intro t _
      simp only [liquidityAt]
      rw [List.map_cons, List.sum_cons, Nat.cast_add, add_mul]

/-- On the way of a swap, the interval of a tick does not turn the price round. -/
theorem leads_tickClamp (h : d.Leads a b) (t : Int) : d.Leads (tickClamp t a) (tickClamp t b) := by
  cases d with
  | down => exact max_le_max_left _ (min_le_min_right _ h)
  | up => exact max_le_max_left _ (min_le_min_right _ h)

theorem tickClamp_pos {t : Int} (hmin : minTick ≤ t) (hmax : t < maxTick) (price : Nat) :
    0 < tickClamp t price :=
  Nat.lt_of_lt_of_le (priceAt_pos hmin hmax.le) (Nat.le_max_left _ _)

end Sums

/-! ### What the positions are worth -/

/-- What the liquidity of all positions holds of a token at a price. -/
def worth (positions : List Position) (price : Nat) (x : Token) : ℚ :=
  (positions.map fun p => (p.liquidity : ℚ) * p.unitWorth price x).sum

section Worth

variable {positions : List Position} {tick : Int} {price price' a b : Nat} {d : Direction}

/-- A price that passes no tick in use moves the worth of the positions by what the move is to the
liquidity in range. -/
theorem worth_move (hr : Ranged positions) (hw : Within positions tick price)
    (hw' : Within positions tick price') (x : Token) :
    worth positions price' x = worth positions price x +
      liquidityAt positions tick * (holding x price' - holding x price) := by
  simp only [worth, liquidityAt]
  rw [Nat.cast_list_sum, List.map_map, ← List.sum_map_mul_right, ← List.sum_map_add]
  congr 1
  apply List.map_congr_left
  intro p hp
  by_cases hne : p.liquidity = 0
  · simp [hne]
  · rw [unitWorth_move hw hw' hr hp hne x]
    by_cases hcovers : p.Covers tick
    · simp [hcovers, mul_add]
    · simp [hcovers]

/-- The sum over the ticks, without regard to the direction, is the gain in worth. -/
theorem sum_liquidityAt_tickClamp (hr : Ranged positions) (a b : Nat) (x : Token) :
    ∑ t ∈ Finset.Ico minTick maxTick,
        (liquidityAt positions t : ℚ) * (holding x (tickClamp t b) - holding x (tickClamp t a)) =
      worth positions b x - worth positions a x := by
  rw [sum_liquidityAt_mul hr, eq_sub_iff_add_eq]
  simp only [worth]
  rw [← List.sum_map_add]
  congr 1
  apply List.map_congr_left
  intro p hp
  by_cases hne : p.liquidity = 0
  · simp [hne]
  · obtain ⟨hmin, hlt, hmax⟩ := hr p hp hne
    rw [sum_tickClamp_sub hmin hlt hmax]
    ring

variable {m : Market}

/-- The curve takes of the input token what the positions gain. -/
theorem curveBetween_input (hm : m.WellFormed) (h : d.Leads a b) :
    curveBetween m.arrays d.input a b =
      worth m.positions b d.input - worth m.positions a d.input := by
  rw [← sum_liquidityAt_tickClamp hm.ranged]
  apply Finset.sum_congr rfl
  intro t ht
  obtain ⟨hmin, hmax⟩ := Finset.mem_Ico.1 ht
  have hmono := holding_input_mono (tickClamp_pos hmin hmax b) (leads_tickClamp h t)
  rw [netUpTo_eq_liquidityAt hm.laid hm.ranged hm.gross hm.net, Int.cast_natCast,
    abs_of_nonneg (sub_nonneg.2 hmono)]

/-- The curve gives of the output token what the positions lose. -/
theorem curveBetween_output (hm : m.WellFormed) (h : d.Leads a b) :
    curveBetween m.arrays d.output a b =
      worth m.positions a d.output - worth m.positions b d.output := by
  rw [← sum_liquidityAt_tickClamp hm.ranged]
  apply Finset.sum_congr rfl
  intro t ht
  obtain ⟨hmin, hmax⟩ := Finset.mem_Ico.1 ht
  have hanti := Direction.holding_output_anti (tickClamp_pos hmin hmax a) (leads_tickClamp h t)
  rw [netUpTo_eq_liquidityAt hm.laid hm.ranged hm.gross hm.net, Int.cast_natCast,
    abs_of_nonpos (sub_nonpos.2 hanti), neg_sub]

end Worth

/-! ### Along a walk -/

namespace Swap

/-- So far, at least what the positions gained was paid in, without the fee, and at most what they lost
was paid out. -/
structure Priced (m : Market) (c : Course) (amount : Nat) (w : Walk) : Prop where
  input : worth m.positions w.sqrtPrice c.direction.input + w.fee ≤
    worth m.positions m.pool.sqrtPrice c.direction.input + w.paidIn c amount
  output : worth m.positions w.sqrtPrice c.direction.output + w.paidOut c amount ≤
    worth m.positions m.pool.sqrtPrice c.direction.output

section Invariant

variable {m : Market} {c : Course} {supplied : List TickArray} {w w' moved : Walk} {t : Int}
  {s : SwapStep} {split : FeeSplit} {growth : Growth} {found : Option (Cursor × Nat)} {amount : Nat}

/-- **The move of a step** is paid for at the prices of the curve. -/
theorem Leg.priced (hl : Leg c w found t s split growth moved) (hs : Setting m c supplied)
    (hw : Walking m c supplied w) (hp : Priced m c amount w) : Priced m c amount moved := by
  have hsound := hl.sound hs.low hw.afoot.underway
  have hranged := hs.wellFormed.ranged
  have hmove := worth_move hranged (hw.price.within hranged) (hl.within hs hw)
  have hin := hmove c.direction.input
  have hout := hmove c.direction.output
  rw [← hw.liquidity] at hin hout
  have hpays := hsound.pays
  have hgives := hsound.gives
  have hsqrt : moved.sqrtPrice = s.sqrtPrice := hl.settled.sqrtPrice_eq
  have hfee : (moved.fee : ℚ) = w.fee + s.fee := by
    rw [hl.settled.rest]
    exact Nat.cast_add _ _
  obtain ⟨hpaidIn, hpaidOut⟩ := hl.paid amount
  have hinput := hp.input
  have houtput := hp.output
  constructor
  · rw [hsqrt, hfee, hpaidIn]
    linarith
  · rw [hsqrt, hpaidOut]
    linarith

/-- Nothing is paid where only the tick of a walk moves. -/
theorem Priced.congr (hp : Priced m c amount moved) (hsqrt : w'.sqrtPrice = moved.sqrtPrice)
    (hfee : w'.fee = moved.fee) (hremaining : w'.remaining = moved.remaining)
    (hcalculated : w'.calculated = moved.calculated) : Priced m c amount w' := by
  have hinput := hp.input
  have houtput := hp.output
  simp only [Walk.paidIn] at hinput
  simp only [Walk.paidOut] at houtput
  constructor
  · simp only [Walk.paidIn]
    rwa [hsqrt, hfee, hremaining, hcalculated]
  · simp only [Walk.paidOut]
    rwa [hsqrt, hremaining, hcalculated]

theorem Priced.step (hp : Priced m c amount w) (hs : Setting m c supplied)
    (hw : Walking m c supplied w) (hl : Leg c w found t s split growth moved)
    (hmoves : Drifts m w moved w' ∨ ∃ k offset, Crosses m c supplied w t moved w' k offset) :
    Priced m c amount w' := by
  have hmoved := hl.priced hs hw hp
  rcases hmoves with hd | ⟨k, offset, hx⟩
  · refine hmoved.congr ?_ ?_ ?_ ?_
    · rw [hd.rest]
    · rw [hd.rest]
    · rw [hd.rest]
    · rw [hd.rest]
  · refine hmoved.congr ?_ ?_ ?_ ?_
    · rw [hx.rest]
    · rw [hx.rest]
    · rw [hx.rest]
    · rw [hx.rest]

end Invariant

variable {m : Market} {s : Supply} {r : SwapRequest} {b' : SwapBook} {result : SwapResult}
  {c : Course} {cursor : Option Cursor} {w : Walk}

/-- **The worth of a swap.** -/
theorem Swapped.priced (hm : m.WellFormed)
    (h : Swapped m.config (m.supplied s) r ⟨m.pool, m.pick s.starts⟩ b' result c cursor w)
    (hamount : r.amount < 2 ^ 64) (hclear : Clear m s w) :
    Priced m c r.amount w ∧ c.direction.Leads m.pool.sqrtPrice w.sqrtPrice := by
  have hstart : Priced m c r.amount (start m.pool r cursor) := by
    obtain ⟨hnoneIn, hnoneOut⟩ := paid_start m.pool r cursor c
    constructor
    · rw [hnoneIn]
      simp [start]
    · rw [hnoneOut]
      simp [start]
  have hends := walking_induct (h.setting hm)
    (I := fun w => Priced m c r.amount w ∧ c.direction.Leads m.pool.sqrtPrice w.sqrtPrice)
    (fun {w w' _ _ _ _ _ _} hw hI hl hmoves => by
      refine ⟨hI.1.step (h.setting hm) hw hl hmoves, hI.2.trans ?_⟩
      rw [hl.sqrtPrice_eq hmoves]
      exact (hl.sound (h.setting hm).low hw.afoot.underway).leads)
    (h.walking_start hm hamount) ⟨hstart, .refl _ _⟩ h.walk_eq
  exact (hends.resolve_right (h.not_stuck hm hclear)).2

end Swap

namespace Market

/-- **A swap creates no value.** Whatever led to the market: a swap to which nothing of the bitmap is hidden
pays out at most what the liquidity curve holds of the output token between the prices at which it begins
and ends, and takes in, without the fee, at least what the curve holds there of the input token. -/
theorem swap_creates_no_value {m : Market} {total : Payment} (h : Reached m total) {r : SwapRequest}
    {time : Nat} {s : Supply} {b' : SwapBook} {result : SwapResult} (hamount : r.amount < 2 ^ 64)
    (hsighted : m.Sighted s)
    (hswap : Clmm.swap m.config (m.supplied s) r time ⟨m.pool, m.pick s.starts⟩ = .ok result b') :
    (result.amountOut : ℚ) ≤
        curveBetween m.arrays r.direction.output m.pool.sqrtPrice b'.pool.sqrtPrice ∧
      curveBetween m.arrays r.direction.input m.pool.sqrtPrice b'.pool.sqrtPrice ≤
        (result.amountIn : ℚ) - result.fee := by
  have hm := h.wellFormed
  obtain ⟨c, cursor, w, hswapped⟩ := Swap.swap_eq_ok hswap
  obtain ⟨edges, -, hc⟩ := Swap.course_eq_ok hswapped.course_eq
  have hdirection : c.direction = r.direction := by rw [hc]
  have hprice : b'.pool.sqrtPrice = w.sqrtPrice := by rw [hswapped.pool]
  obtain ⟨hpriced, hleads⟩ := hswapped.priced hm hamount (Or.inl hsighted)
  have hsettles := Swap.settle_eq_ok hswapped.settle_eq
  obtain ⟨hpaidIn, hpaidOut⟩ := hsettles.paid (c := c) (by rw [hc])
  have hinput := hpriced.input
  have houtput := hpriced.output
  rw [hdirection] at hleads
  rw [hdirection, hpaidIn] at hinput
  rw [hdirection, hpaidOut] at houtput
  rw [hprice, curveBetween_input hm hleads, curveBetween_output hm hleads, hsettles.fee]
  constructor
  · linarith
  · linarith

theorem swap_creates_no_value_openings : ∃ m total result b',
    sample 10 5 openings = .ok (m, total) ∧
    Clmm.swap m.config (m.supplied ⟨[0, -600], true⟩) ⟨900, 0, 0, .exactIn, .down⟩ 0
      ⟨m.pool, m.pick [0, -600]⟩ = .ok result b' ∧
    result.amountIn = 900 ∧ result.amountOut = 896 ∧ result.fee = 3 ∧ result.crossed = 1 ∧
    (896 : ℚ) ≤ curveBetween m.arrays .one m.pool.sqrtPrice b'.pool.sqrtPrice ∧
    curveBetween m.arrays .zero m.pool.sqrtPrice b'.pool.sqrtPrice ≤ (900 : ℚ) - 3 := by
  obtain ⟨m, total, hsample, hrun⟩ := exists_of_sample (P := fun x =>
      succeedsWith (fun (result : SwapResult) (_ : SwapBook) => decide (result.amountIn = 900 ∧
          result.amountOut = 896 ∧ result.fee = 3 ∧ result.crossed = 1))
        (Clmm.swap x.1.config (x.1.supplied ⟨[0, -600], true⟩) ⟨900, 0, 0, .exactIn, .down⟩ 0
          ⟨x.1.pool, x.1.pick [0, -600]⟩))
    (show (sample 10 5 openings).toOption.any _ = true by decide +kernel)
  obtain ⟨result, b', hswap, hamounts⟩ := exists_of_succeedsWith hrun
  obtain ⟨hin, hout, hfee, hcrossed⟩ := of_decide_eq_true hamounts
  obtain ⟨hgiven, htaken⟩ := swap_creates_no_value (reached_of_sample hsample) (by decide)
    (Or.inl rfl) hswap
  rw [hout] at hgiven
  rw [hin, hfee] at htaken
  exact ⟨m, total, result, b', hsample, hswap, hin, hout, hfee, hcrossed, hgiven, htaken⟩

end Market

end Clmm
