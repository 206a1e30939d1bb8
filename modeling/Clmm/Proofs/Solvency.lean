import Clmm.Proofs.PositionBalance
import Clmm.Proofs.Reachable
import Clmm.Proofs.SwapBalance
import Mathlib.Algebra.BigOperators.Ring.Finset

/-!
# Clmm.Proofs.Solvency

**A pool can always pay what it owes** (`solvency`). For each token, all that was ever paid in covers all
that was ever paid out, the fees accrued to protocol and fund, and for every position what its liquidity
is worth, what is owed to it and what it has not settled yet, each rounded down. What liquidity is worth,
rounded down, is what its removal pays (`Position.worthDown_eq`).

The invariant of the runs is the same with exact claims (`Backed`). Deposits, withdrawals and swaps keep
it since they round in favour of the pool; taking fees moves them from accrued to paid
(`Backed.withShares`).
-/

namespace Clmm

open TickTable

/-! ### Claims, rounded down -/

/-- Token 0 between two prices, rounded down, whatever its width. -/
def floor0 (a b liquidity : Nat) : Nat :=
  liquidity * 2 ^ 64 * (max a b - min a b) / max a b / min a b

/-- Token 1 between two prices, rounded down, whatever its width. -/
def floor1 (a b liquidity : Nat) : Nat := liquidity * (max a b - min a b) / 2 ^ 64

theorem floor0_le {a b liquidity : Nat} (ha : 0 < a) (hab : a ≤ b) :
    (floor0 a b liquidity : ℚ) ≤ liquidity * (holding .zero a - holding .zero b) := by
  have hb : 0 < b := Nat.lt_of_lt_of_le ha hab
  simp only [floor0]
  rw [Nat.max_eq_right hab, Nat.min_eq_left hab, Nat.div_div_eq_div_mul, Nat.mul_comm b a,
    holding_zero_sub ha hab]
  exact (le_cast_div_iff (Nat.mul_pos ha hb)).1 (Nat.le_refl _)

theorem floor1_le {a b liquidity : Nat} (hab : a ≤ b) :
    (floor1 a b liquidity : ℚ) ≤ liquidity * (holding .one b - holding .one a) := by
  simp only [floor1]
  rw [Nat.max_eq_right hab, Nat.min_eq_left hab, holding_one_sub hab]
  exact (le_cast_div_iff (by positivity)).1 (Nat.le_refl _)

theorem tokens0_eq_floor0 {a b liquidity n : Nat} (h : tokens0 a b liquidity .down = .ok n) :
    n = floor0 a b liquidity :=
  (amount0_eq_ok (tokens0_eq_ok h)).2.symm

theorem tokens1_eq_floor1 {a b liquidity n : Nat} (h : tokens1 a b liquidity .down = .ok n) :
    n = floor1 a b liquidity :=
  (mulDiv_eq_ok (tokens1_eq_ok h)).2.symm

namespace Position

/-- What the liquidity of a position is worth, rounded down: all token 0 below the range, all token 1
above it, some of each inside. -/
def worthDown (p : Position) (sqrtPrice : Nat) (tick : Int) : Pair Nat :=
  if tick < p.lower then ⟨floor0 (priceAt p.lower) (priceAt p.upper) p.liquidity, 0⟩
  else if tick < p.upper then
    ⟨floor0 sqrtPrice (priceAt p.upper) p.liquidity, floor1 (priceAt p.lower) sqrtPrice p.liquidity⟩
  else ⟨0, floor1 (priceAt p.lower) (priceAt p.upper) p.liquidity⟩

variable {p : Position} {price : Nat} {tick : Int}

theorem worthDown_of_empty (h : p.liquidity = 0) : p.worthDown price tick = ⟨0, 0⟩ := by
  have hzero : ∀ a b, floor0 a b 0 = 0 := fun a b => by simp [floor0]
  have hone : ∀ a b, floor1 a b 0 = 0 := fun a b => by simp [floor1]
  simp only [worthDown]
  rw [h]
  simp only [hzero, hone, ite_self]

/-- **Where the amounts of a position have a width that the pool can pay, they are its worth rounded
down.** -/
theorem worthDown_eq {amounts : Pair Nat}
    (h : amountsFor price tick p.lower p.upper p.liquidity .down = .ok amounts) :
    p.worthDown price tick = amounts := by
  by_cases hne : p.liquidity = 0
  · rw [worthDown_of_empty hne]
    rw [hne] at h
    exact (amountsFor_zero h).symm
  obtain ⟨-, -, hamounts⟩ := (amountsFor_of_ne_zero hne).1 h
  simp only [worthDown]
  by_cases hbelow : tick < p.lower
  · rw [if_pos hbelow] at hamounts ⊢
    rw [← tokens0_eq_floor0 hamounts.1, ← hamounts.2]
  rw [if_neg hbelow] at hamounts ⊢
  by_cases hinside : tick < p.upper
  · rw [if_pos hinside] at hamounts ⊢
    rw [← tokens0_eq_floor0 hamounts.1, ← tokens1_eq_floor1 hamounts.2]
  · rw [if_neg hinside] at hamounts ⊢
    rw [← hamounts.1, ← tokens1_eq_floor1 hamounts.2]

/-- The rounded worth is at most the exact one. -/
theorem worthDown_le (hlow : 0 < priceAt p.lower) (hrange : priceAt p.lower ≤ priceAt p.upper)
    (hprice : 0 < price) (hlower : SameSide tick price p.lower) (hupper : SameSide tick price p.upper)
    (x : Token) : ((p.worthDown price tick).get x : ℚ) ≤ p.liquidity * p.unitWorth price x := by
  have hclamp := clamp_eq hrange hlower hupper
  simp only [worthDown]
  by_cases hbelow : tick < p.lower
  · rw [if_pos hbelow] at hclamp ⊢
    cases x with
    | zero =>
        simp only [unitWorth]
        rw [hclamp]
        exact floor0_le hlow hrange
    | one =>
        rw [unitWorth_of_empty hclamp, mul_zero]
        exact le_of_eq Nat.cast_zero
  rw [if_neg hbelow] at hclamp ⊢
  by_cases hinside : tick < p.upper
  · rw [if_pos hinside] at hclamp ⊢
    simp only [unitWorth]
    rw [hclamp]
    cases x with
    | zero => exact floor0_le hprice (hupper.2 hinside)
    | one => exact floor1_le (hlower.1 (Int.not_lt.1 hbelow))
  · rw [if_neg hinside] at hclamp ⊢
    cases x with
    | zero =>
        rw [unitWorth_of_empty hclamp, mul_zero]
        exact le_of_eq Nat.cast_zero
    | one =>
        simp only [unitWorth]
        rw [hclamp]
        exact floor1_le hrange

end Position

namespace Market

variable {m m' : Market} {total paid : Payment} {x : Token}

/-! ### What is paid in covers all claims -/

/-- What was paid in covers what was paid out, the accrued fees and all claims. -/
def Backed (m : Market) (total : Payment) : Prop :=
  ∀ x, (total.paidOut.get x : ℚ) + m.pool.protocolFees.get x + m.pool.fundFees.get x + m.claims x ≤
    total.paidIn.get x

/-- A market stays backed when what an operation adds to payments out, fees and claims is at most what
it adds to payments in. -/
theorem Backed.add (hb : m.Backed total) (h : ∀ x, (paid.paidOut.get x : ℚ) +
    m'.pool.protocolFees.get x + m'.pool.fundFees.get x + m'.claims x ≤
      m.pool.protocolFees.get x + m.pool.fundFees.get x + m.claims x + paid.paidIn.get x) :
    m'.Backed (total.add paid) := by
  intro x
  have hold := hb x
  have hnew := h x
  rw [Payment.paidOut_add, Payment.paidIn_add]
  push_cast
  linarith

theorem claims_congr (hpool : m'.pool = m.pool) (hpositions : m'.positions = m.positions)
    (hlookup : lookup m'.arrays = lookup m.arrays) (x : Token) : m'.claims x = m.claims x := by
  have hscene : m'.scene = m.scene := by
    simp only [scene]
    simp only [hpool, hlookup]
  simp only [claims]
  rw [hscene, hpositions]

theorem backed_create {config : FeeConfig} {key : Key} {binding : Pool.Binding}
    {bump sqrtPrice openTime : Nat} (h : create key config binding bump sqrtPrice openTime = .ok m) :
    m.Backed .none := by
  obtain ⟨_, -, rfl⟩ := create_eq_ok h
  intro x
  have hfees : (Pool.zeroed.protocolFees.get x : ℚ) = 0 ∧ (Pool.zeroed.fundFees.get x : ℚ) = 0 := by
    cases x with
    | zero => exact ⟨Nat.cast_zero, Nat.cast_zero⟩
    | one => exact ⟨Nat.cast_zero, Nat.cast_zero⟩
  rw [Payment.paidOut_none, Payment.paidIn_none]
  change (0 : Nat) + (Pool.zeroed.protocolFees.get x : ℚ) + Pool.zeroed.fundFees.get x + 0 ≤ (0 : Nat)
  rw [hfees.1, hfees.2]
  norm_num

theorem Backed.addArray (hm : m.WellFormed) (hb : m.Backed total) {start : Int} {bump : Nat}
    (hnew : start ∉ m.arrays.map (·.start)) (h : m.addArray start bump = .ok m') :
    m'.Backed (total.add .none) := by
  obtain ⟨a, ha, rfl⟩ := addArray_eq_ok h
  obtain ⟨-, rfl, -, -⟩ := aligned_fresh ha
  obtain ⟨-, hlookup⟩ := lookup_insertArray hm.laid ha hnew
  apply hb.add
  intro x
  have hclaims : ({ m with arrays := insertArray a m.arrays } : Market).claims x = m.claims x := by
    apply claims_congr
    · rfl
    · rfl
    · exact hlookup
  rw [hclaims, Payment.paidOut_none, Payment.paidIn_none]
  push_cast
  linarith

/-- A position without liquidity has no claims. -/
theorem claims_setUpPosition (m : Market) (lower upper : Int) (x : Token) :
    (m.setUpPosition lower upper).claims x = m.claims x := by
  have hnothing : ((m.freshPosition lower upper).liquidity : ℚ) *
      m.scene.share (m.freshPosition lower upper) x +
        ((m.freshPosition lower upper).owed.get x : ℚ) = 0 := by
    have howed : (m.freshPosition lower upper).owed.get x = 0 := Pair.get_both 0 x
    rw [howed, show (m.freshPosition lower upper).liquidity = 0 from rfl, Nat.cast_zero, zero_mul,
      add_zero]
  change ((m.positions ++ [m.freshPosition lower upper]).map fun p =>
    (p.liquidity : ℚ) * m.scene.share p x + (p.owed.get x : ℚ)).sum = _
  rw [List.map_append, List.sum_append, List.map_singleton, List.sum_singleton, hnothing, add_zero]
  rfl

theorem Backed.setUpPosition (hb : m.Backed total) (lower upper : Int) :
    (m.setUpPosition lower upper).Backed total := by
  intro x
  rw [claims_setUpPosition]
  exact hb x

/-! ### Deposits and withdrawals -/

/-- What a change of liquidity pays, against what the liquidity is worth. -/
theorem amounts_bounds {m₁ : Market} {p p' : Position} {delta : Int} {amounts : Pair Nat}
    {lowerMade lower upperMade upper : Tick} (hm : m.WellFormed)
    (hc : Changed m m₁ p p' delta amounts lowerMade lower upperMade upper) (x : Token) :
    (if 0 < delta then Rounding.up else .down).Bounds
      (delta.natAbs * p.unitWorth m.pool.sqrtPrice x) (amounts.get x) := by
  obtain ⟨hmin, hlt, hmax⟩ := hc.range
  exact amountsFor_bounds ⟨hmin, hlt, hmax, hm.price⟩ hc.amounts x

theorem Backed.increase (hm : m.WellFormed) (hb : m.Backed total) {i n : Nat} {d : Deposit}
    {derived : Bool} {s : Supply} {change : LiquidityChange}
    (h : m.increase i d derived s = .ok (m', n, change)) :
    m'.Backed (total.add ⟨change.amounts, Pair.both 0⟩) := by
  obtain ⟨p, p', m₁, _, _, _, _, hi, hpos, hc, rfl⟩ := increase_eq_ok hm.orderly h
  apply hb.add
  intro x
  have hclaims := hc.claims_le hm hi x
  have hamounts := amounts_bounds hm hc x
  rw [if_pos (Int.natCast_pos.2 hpos), Int.natAbs_natCast] at hamounts
  change (n : ℚ) * p.unitWorth m.pool.sqrtPrice x ≤ change.amounts.get x at hamounts
  have hfees : m₁.pool.protocolFees = m.pool.protocolFees ∧ m₁.pool.fundFees = m.pool.fundFees := by
    rw [hc.pool]
    exact ⟨rfl, rfl⟩
  change (((Pair.both 0 : Pair Nat).get x : Nat) : ℚ) + m₁.pool.protocolFees.get x +
    m₁.pool.fundFees.get x + _ ≤ _
  rw [hfees.1, hfees.2, Pair.get_both]
  push_cast at hclaims ⊢
  linarith

/-- Paying out what is owed to a position takes it from its claims. -/
theorem claims_payOwed (m₁ : Market) {i : Nat} (p' : Position) (hi : i < m.positions.length)
    (x : Token) :
    ({ m₁ with positions := m.positions.set i { p' with owed := ⟨0, 0⟩ } } : Market).claims x +
        p'.owed.get x =
      ({ m₁ with positions := m.positions.set i p' } : Market).claims x := by
  have hat : (m.positions.set i p')[i]? = some p' := List.getElem?_set_self hi
  -- the position is put back twice: as changed, and then with nothing owed
  have hset : (m.positions.set i p').set i { p' with owed := ⟨0, 0⟩ } =
      m.positions.set i { p' with owed := ⟨0, 0⟩ } := List.set_set _
  have hsum := sum_map_set hat { p' with owed := ⟨0, 0⟩ }
    fun r => (r.liquidity : ℚ) * m₁.scene.share r x + (r.owed.get x : ℚ)
  have hshare : m₁.scene.share { p' with owed := ⟨0, 0⟩ } x = m₁.scene.share p' x := rfl
  have hzero : (((⟨0, 0⟩ : Pair Nat).get x : Nat) : ℚ) = 0 := by
    cases x with
    | zero => exact Nat.cast_zero
    | one => exact Nat.cast_zero
  rw [hset] at hsum
  dsimp only at hsum
  rw [hshare, hzero] at hsum
  change ((m.positions.set i { p' with owed := ⟨0, 0⟩ }).map fun r =>
      (r.liquidity : ℚ) * m₁.scene.share r x + (r.owed.get x : ℚ)).sum + _ =
    ((m.positions.set i p').map fun r =>
      (r.liquidity : ℚ) * m₁.scene.share r x + (r.owed.get x : ℚ)).sum
  linarith

theorem Backed.decrease (hm : m.WellFormed) (hb : m.Backed total) {i liquidity : Nat}
    {minima : Pair Nat} {s : Supply} {change : LiquidityChange}
    (h : m.decrease i liquidity minima s = .ok (m', change)) :
    m'.Backed (total.add (decreasePayment change)) := by
  obtain ⟨p, p', m₁, _, _, _, _, hi, hc, hfees, rfl⟩ := decrease_eq_ok hm.orderly h
  apply hb.add
  intro x
  have hclaims := hc.claims_le hm hi x
  have howed := claims_payOwed m₁ p' (List.getElem?_eq_some_iff.1 hi).1 x
  have hamounts := amounts_bounds hm hc x
  rw [if_neg (by omega), Int.natAbs_neg, Int.natAbs_natCast] at hamounts
  change (change.amounts.get x : ℚ) ≤ liquidity * p.unitWorth m.pool.sqrtPrice x at hamounts
  have hpool : m₁.pool.protocolFees = m.pool.protocolFees ∧ m₁.pool.fundFees = m.pool.fundFees := by
    rw [hc.pool]
    exact ⟨rfl, rfl⟩
  have hpaid : ((decreasePayment change).paidOut.get x : ℚ) =
      change.amounts.get x + p'.owed.get x := by
    simp only [decreasePayment]
    rw [Pair.get_ofFn, hfees]
    exact Nat.cast_add _ _
  have hnone : ((decreasePayment change).paidIn.get x : ℚ) = 0 := by
    simp only [decreasePayment]
    rw [Pair.get_both, Nat.cast_zero]
  change _ + (m₁.pool.protocolFees.get x : ℚ) + m₁.pool.fundFees.get x + _ ≤ _
  rw [hpool.1, hpool.2, hpaid, hnone]
  push_cast at hclaims
  linarith

/-! ### Swaps -/

/-- After a swap that overlooks nothing, claims are read off the end of its walk. -/
theorem scene_swap {s : Supply} {r : SwapRequest} {b' : SwapBook} {result : SwapResult}
    {c : Swap.Course} {cursor : Option Swap.Cursor} {w : Swap.Walk} {oracle : Oracle}
    (hm : m.WellFormed)
    (h : Swap.Swapped m.config (m.supplied s) r ⟨m.pool, m.pick s.starts⟩ b' result c cursor w)
    (hw : Swap.Walking m c (m.pick s.starts) w) :
    ({ m with pool := b'.pool, arrays := putBack m.arrays b'.arrays, oracle } : Market).scene =
      w.scene m c := by
  obtain ⟨-, hlookup⟩ := h.written hm.orderly hw.fits
  obtain ⟨edges, -, hc⟩ := Swap.course_eq_ok h.course_eq
  have hgrowth : c.growth.set c.direction.input w.growth =
      m.pool.growth.set r.direction.input w.growth := by rw [hc]
  have hpool := h.pool
  simp only [scene, Swap.Walk.scene]
  simp only [hlookup, hgrowth]
  rw [hpool]

theorem Backed.swap (hm : m.WellFormed) (hb : m.Backed total) {r : SwapRequest} {time : Nat}
    {s : Supply} {result : SwapResult} (hadmits : m.Admits (.swap r time s) m')
    (h : m.swap r time s = .ok (m', result)) :
    m'.Backed (total.add (swapPayment r.direction result)) := by
  obtain ⟨c, cursor, w, b', hswapped, -, hm'⟩ := swap_eq_ok h
  have hclear := hadmits.clear (congrArg (·.pool) hm') hswapped
  have hw := hswapped.walking hm hadmits.1 hclear
  have hbalanced := hswapped.balanced hm hadmits.1 hclear
  obtain ⟨edges, -, hc⟩ := Swap.course_eq_ok hswapped.course_eq
  have hdirection : c.direction = r.direction := by rw [hc]
  have hsettles := Swap.settle_eq_ok hswapped.settle_eq
  obtain ⟨hpaidIn, hpaidOut⟩ := hsettles.paid (c := c) (by rw [hc])
  have hinput := hbalanced.input
  have houtput := hbalanced.output
  rw [hpaidIn, hdirection] at hinput
  rw [hpaidOut, hdirection] at houtput
  have hscene : m'.scene = w.scene m c := by
    rw [hm']
    exact scene_swap hm hswapped hw
  have hpositions : m'.positions = m.positions := by rw [hm']
  have hprotocol : m'.pool.protocolFees = m.pool.protocolFees.set r.direction.input
      (m.pool.protocolFees.get r.direction.input + w.protocolFee) := by
    rw [hm', ← hsettles.protocolFee]
    change b'.pool.protocolFees = _
    rw [hswapped.pool]
  have hfund : m'.pool.fundFees = m.pool.fundFees.set r.direction.input
      (m.pool.fundFees.get r.direction.input + w.fundFee) := by
    rw [hm', ← hsettles.fundFee]
    change b'.pool.fundFees = _
    rw [hswapped.pool]
  apply hb.add
  intro x
  rw [claims_eq, claims_eq, hscene, hpositions, hprotocol, hfund]
  -- the balance of the walk is the claim for both tokens
  rcases r.direction.eq_input_or_eq_output x with rfl | rfl
  · rw [swapPayment_paidIn_input, swapPayment_paidOut_input, Pair.get_set_same, Pair.get_set_same]
    push_cast
    linarith
  · rw [swapPayment_paidIn_output, swapPayment_paidOut_output, Direction.get_output_set_input,
      Direction.get_output_set_input]
    push_cast
    linarith

/-! ### Taking fees -/

/-- What is taken of accrued fees and what is left of them add up. -/
theorem payable_add_afterPaying (accrued requested vaults : Pair Nat) (x : Token) :
    (Pool.payable accrued requested vaults).get x +
      (Pool.afterPaying accrued (Pool.payable accrued requested vaults)).get x = accrued.get x := by
  have hle : (Pool.payable accrued requested vaults).get x ≤ accrued.get x := by
    simp only [Pool.payable]
    rw [Pair.get_ofFn]
    exact (Nat.min_le_left _ _).trans (Nat.min_le_right _ _)
  simp only [Pool.afterPaying]
  rw [Pair.get_ofFn]
  exact Nat.add_sub_of_le hle

/-- **A payment out of the accrued shares keeps a market backed**, if what is paid and what is left of both
shares add up to what there was. -/
theorem Backed.withShares (hb : m.Backed total) {protocolFees fundFees shares : Pair Nat}
    (hshares : ∀ x, shares.get x + (protocolFees.get x + fundFees.get x) =
      m.pool.protocolFees.get x + m.pool.fundFees.get x) :
    Backed { m with pool := { m.pool with protocolFees, fundFees } }
      (total.add ⟨Pair.both 0, shares⟩) := by
  apply hb.add
  intro x
  have hsplit : (shares.get x : ℚ) + (protocolFees.get x + fundFees.get x) =
      m.pool.protocolFees.get x + m.pool.fundFees.get x := by exact_mod_cast hshares x
  have hclaims : claims { m with pool := { m.pool with protocolFees, fundFees } } x = m.claims x := rfl
  rw [hclaims, Pair.get_both, Nat.cast_zero]
  linarith

theorem Backed.takeProtocolFees (hb : m.Backed total) (requested vaults : Pair Nat) :
    (m.takeProtocolFees requested vaults).1.Backed
      (total.add ⟨Pair.both 0, (m.takeProtocolFees requested vaults).2⟩) := by
  refine hb.withShares fun x => ?_
  rw [← Nat.add_assoc]
  exact congrArg (· + _) (payable_add_afterPaying m.pool.protocolFees requested vaults x)

theorem Backed.takeFundFees (hb : m.Backed total) (requested vaults : Pair Nat) :
    (m.takeFundFees requested vaults).1.Backed
      (total.add ⟨Pair.both 0, (m.takeFundFees requested vaults).2⟩) := by
  refine hb.withShares fun x => ?_
  rw [Nat.add_left_comm]
  exact congrArg (_ + ·) (payable_add_afterPaying m.pool.fundFees requested vaults x)

/-! ### Whole runs -/

/-- **Every operation keeps a market backed.** -/
theorem Backed.perform (hm : m.WellFormed) (hb : m.Backed total) (op : Operation)
    (hadmits : m.Admits op m') (h : m.perform op = .ok (m', paid)) :
    m'.Backed (total.add paid) := by
  cases performs_of_perform h with
  | setUpArray hadd => exact hb.addArray hm hadmits hadd
  | setUpPosition => exact hb.setUpPosition _ _
  | openPosition hincrease =>
      exact (hb.setUpPosition _ _).increase (hm.setUpPosition _ _) hincrease
  | increase hincrease => exact hb.increase hm hincrease
  | decrease hdecrease => exact hb.decrease hm hdecrease
  | swap hswap => exact hb.swap hm hadmits hswap
  | takeProtocolFees => exact hb.takeProtocolFees _ _
  | takeFundFees => exact hb.takeFundFees _ _

/-- **Every market reached is backed.** -/
theorem Reached.backed (h : Reached m total) : m.Backed total := by
  have hboth : m.WellFormed ∧ m.Backed total := by
    refine h.induct (I := fun m total => m.WellFormed ∧ m.Backed total) ?_ ?_
    · intro _ _ _ _ _ _ _ hspacing hcreate
      exact ⟨wellFormed_create hspacing hcreate, backed_create hcreate⟩
    · intro m m' total paid op hm hadmits hperform
      exact ⟨hm.1.perform op hadmits hperform, hm.2.perform hm.1 op hadmits hperform⟩
  exact hboth.2

/-- The fees that a position has not settled yet, rounded down. -/
def unsettledFees (m : Market) (p : Position) (x : Token) : Nat :=
  p.liquidity * ((Tick.growthInside (m.tickState p.lower) (m.tickState p.upper) m.pool.tick
    m.pool.growth).get x - p.growthLast.get x).toNat / 2 ^ 64

/-- What a position can claim, rounded down part by part: the worth of its liquidity, what is owed to it
and the fees it has not settled yet. -/
def claimDown (m : Market) (p : Position) (x : Token) : Nat :=
  (p.worthDown m.pool.sqrtPrice m.pool.tick).get x + p.owed.get x + m.unsettledFees p x

theorem unsettledFees_le (m : Market) (p : Position) (x : Token) :
    (m.unsettledFees p x : ℚ) ≤ p.liquidity * ((m.scene.unsettled p x).toNat / 2 ^ 64) := by
  have heq : m.unsettledFees p x = p.liquidity * (m.scene.unsettled p x).toNat / 2 ^ 64 := rfl
  rw [heq, ← mul_div_assoc]
  exact Nat.cast_div_le.trans_eq (by push_cast; rfl)

theorem worthDown_le_share (hm : m.WellFormed) {p : Position} (hp : p ∈ m.positions) (x : Token) :
    ((p.worthDown m.pool.sqrtPrice m.pool.tick).get x : ℚ) ≤
      p.liquidity * p.unitWorth m.pool.sqrtPrice x := by
  by_cases hne : p.liquidity = 0
  · rw [Position.worthDown_of_empty hne, hne, Nat.cast_zero, zero_mul]
    cases x with
    | zero => exact le_of_eq Nat.cast_zero
    | one => exact le_of_eq Nat.cast_zero
  · obtain ⟨hmin, hlt, hmax⟩ := hm.ranged p hp hne
    exact Position.worthDown_le (priceAt_pos hmin (hlt.le.trans hmax)) (priceAt_le hmin hlt.le hmax)
      hm.price.price_pos (hm.price.sameSide hmin (hlt.le.trans hmax))
      (hm.price.sameSide (hmin.trans hlt.le) hmax) x

/-- Rounding down leaves at most the exact claim. -/
theorem claimDown_le (hm : m.WellFormed) {p : Position} (hp : p ∈ m.positions) (x : Token) :
    (m.claimDown p x : ℚ) ≤ p.liquidity * m.scene.share p x + p.owed.get x := by
  have hworth := worthDown_le_share hm hp x
  have hfees := unsettledFees_le m p x
  have hshare : (p.liquidity : ℚ) * m.scene.share p x =
      p.liquidity * p.unitWorth m.pool.sqrtPrice x +
        p.liquidity * ((m.scene.unsettled p x).toNat / 2 ^ 64) := mul_add _ _ _
  simp only [claimDown]
  rw [hshare, Nat.cast_add, Nat.cast_add]
  linarith

/-- **Solvency.** Whatever deposits, withdrawals, swaps and fee payments led to the market: for each
token, all that was paid in covers all that was paid out, the fees accrued to protocol and fund, and
what every position can claim. -/
theorem solvency {m : Market} {total : Payment} (h : Reached m total) (x : Token) :
    total.paidOut.get x + m.pool.protocolFees.get x + m.pool.fundFees.get x +
      (m.positions.map (m.claimDown · x)).sum ≤ total.paidIn.get x := by
  -- the exact claims are covered, and rounding leaves less
  have hclaims : (((m.positions.map (m.claimDown · x)).sum : Nat) : ℚ) ≤ m.claims x := by
    rw [Nat.cast_list_sum, List.map_map]
    exact List.sum_le_sum fun p hp => claimDown_le h.wellFormed hp x
  have hbacked := h.backed x
  have hcast : ((total.paidOut.get x + m.pool.protocolFees.get x + m.pool.fundFees.get x +
      (m.positions.map (m.claimDown · x)).sum : Nat) : ℚ) ≤ total.paidIn.get x := by
    rw [Nat.cast_add, Nat.cast_add, Nat.cast_add]
    linarith
  exact_mod_cast hcast

/-- Deposits around tick 5, swaps down over tick 0 and back, then a payment of protocol fees and a
withdrawal. -/
def earnings : List Operation :=
  [.setUpArray 0 0, .setUpArray (-600) 0,
   .openPosition (-20) 20 ⟨1000000000, ⟨1000000, 1000000000⟩, none⟩ false ⟨[-600, 0], true⟩,
   .setUpPosition 0 30, .increase 1 ⟨500000000, ⟨1000000, 1000000⟩, none⟩ false ⟨[0], true⟩,
   .swap ⟨900000, 0, 0, .exactIn, .down⟩ 0 ⟨[0, -600], true⟩,
   .swap ⟨600000, 1000000, 0, .exactOut, .up⟩ 0 ⟨[-600, 0], true⟩,
   .takeProtocolFees ⟨150, 10⟩ ⟨1000, 1000⟩,
   .decrease 0 400000000 ⟨0, 0⟩ ⟨[-600, 0], true⟩]

theorem solvency_earnings : ∃ m total, sample 10 5 earnings = .ok (m, total) ∧
    total = ⟨⟨2273917, 1975715⟩, ⟨980975, 1319152⟩⟩ ∧ m.pool.protocolFees = ⟨119, 170⟩ ∧
    ∀ x, total.paidOut.get x + m.pool.protocolFees.get x + m.pool.fundFees.get x +
      (m.positions.map (m.claimDown · x)).sum ≤ total.paidIn.get x := by
  obtain ⟨m, total, hsample, hpaid⟩ := exists_of_sample (P := fun x =>
      decide (x.2 = ⟨⟨2273917, 1975715⟩, ⟨980975, 1319152⟩⟩ ∧ x.1.pool.protocolFees = ⟨119, 170⟩))
    (show (sample 10 5 earnings).toOption.any _ = true by decide +kernel)
  obtain ⟨htotal, hfees⟩ := of_decide_eq_true hpaid
  exact ⟨m, total, hsample, htotal, hfees, solvency (reached_of_sample hsample)⟩

end Market

end Clmm
