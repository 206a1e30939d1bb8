import Clmm.Proofs.PositionChange
import Clmm.Proofs.SwapEffect

/-!
# Clmm.Proofs.Reachable

**Every market that a run leads to is well formed** (`Reached.wellFormed`): each operation keeps a
market well formed, and a fresh market is. What an operation does is read off once (`Performs`).

A run may also go on after a swap that overlooked a tick. The liquidity in range is then not that of the
positions any more, but the market stays orderly (`Attained.orderly`).
-/

namespace Clmm.Market

variable {m m' : Market} {total paid : Payment}

theorem Orderly.increase (hm : m.Orderly) {i n : Nat} {d : Deposit} {derived : Bool} {s : Supply}
    {change : LiquidityChange} (h : m.increase i d derived s = .ok (m', n, change)) : m'.Orderly := by
  obtain ⟨p, p', m₁, _, _, _, _, -, -, hc, rfl⟩ := increase_eq_ok hm h
  exact hc.orderly hm _

theorem Orderly.decrease (hm : m.Orderly) {i liquidity : Nat} {minima : Pair Nat} {s : Supply}
    {change : LiquidityChange} (h : m.decrease i liquidity minima s = .ok (m', change)) :
    m'.Orderly := by
  obtain ⟨p, p', m₁, _, _, _, _, -, hc, -, rfl⟩ := decrease_eq_ok hm h
  exact hc.orderly hm _

theorem WellFormed.increase (hm : m.WellFormed) {i n : Nat} {d : Deposit} {derived : Bool} {s : Supply}
    {change : LiquidityChange} (h : m.increase i d derived s = .ok (m', n, change)) :
    m'.WellFormed := by
  obtain ⟨p, p', m₁, _, _, _, _, hi, -, hc, rfl⟩ := increase_eq_ok hm.orderly h
  obtain ⟨hlower, hupper, hliquidity⟩ := hc.bounds
  exact hc.wellFormed hm hi hlower hupper hliquidity

theorem WellFormed.decrease (hm : m.WellFormed) {i liquidity : Nat} {minima : Pair Nat} {s : Supply}
    {change : LiquidityChange} (h : m.decrease i liquidity minima s = .ok (m', change)) :
    m'.WellFormed := by
  obtain ⟨p, p', m₁, _, _, _, _, hi, hc, -, rfl⟩ := decrease_eq_ok hm.orderly h
  obtain ⟨hlower, hupper, hliquidity⟩ := hc.bounds
  exact hc.wellFormed hm hi hlower hupper hliquidity

/-- What a market does in an operation that succeeds. Opening a position is setting it up and paying a
deposit into it. -/
inductive Performs (m : Market) : Operation → Market → Payment → Prop
  | setUpArray {start : Int} {bump : Nat} {m' : Market} (h : m.addArray start bump = .ok m') :
      Performs m (.setUpArray start bump) m' .none
  | setUpPosition {lower upper : Int} :
      Performs m (.setUpPosition lower upper) (m.setUpPosition lower upper) .none
  | openPosition {lower upper : Int} {d : Deposit} {derived : Bool} {s : Supply} {m' : Market} {n : Nat}
      {change : LiquidityChange}
      (h : (m.setUpPosition lower upper).increase m.positions.length d derived s =
        .ok (m', n, change)) :
      Performs m (.openPosition lower upper d derived s) m' ⟨change.amounts, Pair.both 0⟩
  | increase {i : Nat} {d : Deposit} {derived : Bool} {s : Supply} {m' : Market} {n : Nat}
      {change : LiquidityChange} (h : m.increase i d derived s = .ok (m', n, change)) :
      Performs m (.increase i d derived s) m' ⟨change.amounts, Pair.both 0⟩
  | decrease {i liquidity : Nat} {minima : Pair Nat} {s : Supply} {m' : Market}
      {change : LiquidityChange} (h : m.decrease i liquidity minima s = .ok (m', change)) :
      Performs m (.decrease i liquidity minima s) m' (decreasePayment change)
  | swap {r : SwapRequest} {time : Nat} {s : Supply} {m' : Market} {result : SwapResult}
      (h : m.swap r time s = .ok (m', result)) :
      Performs m (.swap r time s) m' (swapPayment r.direction result)
  | takeProtocolFees {requested vaults : Pair Nat} :
      Performs m (.takeProtocolFees requested vaults) (m.takeProtocolFees requested vaults).1
        ⟨Pair.both 0, (m.takeProtocolFees requested vaults).2⟩
  | takeFundFees {requested vaults : Pair Nat} :
      Performs m (.takeFundFees requested vaults) (m.takeFundFees requested vaults).1
        ⟨Pair.both 0, (m.takeFundFees requested vaults).2⟩

theorem performs_of_perform {op : Operation} (h : m.perform op = .ok (m', paid)) :
    m.Performs op m' paid := by
  cases op with
  | setUpArray start bump =>
      simp only [Market.perform, Outcome.bind_eq_ok] at h
      obtain ⟨m₁, hadd, h⟩ := h
      obtain ⟨rfl, rfl⟩ := Prod.mk.inj (Except.ok.inj h)
      exact .setUpArray hadd
  | setUpPosition lower upper =>
      obtain ⟨rfl, rfl⟩ := Prod.mk.inj (Except.ok.inj h)
      exact .setUpPosition
  | openPosition lower upper d derived s =>
      simp only [Market.perform, openPosition_eq, Outcome.bind_eq_ok] at h
      obtain ⟨⟨m₁, n, change⟩, hincrease, h⟩ := h
      obtain ⟨rfl, rfl⟩ := Prod.mk.inj (Except.ok.inj h)
      exact .openPosition hincrease
  | increase i d derived s =>
      simp only [Market.perform, Outcome.bind_eq_ok] at h
      obtain ⟨⟨m₁, n, change⟩, hincrease, h⟩ := h
      obtain ⟨rfl, rfl⟩ := Prod.mk.inj (Except.ok.inj h)
      exact .increase hincrease
  | decrease i liquidity minima s =>
      simp only [Market.perform, Outcome.bind_eq_ok] at h
      obtain ⟨⟨m₁, change⟩, hdecrease, h⟩ := h
      obtain ⟨rfl, rfl⟩ := Prod.mk.inj (Except.ok.inj h)
      exact .decrease hdecrease
  | swap r time s =>
      simp only [Market.perform, Outcome.bind_eq_ok] at h
      obtain ⟨⟨m₁, result⟩, hswap, h⟩ := h
      obtain ⟨rfl, rfl⟩ := Prod.mk.inj (Except.ok.inj h)
      exact .swap hswap
  | takeProtocolFees requested vaults =>
      obtain ⟨rfl, rfl⟩ := Prod.mk.inj (Except.ok.inj h)
      exact .takeProtocolFees
  | takeFundFees requested vaults =>
      obtain ⟨rfl, rfl⟩ := Prod.mk.inj (Except.ok.inj h)
      exact .takeFundFees

/-- **Every operation keeps a market well formed.** -/
theorem WellFormed.perform (hm : m.WellFormed) (op : Operation) (hadmits : m.Admits op m')
    (h : m.perform op = .ok (m', paid)) : m'.WellFormed := by
  cases performs_of_perform h with
  | setUpArray hadd => exact hm.addArray hadmits hadd
  | setUpPosition => exact hm.setUpPosition _ _
  | openPosition hincrease => exact (hm.setUpPosition _ _).increase hincrease
  | increase hincrease => exact hm.increase hincrease
  | decrease hdecrease => exact hm.decrease hdecrease
  | swap hswap => exact hm.swap hadmits hswap
  | takeProtocolFees => exact hm.withShares _ _
  | takeFundFees => exact hm.withShares _ _

/-- **Every market reached is well formed.** -/
theorem Reached.wellFormed (h : Reached m total) : m.WellFormed :=
  h.induct (I := fun m _ => m.WellFormed) wellFormed_create
    fun op hm hadmits hperform => hm.perform op hadmits hperform

/-! ### Runs with any swaps -/

/-- What is asked of every operation of a run: an array is set up only where there is none, and the
amount of a swap has 64 bits. -/
def Allows (m : Market) (op : Operation) : Prop :=
  match op with
  | .setUpArray start _ => start ∉ m.arrays.map (·.start)
  | .swap r _ _ => r.amount < 2 ^ 64
  | _ => True

/-- The markets that runs lead to, whatever their swaps overlook. -/
inductive Attained : Market → Prop
  | created {blank config : FeeConfig} {signer admin key : Key} {configBump index : Nat}
      {params : FeeConfig.Params} {binding : Pool.Binding} {bump sqrtPrice openTime : Nat}
      {m : Market} (hconfig : blank.setUp signer admin configBump index params = .ok config)
      (hcreate : create key config binding bump sqrtPrice openTime = .ok m) : Attained m
  | performed {m m' : Market} {paid : Payment} (op : Operation) (hattained : Attained m)
      (hallows : m.Allows op) (hperform : m.perform op = .ok (m', paid)) : Attained m'

theorem Admits.allows {op : Operation} (h : m.Admits op m') : m.Allows op := by
  cases op with
  | swap => exact h.1
  | _ => exact h

theorem Reached.attained (h : Reached m total) : Attained m := by
  induction h with
  | created hconfig hcreate => exact .created hconfig hcreate
  | performed op _ hadmits hperform ih => exact .performed op ih hadmits.allows hperform

theorem Orderly.perform (hm : m.Orderly) (op : Operation) (hallows : m.Allows op)
    (h : m.perform op = .ok (m', paid)) : m'.Orderly := by
  cases performs_of_perform h with
  | setUpArray hadd => exact hm.addArray hallows hadd
  | setUpPosition => exact hm.setUpPosition _ _
  | openPosition hincrease => exact (hm.setUpPosition _ _).increase hincrease
  | increase hincrease => exact hm.increase hincrease
  | decrease hdecrease => exact hm.decrease hdecrease
  | swap hswap => exact hm.swap hallows hswap
  | takeProtocolFees => exact hm.withShares _ _
  | takeFundFees => exact hm.withShares _ _

/-- **Every market that a run leads to is orderly**, whatever its swaps overlook. -/
theorem Attained.orderly (h : Attained m) : m.Orderly := by
  induction h with
  | created hconfig hcreate => exact (Reached.created hconfig hcreate).wellFormed.orderly
  | performed op _ hallows hperform ih => exact ih.perform op hallows hperform

end Clmm.Market
