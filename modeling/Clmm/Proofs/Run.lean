import Clmm.Proofs.ArrayIndex
import Clmm.Proofs.TickTable
import Mathlib.Tactic.Common

/-!
# Clmm.Proofs.Run

**The runs of a market.** An `Operation` is one thing that can happen to a market, with everything its
caller chooses; `perform` carries it out and says what was paid. A market is `Reached` if it was
created under an accepted fee config and successful operations, in any order and any number, led to
it; with it goes the `Payment` that all of them add up to.

Design points:

* The start of a tick array fixes its address, so an array is set up where none is yet.
* `performAll` carries a run out, so that runs can be tried (`sample`).
* A swap is `Sighted` if it is given the bitmap extension or the pool's own words reach over all
  ticks. A swap without sight may still be part of a run, unless it *overlooks* a tick: it ends at the
  far edge of the native span, on a tick in use whose array it could not see.
-/

namespace Clmm

/-- What was paid to the pool and by the pool. -/
structure Payment where
  paidIn : Pair Nat
  paidOut : Pair Nat
deriving DecidableEq, Repr

namespace Payment

/-- No payment. -/
def none : Payment := ⟨Pair.both 0, Pair.both 0⟩

/-- Both payments together. -/
def add (p q : Payment) : Payment :=
  ⟨Pair.ofFn fun x => p.paidIn.get x + q.paidIn.get x,
   Pair.ofFn fun x => p.paidOut.get x + q.paidOut.get x⟩

@[simp] theorem paidIn_none (x : Token) : none.paidIn.get x = 0 := Pair.get_both 0 x

@[simp] theorem paidOut_none (x : Token) : none.paidOut.get x = 0 := Pair.get_both 0 x

@[simp] theorem paidIn_add (p q : Payment) (x : Token) :
    (p.add q).paidIn.get x = p.paidIn.get x + q.paidIn.get x := Pair.get_ofFn _ x

@[simp] theorem paidOut_add (p q : Payment) (x : Token) :
    (p.add q).paidOut.get x = p.paidOut.get x + q.paidOut.get x := Pair.get_ofFn _ x

end Payment

/-- What may happen to a market, and what its caller chooses. -/
inductive Operation
  /-- Sets up the tick array at a start. -/
  | setUpArray (start : Int) (bump : Nat)
  /-- Sets up a position without liquidity. -/
  | setUpPosition (lower upper : Int)
  /-- Sets up a position and pays a deposit into it. -/
  | openPosition (lower upper : Int) (d : Deposit) (derived : Bool) (s : Supply)
  | increase (i : Nat) (d : Deposit) (derived : Bool) (s : Supply)
  | decrease (i liquidity : Nat) (minima : Pair Nat) (s : Supply)
  | swap (r : SwapRequest) (time : Nat) (s : Supply)
  | takeProtocolFees (requested vaults : Pair Nat)
  | takeFundFees (requested vaults : Pair Nat)

namespace Market

/-- A position of the market on a range, before anything was paid into it. -/
def freshPosition (m : Market) (lower upper : Int) : Position :=
  Position.zeroed.setUp 0 0 m.key lower upper

/-- Sets up a position on a range, without liquidity. -/
def setUpPosition (m : Market) (lower upper : Int) : Market :=
  { m with positions := m.positions ++ [m.freshPosition lower upper] }

/-- The payment of a swap. -/
def swapPayment (d : Direction) (result : SwapResult) : Payment :=
  ⟨(Pair.both 0).set d.input result.amountIn, (Pair.both 0).set d.output result.amountOut⟩

section SwapPayment

variable (d : Direction) (result : SwapResult)

@[simp] theorem swapPayment_paidIn_input :
    (swapPayment d result).paidIn.get d.input = result.amountIn := Pair.get_set_same _ _ _

@[simp] theorem swapPayment_paidIn_output : (swapPayment d result).paidIn.get d.output = 0 :=
  (Direction.get_output_set_input d _ _).trans (Pair.get_both 0 _)

@[simp] theorem swapPayment_paidOut_input : (swapPayment d result).paidOut.get d.input = 0 :=
  (Direction.get_input_set_output d _ _).trans (Pair.get_both 0 _)

@[simp] theorem swapPayment_paidOut_output :
    (swapPayment d result).paidOut.get d.output = result.amountOut := Pair.get_set_same _ _ _

end SwapPayment

/-- What a decrease pays out: the released amounts and the owed fees. -/
def decreasePayment (change : LiquidityChange) : Payment :=
  ⟨Pair.both 0, Pair.ofFn fun x => change.amounts.get x + change.fees.get x⟩

/-- Carries an operation out. -/
def perform (m : Market) : Operation → Outcome (Market × Payment)
  | .setUpArray start bump => do return (← m.addArray start bump, .none)
  | .setUpPosition lower upper => return (m.setUpPosition lower upper, .none)
  | .openPosition lower upper d derived s => do
    let (m', _, change) ← m.openPosition lower upper d derived s
    return (m', ⟨change.amounts, Pair.both 0⟩)
  | .increase i d derived s => do
    let (m', _, change) ← m.increase i d derived s
    return (m', ⟨change.amounts, Pair.both 0⟩)
  | .decrease i liquidity minima s => do
    let (m', change) ← m.decrease i liquidity minima s
    return (m', decreasePayment change)
  | .swap r time s => do
    let (m', result) ← m.swap r time s
    return (m', swapPayment r.direction result)
  | .takeProtocolFees requested vaults =>
    let (m', paid) := m.takeProtocolFees requested vaults
    return (m', ⟨Pair.both 0, paid⟩)
  | .takeFundFees requested vaults =>
    let (m', paid) := m.takeFundFees requested vaults
    return (m', ⟨Pair.both 0, paid⟩)

/-- The pool's own words of the bitmap reach over the whole tick range. -/
def SpansAllTicks (m : Market) : Prop :=
  Bitmap.nativeBegin m.pool.spacing ≤ minTick ∧ maxTick < Bitmap.nativeEnd m.pool.spacing

/-- Nothing of the bitmap is hidden from a swap. -/
def Sighted (m : Market) (s : Supply) : Prop := s.extension = true ∨ m.SpansAllTicks

/-- A swap from `m` to `m'` ended on a tick in use that it could not see: the one at which the native
span ends. -/
def Overlooks (m m' : Market) (s : Supply) : Prop :=
  s.extension = false ∧ m'.pool.tick = Bitmap.nativeEnd m.pool.spacing ∧
    (TickTable.lookup m.arrays m'.pool.tick).isInitialized = true

/-- What is asked of an operation that led from `m` to `m'`. -/
def Admits (m : Market) (op : Operation) (m' : Market) : Prop :=
  match op with
  | .setUpArray start _ => start ∉ m.arrays.map (·.start)
  | .swap r _ s => r.amount < 2 ^ 64 ∧ (m.Sighted s ∨ ¬ m.Overlooks m' s)
  | _ => True

/-- The markets that runs lead to, with all that was paid on the way. -/
inductive Reached : Market → Payment → Prop
  | created {blank config : FeeConfig} {signer admin key : Key} {configBump index : Nat}
      {params : FeeConfig.Params} {binding : Pool.Binding} {bump sqrtPrice openTime : Nat}
      {m : Market} (hconfig : blank.setUp signer admin configBump index params = .ok config)
      (hcreate : create key config binding bump sqrtPrice openTime = .ok m) :
      Reached m .none
  | performed {m m' : Market} {total paid : Payment} (op : Operation) (hreached : Reached m total)
      (hadmits : m.Admits op m') (hperform : m.perform op = .ok (m', paid)) :
      Reached m' (total.add paid)

/-- What holds of a fresh market and is kept by every operation holds of every market reached. -/
theorem Reached.induct {I : Market → Payment → Prop}
    (hcreate : ∀ {config : FeeConfig} {key : Key} {binding : Pool.Binding}
      {bump sqrtPrice openTime : Nat} {m : Market}, 0 < config.spacing →
      create key config binding bump sqrtPrice openTime = .ok m → I m .none)
    (hstep : ∀ {m m' : Market} {total paid : Payment} (op : Operation), I m total → m.Admits op m' →
      m.perform op = .ok (m', paid) → I m' (total.add paid))
    {m : Market} {total : Payment} (h : Reached m total) : I m total := by
  induction h with
  | created hconfig hm =>
      refine hcreate ?_ hm
      simp only [FeeConfig.setUp, FeeConfig.Params.isValid, Outcome.bind_eq_ok,
        require_eq_ok, Bool.and_eq_true, decide_eq_true_eq] at hconfig
      obtain ⟨_, -, _, ⟨⟨⟨hpos, -⟩, -⟩, -⟩, hconfig⟩ := hconfig
      obtain rfl := Except.ok.inj hconfig
      exact hpos
  | performed op _ hadmits hperform ih => exact hstep op ih hadmits hperform

/-! ### Carrying runs out -/

instance (m : Market) (s : Supply) : Decidable (m.Sighted s) :=
  inferInstanceAs (Decidable (_ ∨ _ ∧ _))

instance (m m' : Market) (s : Supply) : Decidable (m.Overlooks m' s) :=
  inferInstanceAs (Decidable (_ ∧ _ ∧ _))

instance (m m' : Market) (op : Operation) : Decidable (m.Admits op m') :=
  match op with
  | .setUpArray start _ => inferInstanceAs (Decidable (start ∉ m.arrays.map (·.start)))
  | .swap r _ s => inferInstanceAs (Decidable (r.amount < 2 ^ 64 ∧ (m.Sighted s ∨ ¬ m.Overlooks m' s)))
  | .setUpPosition _ _ | .openPosition _ _ _ _ _ | .increase _ _ _ _ | .decrease _ _ _ _
  | .takeProtocolFees _ _ | .takeFundFees _ _ => inferInstanceAs (Decidable True)

/-- Carries admissible operations out, one after the other, and adds up what was paid. -/
def performAll (m : Market) (total : Payment) : List Operation → Outcome (Market × Payment)
  | [] => .ok (m, total)
  | op :: ops => do
    let (m', paid) ← m.perform op
    guardFault (m.Admits op m')
    performAll m' (total.add paid) ops

theorem Reached.performAll {m m' : Market} {total total' : Payment} {ops : List Operation}
    (h : Reached m total) (hops : m.performAll total ops = .ok (m', total')) :
    Reached m' total' := by
  induction ops generalizing m total with
  | nil =>
      obtain ⟨rfl, rfl⟩ := Prod.mk.inj (Except.ok.inj hops)
      exact h
  | cons op ops ih =>
      simp only [Market.performAll] at hops
      rw [Outcome.bind_eq_ok] at hops
      obtain ⟨⟨m₁, paid⟩, hperform, hops⟩ := hops
      rw [Outcome.bind_eq_ok] at hops
      obtain ⟨_, hadmits, hops⟩ := hops
      rw [guardFault_eq_ok] at hadmits
      exact ih (.performed op h hadmits hperform) hops

/-- A run of a new market with plain keys, under a config with the given parameters. -/
def sampleUnder (params : FeeConfig.Params) (tick : Int) (ops : List Operation) :
    Outcome (Market × Payment) := do
  let config ← FeeConfig.zeroed.setUp 0 0 0 0 params
  let m ← create 0 config ⟨0, 0, ⟨0, 1⟩, ⟨0, 0⟩, 0, ⟨6, 6⟩⟩ 0 (← sqrtPriceAt tick) 0
  m.performAll .none ops

theorem reached_of_sampleUnder {params : FeeConfig.Params} {tick : Int} {ops : List Operation}
    {m : Market} {total : Payment} (h : sampleUnder params tick ops = .ok (m, total)) :
    Reached m total := by
  simp only [sampleUnder] at h
  rw [Outcome.bind_eq_ok] at h
  obtain ⟨config, hconfig, h⟩ := h
  rw [Outcome.bind_eq_ok] at h
  obtain ⟨price, -, h⟩ := h
  rw [Outcome.bind_eq_ok] at h
  obtain ⟨fresh, hfresh, h⟩ := h
  exact (Reached.created hconfig hfresh).performAll h

/-- A run under a config with common rates. -/
def sample (spacing : Nat) (tick : Int) (ops : List Operation) : Outcome (Market × Payment) :=
  sampleUnder ⟨spacing, 2500, 120000, 40000⟩ tick ops

theorem reached_of_sample {spacing : Nat} {tick : Int} {ops : List Operation} {m : Market}
    {total : Payment} (h : sample spacing tick ops = .ok (m, total)) : Reached m total :=
  reached_of_sampleUnder h

/-- Two positions around tick 5, one of them ending at tick 0. -/
def openings : List Operation :=
  [.setUpArray 0 0, .setUpArray (-600) 0,
   .openPosition (-20) 20 ⟨1000000, ⟨1000000, 1000000⟩, none⟩ false ⟨[-600, 0], true⟩,
   .openPosition 0 30 ⟨500000, ⟨1000000, 1000000⟩, none⟩ false ⟨[0], true⟩]

/-- An update succeeds, and `P` holds of its result and of the state that it leaves. -/
def succeedsWith {σ α : Type} (P : α → σ → Bool) : EStateM.Result Failure σ α → Bool
  | .ok a s => P a s
  | .error _ _ => false

theorem exists_of_succeedsWith {σ α : Type} {P : α → σ → Bool} {r : EStateM.Result Failure σ α}
    (h : succeedsWith P r = true) : ∃ a s, r = .ok a s ∧ P a s = true := by
  cases r with
  | ok a s => exact ⟨a, s, rfl, h⟩
  | error e s => cases h

/-- An update fails, and `P` holds of the failure and of the state that it leaves. -/
def failsWith {σ α : Type} (P : Failure → σ → Bool) : EStateM.Result Failure σ α → Bool
  | .ok _ _ => false
  | .error e s => P e s

theorem exists_of_failsWith {σ α : Type} {P : Failure → σ → Bool} {r : EStateM.Result Failure σ α}
    (h : failsWith P r = true) : ∃ e s, r = .error e s ∧ P e s = true := by
  cases r with
  | ok a s => cases h
  | error e s => exact ⟨e, s, rfl, h⟩

/-- An update faults. -/
def faults {σ α : Type} : EStateM.Result Failure σ α → Bool
  | .error .fault _ => true
  | _ => false

theorem exists_of_faults {σ α : Type} {r : EStateM.Result Failure σ α} (h : faults r = true) :
    ∃ s, r = .error .fault s := by
  cases r with
  | ok a s => cases h
  | error e s =>
      cases e with
      | fault => exact ⟨s, rfl⟩
      | _ => cases h

/-- What can be computed of a run that ends. -/
theorem exists_of_any {run : Outcome (Market × Payment)} {P : Market × Payment → Bool}
    (h : run.toOption.any P = true) : ∃ m total, run = .ok (m, total) ∧ P (m, total) = true := by
  obtain ⟨reached, hrun, hP⟩ := exists_ok_of_any h
  exact ⟨reached.1, reached.2, hrun, hP⟩

theorem exists_of_sample {spacing : Nat} {tick : Int} {ops : List Operation}
    {P : Market × Payment → Bool} (h : (sample spacing tick ops).toOption.any P = true) :
    ∃ m total, sample spacing tick ops = .ok (m, total) ∧ P (m, total) = true :=
  exists_of_any h

end Market

end Clmm
