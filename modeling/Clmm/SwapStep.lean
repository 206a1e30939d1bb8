import Clmm.Amount
import Clmm.NextPrice
import Clmm.Fee

/-!
# Clmm.SwapStep

**One step of a swap**: the price moves from `current` towards `target` within one liquidity range.

The step first asks whether what is left of the request (less the fee, if the input is fixed) covers
the whole way. If it does, the step ends at `target` and the fee is the rate's share of the input. If
it does not, the step ends where the amount leads; with a fixed input everything that was not swapped
is then kept as fee, and with a fixed output no more is handed out than was asked for.
-/

namespace Clmm

/-- What one step did. -/
structure SwapStep where
  /-- The price after the step. -/
  sqrtPrice : Nat
  /-- Input consumed, without the fee. -/
  amountIn : Nat
  /-- Output produced. -/
  amountOut : Nat
  /-- Trade fee, in the input token. -/
  fee : Nat
deriving DecidableEq, Repr, Inhabited

namespace SwapStep

/-- The fee on top of an input `amountIn`, rounded up: the fee is `rate` millionths of both together. -/
def feeOn (amountIn rate : Nat) : Outcome Nat := do
  tokenAmount (← mulDiv .up amountIn rate (feeDenominator - rate))

/-- A step with a fixed input of which `remaining` is left. -/
def exactIn (current target liquidity remaining rate : Nat) (d : Direction) : Outcome SwapStep := do
  let budget ← mulDiv .down remaining (feeDenominator - rate) feeDenominator
  let full ← d.amountIn current target liquidity
  if full < 2 ^ 64 ∧ full ≤ budget then
    let out ← tokenAmount (← d.amountOut current target liquidity)
    return ⟨target, full, out, ← feeOn full rate⟩
  else
    let next ← nextPriceByInput current liquidity budget d
    let input ← tokenAmount (← d.amountIn current next liquidity)
    let out ← tokenAmount (← d.amountOut current next liquidity)
    return ⟨next, input, out, ← subOrRefuse remaining input .mathOverflow⟩

/-- A step with a fixed output of which `remaining` is left. -/
def exactOut (current target liquidity remaining rate : Nat) (d : Direction) : Outcome SwapStep := do
  let full ← d.amountOut current target liquidity
  if full < 2 ^ 64 ∧ full ≤ remaining then
    let input ← tokenAmount (← d.amountIn current target liquidity)
    return ⟨target, input, full, ← feeOn input rate⟩
  else
    let next ← nextPriceByOutput current liquidity remaining d
    let input ← tokenAmount (← d.amountIn current next liquidity)
    let out ← tokenAmount (← d.amountOut current next liquidity)
    return ⟨next, input, min out remaining, ← feeOn input rate⟩

/-- One step from `current` towards `target`. -/
def compute (current target liquidity remaining rate : Nat) (mode : SwapMode) (d : Direction) :
    Outcome SwapStep := do
  require (rate < feeDenominator) .invalidConfig
  match mode with
  | .exactIn => exactIn current target liquidity remaining rate d
  | .exactOut => exactOut current target liquidity remaining rate d

end SwapStep

end Clmm
