import Clmm.Arith
import Clmm.Token

/-!
# Clmm.NextPrice

**Where a token amount moves the price.** Within one liquidity range, adding or removing an amount of
one token moves the square-root price `p` to

* `L * p / (L ± amount * p)` for token 0, rounded up, and
* `p ± amount / L` for token 1, rounded down,

so the price never moves further than an input pays for, and always far enough for an output.
Products that are not checked fault when they leave 256 bits.
-/

namespace Clmm

/-- Whether an amount is added to the pool or taken from it. -/
inductive Flow
  | add
  | remove
deriving DecidableEq, Repr, Inhabited

/-- The price after `amount` of token 0 flows in or out of `liquidity`. -/
def nextPriceBy0 (p liquidity amount : Nat) (flow : Flow) : Outcome Nat := do
  if amount = 0 then return p
  let numerator := liquidity * 2 ^ 64
  let product := amount * p
  let denominator ← match flow with
    | .add => pure (numerator + product)
    | .remove => do
      require (product < numerator) .mathOverflow
      pure (numerator - product)
  let scaled ← within 256 (numerator * p)
  guardFault (denominator ≠ 0)
  narrow 128 (divUp scaled denominator) .mathOverflow

/-- The price after `amount` of token 1 flows in or out of `liquidity`. -/
def nextPriceBy1 (p liquidity amount : Nat) (flow : Flow) : Outcome Nat := do
  if amount = 0 then return p
  let numerator := amount * 2 ^ 64
  guardFault (liquidity ≠ 0)
  match flow with
  | .add =>
    let quotient ← narrow 128 (numerator / liquidity) .mathOverflow
    narrow 128 (p + quotient) .mathOverflow
  | .remove =>
    let quotient ← narrow 128 (divUp numerator liquidity) .mathOverflow
    require (quotient < p) .mathOverflow
    return p - quotient

/-- The price after `amount` of the input token is paid in. -/
def nextPriceByInput (p liquidity amount : Nat) (d : Direction) : Outcome Nat := do
  require (0 < p) .sqrtPriceOutOfRange
  require (0 < liquidity) .zeroLiquidity
  match d with
  | .down => nextPriceBy0 p liquidity amount .add
  | .up => nextPriceBy1 p liquidity amount .add

/-- The price after `amount` of the output token is paid out. -/
def nextPriceByOutput (p liquidity amount : Nat) (d : Direction) : Outcome Nat := do
  require (0 < p) .sqrtPriceOutOfRange
  require (0 < liquidity) .zeroLiquidity
  match d with
  | .down => nextPriceBy1 p liquidity amount .remove
  | .up => nextPriceBy0 p liquidity amount .remove

end Clmm
