import Clmm.Price
import Clmm.Token

/-!
# Clmm.Amount

**Token amounts of a liquidity range.** Liquidity `L` between the square-root prices `a ≤ b` (in
64.64 fixed point) holds

* `L * 2 ^ 64 * (b - a) / (a * b)` of token 0 and
* `L * (b - a) / 2 ^ 64` of token 1.

What a user pays is rounded up and what a user receives is rounded down. `amount0` and `amount1`
give 128-bit amounts; `tokens0` and `tokens1` are the same amounts where they have to fit the 64
bits of a token balance. The prices may be given in either order.
-/

namespace Clmm

/-- Token 0 between two prices. The division by the product of the prices is done in two steps,
each rounded, which gives the same as one. -/
def amount0 (a b liquidity : Nat) (r : Rounding) : Outcome Nat := do
  let lower := min a b
  let upper := max a b
  require (0 < lower) .divisionByZero
  let product ← within 256 (liquidity * 2 ^ 64 * (upper - lower))
  narrow 128 (r.div (r.div product upper) lower) .mathOverflow

/-- Token 1 between two prices. -/
def amount1 (a b liquidity : Nat) (r : Rounding) : Outcome Nat :=
  mulDiv r liquidity (max a b - min a b) (2 ^ 64)

/-- A token amount, which has to fit 64 bits. -/
def tokenAmount (n : Nat) : Outcome Nat := narrow 64 n .maxTokenOverflow

/-- Token 0 between two prices, in 64 bits. -/
def tokens0 (a b liquidity : Nat) (r : Rounding) : Outcome Nat := do
  tokenAmount (← amount0 a b liquidity r)

/-- Token 1 between two prices, in 64 bits. -/
def tokens1 (a b liquidity : Nat) (r : Rounding) : Outcome Nat := do
  tokenAmount (← amount1 a b liquidity r)

/-- The token amounts of `liquidity` on the ticks from `lower` to `upper` at the pool's current price
and tick: all token 0 below the range, all token 1 above it, some of each inside. -/
def amountsFor (sqrtPrice : Nat) (tick lower upper : Int) (liquidity : Nat) (r : Rounding) :
    Outcome (Pair Nat) := do
  if liquidity = 0 then return ⟨0, 0⟩
  let lowerPrice ← sqrtPriceAt lower
  let upperPrice ← sqrtPriceAt upper
  if tick < lower then
    return ⟨← tokens0 lowerPrice upperPrice liquidity r, 0⟩
  else if tick < upper then
    return ⟨← tokens0 sqrtPrice upperPrice liquidity r, ← tokens1 lowerPrice sqrtPrice liquidity r⟩
  else
    return ⟨0, ← tokens1 lowerPrice upperPrice liquidity r⟩

namespace Direction

/-- What moving `liquidity` between two prices takes of the input token, rounded up. -/
def amountIn (d : Direction) (a b liquidity : Nat) : Outcome Nat :=
  match d with
  | down => amount0 a b liquidity .up
  | up => amount1 a b liquidity .up

/-- What moving `liquidity` between two prices gives of the output token, rounded down. -/
def amountOut (d : Direction) (a b liquidity : Nat) : Outcome Nat :=
  match d with
  | down => amount1 a b liquidity .down
  | up => amount0 a b liquidity .down

end Direction

end Clmm
