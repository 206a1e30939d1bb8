import Clmm.Amount

/-!
# Clmm.Liquidity

**Liquidity that token amounts can fund.** The inverse question to `Clmm.Amount`: how much liquidity
on a price range do given token amounts pay for, rounded down.
-/

namespace Clmm

/-- Liquidity bought by `amount` of token 0 between two prices:
`amount * a * b / (2 ^ 64 * (b - a))`. -/
def liquidityFrom0 (a b amount : Nat) : Outcome Nat := do
  let lower := min a b
  let upper := max a b
  require (lower < upper) .divisionByZero
  let numerator ← within 256 (amount * lower * upper)
  narrow 128 (numerator / (2 ^ 64 * (upper - lower))) .mathOverflow

/-- Liquidity bought by `amount` of token 1 between two prices: `amount * 2 ^ 64 / (b - a)`. -/
def liquidityFrom1 (a b amount : Nat) : Outcome Nat := do
  let lower := min a b
  let upper := max a b
  require (lower < upper) .divisionByZero
  mulDiv .down amount (2 ^ 64) (upper - lower)

/-- The largest liquidity between two prices that both amounts can fund at the price `current`. Only
token 0 counts below the range and only token 1 above it; inside, the smaller of the two. -/
def liquidityFromBoth (current a b : Nat) (amounts : Pair Nat) : Outcome Nat := do
  let lower := min a b
  let upper := max a b
  if current ≤ lower then
    liquidityFrom0 lower upper amounts.zero
  else if current < upper then
    let byZero ← liquidityFrom0 current upper amounts.zero
    let byOne ← liquidityFrom1 lower current amounts.one
    return min byZero byOne
  else
    liquidityFrom1 lower upper amounts.one

/-- The liquidity that one token alone can fund; zero when the price leaves no room for it. -/
def liquidityFromOne (current a b amount : Nat) (token : Token) : Outcome Nat :=
  let lower := min a b
  let upper := max a b
  match token with
  | .zero =>
    if upper ≤ current then .ok 0 else liquidityFrom0 (max current lower) upper amount
  | .one =>
    if current ≤ lower then .ok 0 else liquidityFrom1 lower (min current upper) amount

end Clmm
