import Clmm.Arith

/-!
# Clmm.Fee

**Trade fees.** Rates are counted in millionths. Of a trade fee the protocol's share is taken first,
then the fund's, each rounded down; the rest belongs to the liquidity in range and is booked as growth
per unit of liquidity, in 64.64 fixed point, on a counter that wraps around at `2 ^ 128`.
-/

namespace Clmm

/-- The rate that stands for the whole. -/
def feeDenominator : Nat := 1000000

/-- A fee-growth counter: fees per unit of liquidity in 64.64 fixed point, modulo `2 ^ 128`. Only
differences of such counters have a meaning. -/
abbrev Growth := BitVec 128

/-- The shares of a trade fee. -/
structure FeeSplit where
  protocol : Nat
  fund : Nat
  /-- What is left for the liquidity in range. -/
  providers : Nat
deriving DecidableEq, Repr, Inhabited

/-- `rate` millionths of `fee`, rounded down and cut to its lower 64 bits. -/
def feeShare (fee rate : Nat) : Outcome Nat := do
  return (← mulDiv .down fee rate feeDenominator) % 2 ^ 64

/-- Splits a trade fee; shares above the whole fee are refused. -/
def splitFee (fee protocolRate fundRate : Nat) : Outcome FeeSplit := do
  let protocol ← feeShare fee protocolRate
  let fund ← feeShare fee fundRate
  let rest ← subOrRefuse fee protocol .invalidConfig
  let providers ← subOrRefuse rest fund .invalidConfig
  return ⟨protocol, fund, providers⟩

/-- The growth that `fee` is to each unit of `liquidity`: `fee * 2 ^ 64 / liquidity`. -/
def feeGrowth (fee liquidity : Nat) : Outcome Growth :=
  if liquidity = 0 ∨ fee = 0 then .ok 0
  else do return BitVec.ofNat 128 (← mulDiv .down fee (2 ^ 64) liquidity)

end Clmm
