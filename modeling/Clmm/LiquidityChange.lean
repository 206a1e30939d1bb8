import Clmm.Liquidity
import Clmm.Pool
import Clmm.Position

/-!
# Clmm.LiquidityChange

**Adding and removing liquidity.** A change of a position's liquidity touches its two boundary ticks,
the pool, the bitmap of arrays and the position itself.

Design points:

* The change is first *planned*: `ChangePlan.make` reads the state, performs every check and
  computes every new value without writing anything.
* A plan is then *committed*. `modifyPosition` is an `Update`, so the state that a failing commit
  would leave behind is part of the model; that none does is a theorem about plans, not a
  convention.
* A positive change pays in, rounded up, within maxima. A negative change pays out, rounded down, and
  has to reach minima. A change of zero only settles fees.
-/

namespace Clmm

/-- What a change of liquidity works on: a pool, one of its positions, the tick arrays that were
supplied and the bitmap extension if it was supplied. -/
structure Book where
  pool : Pool
  position : Position
  arrays : List TickArray
  extension : Option BitmapExtension
deriving DecidableEq

/-- The amounts a change of liquidity moves. -/
structure LiquidityChange where
  /-- Paid in by an increase, released by a decrease. -/
  amounts : Pair Nat
  /-- Owed fees that a decrease pays out. -/
  fees : Pair Nat
deriving DecidableEq, Repr

/-- Checks that a range is not empty, lies in the tick range and fits the tick spacing. -/
def checkRange (lower upper : Int) (spacing : Nat) : Outcome Unit := do
  require (lower < upper) .tickRangeInvalid
  require (minTick ≤ lower ∧ upper ≤ maxTick) .tickOutOfRange
  guardFault (spacing ≠ 0)
  require (lower % (spacing : Int) = 0 ∧ upper % (spacing : Int) = 0) .tickRangeInvalid

/-- The first of the arrays that starts at `start`, with its place. -/
def findArray (start : Int) : List TickArray → Option (Nat × TickArray)
  | [] => none
  | a :: rest =>
    if a.start = start then some (0, a) else (findArray start rest).map fun (i, b) => (i + 1, b)

/-- A tick among the supplied arrays. -/
structure TickPlace where
  /-- The place of the array in the list. -/
  index : Nat
  array : TickArray
  /-- The place of the tick in the array. -/
  offset : Nat
  tick : Tick

/-- Finds a boundary tick's array among the supplied ones. -/
def arrayFor (arrays : List TickArray) (t : Int) (spacing : Nat) : Outcome (Nat × TickArray) := do
  match findArray (← TickArray.startOf t spacing) arrays with
  | some found => return found
  | none => throw (.refused .arrayNotLoaded)

/-- A planned change of the number of used ticks in one array. -/
structure CountUpdate where
  /-- The place of the array in the list. -/
  index : Nat
  /-- The start of the array. -/
  start : Int
  /-- The new number. -/
  count : Nat
  /-- Whether the array turns from unused to used or back. -/
  flips : Bool
deriving DecidableEq

namespace CountUpdate

/-- Plans to add `delta` to the number of used ticks of an array. -/
def plan (index : Nat) (a : TickArray) (delta : Int) : Outcome CountUpdate := do
  let after := (a.count : Int) + delta
  require (0 ≤ after ∧ after < 256) .mathOverflow
  return ⟨index, a.start, after.toNat, decide ((a.count = 0) ≠ (after = 0))⟩

/-- By how much one boundary tick changes the number of used ticks. -/
def tickDelta (flipped : Bool) (t : Tick) : Int :=
  if flipped then (if t.isInitialized then 1 else -1) else 0

/-- Writes a planned number and, if the array turned, its bit in the bitmap. -/
def commit (u : CountUpdate) : Update Book Unit := do
  modify fun b => { b with arrays := b.arrays.modify u.index ({ · with count := u.count }) }
  if u.flips then
    let b ← get
    let (native, extension) ← Bitmap.flip b.pool.bitmap b.extension u.start b.pool.spacing
    set { b with pool := { b.pool with bitmap := native }, extension }

end CountUpdate

/-- Everything a change of liquidity is going to write. -/
structure ChangePlan where
  lower : TickPlace
  upper : TickPlace
  counts : List CountUpdate
  /-- The pool's new liquidity in range. -/
  liquidity : Nat
  position : Position
  amounts : Pair Nat

namespace ChangePlan

/-- Checks that the amounts keep within the limits of the request: maxima for a positive change,
minima for a negative one. -/
def checkLimits (delta : Int) (amounts limits : Pair Nat) : Outcome Unit :=
  if 0 < delta then
    require (amounts.zero ≤ limits.zero ∧ amounts.one ≤ limits.one) .slippageExceeded
  else if delta < 0 then
    require (limits.zero ≤ amounts.zero ∧ limits.one ≤ amounts.one) .slippageExceeded
  else .ok ()

/-- The new numbers of used ticks: one number if both ticks lie in one array, otherwise two. -/
def countUpdates (lower upper : TickPlace) (lowerFlipped upperFlipped : Bool) :
    Outcome (List CountUpdate) := do
  let lowerDelta := CountUpdate.tickDelta lowerFlipped lower.tick
  let upperDelta := CountUpdate.tickDelta upperFlipped upper.tick
  if lower.index = upper.index then
    return [← CountUpdate.plan lower.index lower.array (lowerDelta + upperDelta)]
  else
    return [← CountUpdate.plan lower.index lower.array lowerDelta,
            ← CountUpdate.plan upper.index upper.array upperDelta]

/-- Checks that every bit that has to be inverted is at hand. -/
def checkBits (spacing : Nat) (extension : Option BitmapExtension) : List CountUpdate → Outcome Unit
  | [] => .ok ()
  | u :: rest => do
    if u.flips then
      let bit ← Bitmap.bitIndex u.start spacing
      require (Bitmap.isNative bit ∨ extension.isSome) .bitmapExtensionNotLoaded
    checkBits spacing extension rest

/-- Plans to change the position's liquidity by `delta`. -/
def make (b : Book) (delta : Int) (limits : Pair Nat) : Outcome ChangePlan := do
  let spacing := b.pool.spacing
  let current := b.pool.tick
  let range := b.position
  checkRange range.lower range.upper spacing
  let (lowerIndex, lowerArray) ← arrayFor b.arrays range.lower spacing
  let (upperIndex, upperArray) ← arrayFor b.arrays range.upper spacing
  let lowerOffset ← lowerArray.offsetOf range.lower spacing
  let upperOffset ← upperArray.offsetOf range.upper spacing
  let lowerTick ← lowerArray.slot lowerOffset
  let upperTick ← upperArray.slot upperOffset
  let (lowerTick, lowerFlipped) ←
    if delta = 0 then pure (lowerTick, false)
    else lowerTick.update current delta b.pool.growth .lower
  let (upperTick, upperFlipped) ←
    if delta = 0 then pure (upperTick, false)
    else upperTick.update current delta b.pool.growth .upper
  let inside := Tick.growthInside lowerTick upperTick current b.pool.growth
  let settled ← b.position.settle inside
  let held ← (addSigned b.position.liquidity delta).orRefuse .insufficientPositionLiquidity
  let rounding := if 0 < delta then Rounding.up else .down
  let amounts ← amountsFor b.pool.sqrtPrice current range.lower range.upper delta.natAbs rounding
  checkLimits delta amounts limits
  let liquidity ←
    if range.lower ≤ current ∧ current < range.upper then addSigned b.pool.liquidity delta
    else pure b.pool.liquidity
  let lower : TickPlace :=
    ⟨lowerIndex, lowerArray, lowerOffset, lowerTick.clearIfUnused lowerFlipped⟩
  let upper : TickPlace :=
    ⟨upperIndex, upperArray, upperOffset, upperTick.clearIfUnused upperFlipped⟩
  let counts ← countUpdates lower upper lowerFlipped upperFlipped
  checkBits spacing b.extension counts
  return { lower, upper, counts, liquidity, position := { settled with liquidity := held }, amounts }

/-- Writes a planned change. -/
def commit (p : ChangePlan) : Update Book Unit := do
  p.counts.forM CountUpdate.commit
  modify fun b => { b with
    arrays := (b.arrays.modify p.lower.index (·.setSlot p.lower.offset p.lower.tick)).modify
      p.upper.index (·.setSlot p.upper.offset p.upper.tick)
    pool := { b.pool with liquidity := p.liquidity }
    position := p.position }

end ChangePlan

/-- Changes the position's liquidity by `delta` and settles its fees, which are not paid out. -/
def modifyPosition (delta : Int) (limits : Pair Nat) : Update Book (Pair Nat) := do
  let plan ← ChangePlan.make (← get) delta limits
  plan.commit
  return plan.amounts

/-- Adds liquidity; at most the given maxima are paid in. -/
def increaseLiquidity (liquidity : Nat) (maxima : Pair Nat) : Update Book LiquidityChange := do
  require (0 < liquidity) .zeroLiquidity
  let delta ← narrow 127 liquidity .mathOverflow
  return ⟨← modifyPosition delta maxima, ⟨0, 0⟩⟩

/-- Removes liquidity and pays out all owed fees; removing zero only collects the fees. -/
def decreaseLiquidity (liquidity : Nat) (minima : Pair Nat) : Update Book LiquidityChange := do
  require (liquidity ≤ (← get).position.liquidity) .insufficientPositionLiquidity
  let delta ← narrow 127 liquidity .mathOverflow
  let amounts ← modifyPosition (-(delta : Int)) minima
  let fees := (← get).position.owed
  modify fun b => { b with position := { b.position with owed := ⟨0, 0⟩ } }
  return ⟨amounts, fees⟩

/-- The liquidity of a deposit. A nonzero request is taken as it is; zero asks for what the maxima can
fund at the current price, from one token alone if `only` names it. -/
def depositLiquidity (pool : Pool) (position : Position) (requested : Nat) (maxima : Pair Nat)
    (only : Option Token) : Outcome Nat := do
  if requested ≠ 0 then return requested
  let lowerPrice ← sqrtPriceAt position.lower
  let upperPrice ← sqrtPriceAt position.upper
  let liquidity ← match only with
    | some token => liquidityFromOne pool.sqrtPrice lowerPrice upperPrice (maxima.get token) token
    | none => liquidityFromBoth pool.sqrtPrice lowerPrice upperPrice maxima
  require (0 < liquidity) .zeroLiquidity
  return liquidity

/-- What the owner of a deposit asks for. -/
structure Deposit where
  /-- The liquidity to add; zero to derive it from the maxima. -/
  liquidity : Nat
  /-- The most that may be paid in. -/
  maxima : Pair Nat
  /-- The token that alone funds a derived liquidity, if any. -/
  only : Option Token
deriving DecidableEq

/-- Pays a deposit into a position. The number is the liquidity that was added. -/
def addDeposit (d : Deposit) : Update Book (Nat × LiquidityChange) := do
  let b ← get
  let liquidity ← liftM (depositLiquidity b.pool b.position d.liquidity d.maxima d.only)
  return (liquidity, ← increaseLiquidity liquidity d.maxima)

end Clmm
