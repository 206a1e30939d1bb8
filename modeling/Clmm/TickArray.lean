import Clmm.Key
import Clmm.Price
import Clmm.Search
import Clmm.Tick

/-!
# Clmm.TickArray

**Sixty neighbouring ticks.** The usable ticks of a pool are the multiples of its tick spacing. They
are kept in arrays of sixty, so an array spans `60 * spacing` ticks; its start is the multiple of
that span at or below each of its ticks, negative ones included.

Indices are 32-bit signed: a sum or product that leaves this width faults, as does a spacing of zero
where it would divide.
-/

namespace Clmm

/-- The number of ticks in an array. -/
def arraySize : Nat := 60

/-- The ticks of one array, with the account data around them. -/
structure TickArray where
  /-- The pool the array belongs to. -/
  pool : Key
  /-- The index of the first tick. -/
  start : Int
  /-- How many of the ticks are in use. -/
  count : Nat
  /-- The bump of the array's address. -/
  bump : Nat
  ticks : Vector Tick arraySize
deriving DecidableEq

namespace TickArray

/-- The number of tick indices that one array spans. -/
def span (spacing : Nat) : Int := 60 * spacing

/-- The greatest multiple of the span at or below `t`. -/
def floorStart (t : Int) (spacing : Nat) : Int := t / span spacing * span spacing

/-- The start of the array that holds tick `t`. -/
def startOf (t : Int) (spacing : Nat) : Outcome Int := do
  guardFault (spacing ≠ 0)
  signedWithin 32 (floorStart t spacing)

/-- Whether `start` is a multiple of the span whose array overlaps the tick range. -/
def isValidStart (start : Int) (spacing : Nat) : Bool :=
  spacing ≠ 0 && start % span spacing = 0 &&
    floorStart minTick spacing ≤ start && start ≤ floorStart maxTick spacing

/-- An array before it is set up: all zero. -/
def zeroed : TickArray :=
  { pool := 0, start := 0, count := 0, bump := 0, ticks := Vector.replicate arraySize (Tick.empty 0) }

/-- The unused array of a pool at a start index. -/
def fresh (pool : Key) (start : Int) (spacing bump : Nat) : Outcome TickArray := do
  require (isValidStart start spacing) .invalidTickArrayStart
  return { pool, start, count := 0, bump,
           ticks := Vector.ofFn fun i => Tick.empty (start + (i.val : Int) * spacing) }

/-- The place of tick `t` in the array. -/
def offsetOf (a : TickArray) (t : Int) (spacing : Nat) : Outcome Nat := do
  guardFault (spacing ≠ 0)
  require (t % (spacing : Int) = 0) .tickRangeInvalid
  let start ← startOf t spacing
  require (start = a.start) .invalidTickArray
  return ((t - a.start) / (spacing : Int)).toNat

/-- The tick at a place of the array. -/
def slot (a : TickArray) (offset : Nat) : Outcome Tick :=
  if h : offset < arraySize then .ok a.ticks[offset] else .error .fault

/-- The state of tick `t`. -/
def get (a : TickArray) (t : Int) (spacing : Nat) : Outcome Tick := do
  a.slot (← a.offsetOf t spacing)

/-- Replaces the tick at a place of the array; there is nothing to replace beyond its end. -/
def setSlot (a : TickArray) (offset : Nat) (t : Tick) : TickArray :=
  { a with ticks := a.ticks.setIfInBounds offset t }

/-- Whether the place holds a tick in use. -/
def isUsed (a : TickArray) (offset : Nat) : Bool :=
  if h : offset < arraySize then a.ticks[offset].isInitialized else false

/-- The place of the next tick in use, seen from `current` in the direction of a swap. Downward the
tick at or below `current` counts, upward only ticks above it. `current` may lie outside the array:
then the array is searched from the end at which the walk enters. -/
def nextUsed? (a : TickArray) (current : Int) (spacing : Nat) (d : Direction) :
    Outcome (Option Nat) := do
  let relative ← signedWithin 32 (current - a.start)
  match d with
  | .down =>
    if relative < 0 then return none
    guardFault (spacing ≠ 0)
    let start := min (relative / (spacing : Int)) 59
    return greatestBelow? a.isUsed (start.toNat + 1)
  | .up =>
    if relative < 0 then return leastBelow? a.isUsed arraySize
    guardFault (spacing ≠ 0)
    let start ← signedWithin 32 (relative / (spacing : Int) + 1)
    return leastBelow? (fun i => start ≤ (i : Int) && a.isUsed i) arraySize

/-- The index of the tick at a place of the array; the place is read as a signed 32-bit number. -/
def indexAt (a : TickArray) (offset spacing : Nat) : Outcome Int := do
  let distance ← signedWithin 32 (Int.bmod offset (2 ^ 32) * spacing)
  signedWithin 32 (a.start + distance)

end TickArray

end Clmm
