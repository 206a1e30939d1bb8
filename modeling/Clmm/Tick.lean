import Clmm.Arith
import Clmm.Fee
import Clmm.Token

/-!
# Clmm.Tick

**A tick where liquidity changes.** Positions refer to their two boundary ticks. A tick records how
much liquidity refers to it (`gross`), by how much the liquidity in range changes when the price
crosses it upward (`net`), and the fee growth on its far side, seen from the current price
(`outside`).

The outside growth of a single tick has no meaning of its own: it depends on when the tick was first
used. What has a meaning is the difference formed by `growthInside` from the two ticks of a range.
All growth counters wrap around, so the differences are taken modulo `2 ^ 128`.
-/

namespace Clmm

/-- The state of one tick. -/
structure Tick where
  /-- The index of the tick. -/
  index : Int
  /-- What crossing the tick upward adds to the liquidity in range. -/
  net : Int
  /-- All liquidity that refers to the tick. -/
  gross : Nat
  /-- Fee growth on the far side of the tick. -/
  outside : Pair Growth
deriving DecidableEq, Repr, Inhabited

namespace Tick

/-- A tick that nothing refers to. -/
def empty (index : Int) : Tick := ⟨index, 0, 0, Pair.both 0⟩

/-- Whether some position refers to the tick. -/
def isInitialized (t : Tick) : Bool := t.gross ≠ 0

/-- Which end of a range a tick is. -/
inductive Bound
  | lower
  | upper
deriving DecidableEq, Repr

/-- Adds a position's change of liquidity to its boundary tick. A tick that is used for the first
time takes all growth so far as having accrued below it. The flag says whether the tick turned from
unused to used or back. -/
def update (t : Tick) (current : Int) (delta : Int) (globals : Pair Growth) (bound : Bound) :
    Outcome (Tick × Bool) := do
  let gross ← (addSigned t.gross delta).orRefuse .insufficientPositionLiquidity
  let outside := if t.gross = 0 ∧ t.index ≤ current then globals else t.outside
  let net ← signedNarrow 128 (match bound with | .lower => t.net + delta | .upper => t.net - delta)
    .mathOverflow
  return ({ t with gross, net, outside }, decide ((gross = 0) ≠ (t.gross = 0)))

/-- Crosses the tick: what was inside is now outside. -/
def cross (t : Tick) (globals : Pair Growth) : Tick :=
  { t with outside := Pair.ofFn fun x => globals.get x - t.outside.get x }

/-- Forgets everything but the index. -/
def clear (t : Tick) : Tick := empty t.index

/-- Clears the tick if its last reference went away. -/
def clearIfUnused (t : Tick) (flipped : Bool) : Tick :=
  if flipped && !t.isInitialized then t.clear else t

/-- Growth of one token below the tick. -/
def growthBelow (t : Tick) (current : Int) (globals : Pair Growth) (x : Token) : Growth :=
  if t.index ≤ current then t.outside.get x else globals.get x - t.outside.get x

/-- Growth of one token above the tick. -/
def growthAbove (t : Tick) (current : Int) (globals : Pair Growth) (x : Token) : Growth :=
  if current < t.index then t.outside.get x else globals.get x - t.outside.get x

/-- Fee growth on the ticks from `lower` up to, not including, `upper`. -/
def growthInside (lower upper : Tick) (current : Int) (globals : Pair Growth) : Pair Growth :=
  Pair.ofFn fun x =>
    globals.get x - lower.growthBelow current globals x - upper.growthAbove current globals x

end Tick

end Clmm
