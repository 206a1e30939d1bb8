import Clmm.LiquidityChange
import Clmm.Oracle
import Clmm.Swap

/-!
# Clmm.Market

**One pool with everything that belongs to it**: its fee config, its tick arrays, its bitmap extension,
its positions and its oracle. The operations here choose from the market what the operations on books
work on, run them, and put the results back. An operation that fails changes nothing.

A caller names the tick arrays that an operation may use by their starts, in order, and says whether
it supplies the bitmap extension.
-/

namespace Clmm

/-- A pool with its tick arrays, positions and oracle. -/
structure Market where
  /-- The key of the pool. -/
  key : Key
  config : FeeConfig
  pool : Pool
  /-- The pool's tick arrays by ascending start. -/
  arrays : List TickArray
  extension : BitmapExtension
  positions : List Position
  oracle : Oracle
deriving DecidableEq

/-- What an operation is supplied with. -/
structure Supply where
  /-- The starts of the tick arrays, in order. -/
  starts : List Int
  /-- Whether the bitmap extension is supplied. -/
  extension : Bool
deriving DecidableEq

namespace Market

/-- A market whose pool was just created under `config`. -/
def create (key : Key) (config : FeeConfig) (binding : Pool.Binding)
    (bump sqrtPrice openTime : Nat) : Outcome Market := do
  let pool ← Pool.fresh bump binding config.spacing sqrtPrice openTime
  return { key, config, pool, arrays := [], extension := BitmapExtension.empty key, positions := [],
           oracle := Oracle.fresh key }

/-- Puts an array into a list sorted by start, in place of one with the same start. -/
def insertArray (a : TickArray) : List TickArray → List TickArray
  | [] => [a]
  | b :: rest =>
    if a.start < b.start then a :: b :: rest
    else if a.start = b.start then a :: rest
    else b :: insertArray a rest

/-- Sets up the unused tick array at a start index. -/
def addArray (m : Market) (start : Int) (bump : Nat) : Outcome Market := do
  let a ← TickArray.fresh m.key start m.pool.spacing bump
  return { m with arrays := insertArray a m.arrays }

/-- The arrays with the given starts, in that order. -/
def pick (m : Market) (starts : List Int) : List TickArray :=
  starts.filterMap fun s => m.arrays.find? (·.start = s)

/-- The bitmap extension, if it is supplied. -/
def supplied (m : Market) (s : Supply) : Option BitmapExtension :=
  if s.extension then some m.extension else none

/-- Puts arrays back in place of those with the same starts. -/
def putBack (arrays : List TickArray) (changed : List TickArray) : List TickArray :=
  arrays.map fun a => (changed.find? (·.start = a.start)).getD a

/-- The book of one position. -/
def book (m : Market) (p : Position) (s : Supply) : Book :=
  ⟨m.pool, p, m.pick s.starts, m.supplied s⟩

/-- Takes over the pool, arrays and extension of a book. -/
def takeOver (m : Market) (b : Book) : Market :=
  { m with pool := b.pool, arrays := putBack m.arrays b.arrays,
           extension := b.extension.getD m.extension }

/-- The position with the given number. -/
def position (m : Market) (i : Nat) : Outcome Position :=
  match m.positions[i]? with
  | some p => .ok p
  | none => .error .fault

/-- The liquidity that a deposit into a position adds. -/
def derive (m : Market) (i : Nat) (d : Deposit) : Outcome Nat := do
  depositLiquidity m.pool (← m.position i) d.liquidity d.maxima d.only

/-- Runs an update on a position's book; the new position and market, and the result. -/
def runOn {α : Type} (m : Market) (p : Position) (s : Supply) (u : Update Book α) :
    Outcome (Market × Position × α) :=
  match u (m.book p s) with
  | .ok a b => .ok (m.takeOver b, b.position, a)
  | .error e _ => .error e

/-- Runs an update on the book of position number `i`. -/
def runAt {α : Type} (m : Market) (i : Nat) (s : Supply) (u : Update Book α) :
    Outcome (Market × α) := do
  let (m, p, a) ← m.runOn (← m.position i) s u
  return ({ m with positions := m.positions.set i p }, a)

/-- Pays a deposit into a position. Unless its liquidity is to be derived, it is added as it is. -/
def deposit (d : Deposit) (derived : Bool) : Update Book (Nat × LiquidityChange) :=
  if derived then addDeposit d
  else do return (d.liquidity, ← increaseLiquidity d.liquidity d.maxima)

/-- Opens a position on a range with a deposit. -/
def openPosition (m : Market) (lower upper : Int) (d : Deposit) (derived : Bool) (s : Supply) :
    Outcome (Market × Nat × LiquidityChange) := do
  let fresh := Position.zeroed.setUp 0 0 m.key lower upper
  let (m, p, r) ← m.runOn fresh s (deposit d derived)
  return ({ m with positions := m.positions ++ [p] }, r)

/-- Adds a deposit to position number `i`. -/
def increase (m : Market) (i : Nat) (d : Deposit) (derived : Bool) (s : Supply) :
    Outcome (Market × Nat × LiquidityChange) :=
  m.runAt i s (deposit d derived)

/-- Removes liquidity from position number `i`. -/
def decrease (m : Market) (i liquidity : Nat) (minima : Pair Nat) (s : Supply) :
    Outcome (Market × LiquidityChange) :=
  m.runAt i s (decreaseLiquidity liquidity minima)

/-- Changes the liquidity of position number `i` by a signed amount. -/
def modify (m : Market) (i : Nat) (delta : Int) (limits : Pair Nat) (s : Supply) :
    Outcome (Market × Pair Nat) :=
  m.runAt i s (modifyPosition delta limits)

/-- Swaps at a given time and lets the oracle record the tick that the swap led to. -/
def swap (m : Market) (r : SwapRequest) (time : Nat) (s : Supply) : Outcome (Market × SwapResult) :=
  match Clmm.swap m.config (m.supplied s) r time ⟨m.pool, m.pick s.starts⟩ with
  | .ok result b => do
    let oracle ← m.oracle.record (time % 2 ^ 32) b.pool.tick
    return ({ m with pool := b.pool, arrays := putBack m.arrays b.arrays, oracle }, result)
  | .error e _ => .error e

/-- Takes protocol fees out of the pool. -/
def takeProtocolFees (m : Market) (requested vaults : Pair Nat) : Market × Pair Nat :=
  let (pool, paid) := m.pool.takeProtocolFees requested vaults
  ({ m with pool }, paid)

/-- Takes fund fees out of the pool. -/
def takeFundFees (m : Market) (requested vaults : Pair Nat) : Market × Pair Nat :=
  let (pool, paid) := m.pool.takeFundFees requested vaults
  ({ m with pool }, paid)

end Market

end Clmm
