import Clmm.Arith
import Clmm.Fee
import Clmm.Key
import Clmm.Token

/-!
# Clmm.Position

**Liquidity positions.** A position is liquidity on the ticks from `lower` up to, not including,
`upper`. It belongs to whoever holds its token. Fees are settled lazily: the position remembers the
fee growth inside its range at the last settlement and owes itself the rest.
-/

namespace Clmm

/-- A liquidity position. -/
structure Position where
  /-- The bump of the position's address. -/
  bump : Nat
  /-- The mint of the token whose holder controls the position. -/
  nft : Key
  /-- The pool the position belongs to. -/
  pool : Key
  lower : Int
  upper : Int
  liquidity : Nat
  /-- Fee growth inside the range at the last settlement. -/
  growthLast : Pair Growth
  /-- Fees settled and not yet paid out. -/
  owed : Pair Nat
  /-- Room for later use. -/
  reserved : Vector Nat 4
deriving DecidableEq

namespace Position

/-- A position before it is set up: all zero. -/
def zeroed : Position :=
  { bump := 0, nft := 0, pool := 0, lower := 0, upper := 0, liquidity := 0,
    growthLast := Pair.both 0, owed := Pair.both 0, reserved := Vector.replicate 4 0 }

/-- Binds a position to its token, pool and range, without liquidity or fees. -/
def setUp (p : Position) (bump : Nat) (nft pool : Key) (lower upper : Int) : Position :=
  { p with bump, nft, pool, lower, upper, liquidity := 0, growthLast := Pair.both 0,
           owed := Pair.both 0 }

/-- Whether nothing is left in the position. -/
def isEmpty (p : Position) : Bool :=
  p.liquidity = 0 && p.owed.zero = 0 && p.owed.one = 0

/-- The fees on `liquidity` for the growth from `last` to `inside`. -/
def accrued (liquidity : Nat) (inside last : Growth) : Outcome Nat := do
  let delta := inside - last
  if delta = 0 ∨ liquidity = 0 then return 0
  narrow 64 (← mulDiv .down delta.toNat liquidity (2 ^ 64)) .maxTokenOverflow

/-- Fees since the last settlement, given the growth inside the range now. -/
def pendingFees (p : Position) (inside : Pair Growth) : Outcome (Pair Nat) := do
  return ⟨← accrued p.liquidity inside.zero p.growthLast.zero,
          ← accrued p.liquidity inside.one p.growthLast.one⟩

/-- Settles the fees since the last settlement. -/
def settle (p : Position) (inside : Pair Growth) : Outcome Position := do
  let fees ← p.pendingFees inside
  let owed0 ← narrow 64 (p.owed.zero + fees.zero) .mathOverflow
  let owed1 ← narrow 64 (p.owed.one + fees.one) .mathOverflow
  return { p with owed := ⟨owed0, owed1⟩, growthLast := inside }

end Position

end Clmm
