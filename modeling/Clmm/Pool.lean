import Clmm.Bitmap
import Clmm.FeeConfig

/-!
# Clmm.Pool

**The state of a pool**: its price, the liquidity in range, the fee counters and the books of fees
and volumes. Fees and volumes are added one after the other, each with its own check, so a pool can
be left with the first addition done when the second is refused; these operations are `Update`s and
show that state.
-/

namespace Clmm

/-- The state of a pool. -/
structure Pool where
  /-- The liquidity in range at the current price. -/
  liquidity : Nat
  /-- The current price. -/
  sqrtPrice : Nat
  /-- Fee growth per unit of liquidity. -/
  growth : Pair Growth
  /-- All amounts ever swapped in. -/
  volumeIn : Pair Nat
  /-- All amounts ever swapped out. -/
  volumeOut : Pair Nat
  /-- Fees owed to the protocol. -/
  protocolFees : Pair Nat
  /-- Fees owed to the fund. -/
  fundFees : Pair Nat
  /-- The time from which swaps are allowed. -/
  openTime : Nat
  /-- The native span of the bitmap of arrays. -/
  bitmap : NativeBitmap
  /-- The current tick. -/
  tick : Int
  spacing : Nat
  /-- The bump of the pool's address. -/
  bump : Nat
  /-- The decimals of the two mints. -/
  decimals : Pair Nat
  /-- The config the pool was created under. -/
  config : Key
  /-- Who created the pool. -/
  owner : Key
  mints : Pair Key
  vaults : Pair Key
  /-- The pool's oracle. -/
  observation : Key
deriving DecidableEq

namespace Pool

/-- A pool before it is set up: all zero. -/
def zeroed : Pool :=
  { liquidity := 0, sqrtPrice := 0, growth := Pair.both 0, volumeIn := Pair.both 0,
    volumeOut := Pair.both 0, protocolFees := Pair.both 0, fundFees := Pair.both 0, openTime := 0,
    bitmap := Vector.replicate _ 0, tick := 0, spacing := 0, bump := 0, decimals := Pair.both 0,
    config := 0, owner := 0, mints := Pair.both 0, vaults := Pair.both 0, observation := 0 }

/-- The accounts a new pool is bound to. -/
structure Binding where
  config : Key
  owner : Key
  mints : Pair Key
  vaults : Pair Key
  observation : Key
  decimals : Pair Nat
deriving DecidableEq

/-- A new pool at a starting price. -/
def fresh (bump : Nat) (b : Binding) (spacing sqrtPrice openTime : Nat) : Outcome Pool := do
  require (b.mints.zero < b.mints.one) .invalidTokenOrder
  let tick ← Clmm.tickAt sqrtPrice
  return { zeroed with
    bump, config := b.config, owner := b.owner, mints := b.mints, vaults := b.vaults,
    observation := b.observation, decimals := b.decimals, spacing, sqrtPrice, tick, openTime }

/-- Whether swaps are allowed at `time`. -/
def isOpen (p : Pool) (time : Nat) : Bool := p.openTime ≤ time

/-- The bitmap of arrays as far as the given extension shows it. -/
def bitmapView (p : Pool) (extension : Option BitmapExtension) : BitmapView :=
  ⟨p.bitmap, extension, p.spacing⟩

/-- The seeds with which the pool signs for itself. -/
def signerSeeds (p : Pool) : List Bytes :=
  [Bytes.ofText "pool", p.config.toBytes, p.mints.zero.toBytes, p.mints.one.toBytes,
   [UInt8.ofNat p.bump]]

/-- Books the shares of a swap's fees on the input token: the protocol's first, then the fund's. -/
def accrueFees (d : Direction) (protocol fund : Nat) : Update Pool Unit := do
  let owed ← narrow 64 ((← get).protocolFees.get d.input + protocol) .mathOverflow
  modify fun p => { p with protocolFees := p.protocolFees.set d.input owed }
  let owed ← narrow 64 ((← get).fundFees.get d.input + fund) .mathOverflow
  modify fun p => { p with fundFees := p.fundFees.set d.input owed }

/-- Adds a settled swap to the volumes: what came in first, then what went out. -/
def recordVolume (d : Direction) (amountIn amountOut : Nat) : Update Pool Unit := do
  let total ← narrow 128 ((← get).volumeIn.get d.input + amountIn) .mathOverflow
  modify fun p => { p with volumeIn := p.volumeIn.set d.input total }
  let total ← narrow 128 ((← get).volumeOut.get d.output + amountOut) .mathOverflow
  modify fun p => { p with volumeOut := p.volumeOut.set d.output total }

/-- What may be taken of each token: no more than requested, than accrued, and than the vault holds. -/
def payable (accrued requested vaults : Pair Nat) : Pair Nat :=
  Pair.ofFn fun x => min (min (requested.get x) (accrued.get x)) (vaults.get x)

/-- What is left of accrued fees after a payment. -/
def afterPaying (accrued paid : Pair Nat) : Pair Nat :=
  Pair.ofFn fun x => accrued.get x - paid.get x

/-- Takes protocol fees; the pair is what is to be paid out. -/
def takeProtocolFees (p : Pool) (requested vaults : Pair Nat) : Pool × Pair Nat :=
  let paid := payable p.protocolFees requested vaults
  ({ p with protocolFees := afterPaying p.protocolFees paid }, paid)

/-- Takes fund fees; the pair is what is to be paid out. -/
def takeFundFees (p : Pool) (requested vaults : Pair Nat) : Pool × Pair Nat :=
  let paid := payable p.fundFees requested vaults
  ({ p with fundFees := afterPaying p.fundFees paid }, paid)

end Pool

end Clmm
