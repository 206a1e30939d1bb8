import Clmm.Base58
import Clmm.Ledger.Loading

/-!
# Clmm.Ledger.PoolCreation

**New pools and new tick arrays.** A pool comes with its vaults, its oracle and its bitmap extension,
all created at once; tick arrays are created one by one, by anyone who pays for them.
-/

namespace Clmm

namespace PoolCreation

/-- The accounts of a pool's creation. -/
structure Accounts where
  creator : AccountRef
  config : Loaded FeeConfig
  pool : AccountRef
  mints : Pair (Loaded Mint)
  vaults : Pair AccountRef
  oracle : AccountRef
  extension : AccountRef
  programs : Pair AccountRef

/-- Takes the accounts. -/
def load : Loading Accounts := do
  let creator ← Loading.signer
  let config ← Loading.config
  let pool ← Loading.next
  let mint0 ← Loading.mint
  let mint1 ← Loading.mint
  let vault0 ← Loading.next
  let vault1 ← Loading.next
  let oracle ← Loading.next
  let extension ← Loading.next
  let program0 ← Loading.anyTokenProgram
  let program1 ← Loading.anyTokenProgram
  let _ ← Loading.program systemProgram
  return { creator, config, pool, mints := ⟨mint0, mint1⟩, vaults := ⟨vault0, vault1⟩, oracle,
           extension, programs := ⟨program0, program1⟩ }

/-- Creates the vault of one token. -/
def createVault (a : Accounts) (x : Token) : Run Unit := do
  let mint := a.mints.get x
  let vault := a.vaults.get x
  vault.demandSite (.vault a.pool.key mint.key)
  makeRoom a.creator vault true
  let tokens ← TokenProgram.freshAccount (a.programs.get x).key mint.key a.pool.key mint.value
  Run.put vault.key (.token tokens)

/-- Creates every account of the pool and gives the bump of the pool's address. -/
def create (a : Accounts) : Run Nat := do
  let bump ← createAt a.creator a.pool (.pool a.config.key a.mints.zero.key a.mints.one.key)
    (.pool .zeroed)
  createVault a .zero
  createVault a .one
  let _ ← createAt a.creator a.oracle (.oracle a.pool.key) (.oracle (.fresh 0))
  let _ ← createAt a.creator a.extension (.extension a.pool.key) (.extension (.empty 0))
  return bump

/-- The mints are in order and belong to the token programs that were given. -/
def check (a : Accounts) : Verdict Unit := do
  a.creator.demandWritable
  demand (a.mints.zero.key < a.mints.one.key) (.refused .invalidTokenOrder)
  demand (a.mints.zero.value.program = a.programs.zero.key) (.check .constraintMintTokenProgram)
  demand (a.mints.one.value.program = a.programs.one.key) (.check .constraintMintTokenProgram)

/-- What the new pool is bound to. -/
def binding (a : Accounts) : Pool.Binding :=
  { config := a.config.key
    owner := a.creator.key
    mints := Pair.ofFn fun x => (a.mints.get x).key
    vaults := Pair.ofFn fun x => (a.vaults.get x).key
    observation := a.oracle.key
    decimals := Pair.ofFn fun x => (a.mints.get x).value.decimals }

/-- Creates a pool under a fee config, at a starting price. -/
def createPool (sqrtPrice openTime : Nat) (refs : List AccountRef) : Run Unit := do
  let (a, _) ← Loading.run load refs
  let bump ← create a
  check a
  let b := binding a
  let spacing := a.config.value.spacing
  let pool ← Pool.fresh bump b spacing sqrtPrice openTime
  Run.put a.pool.key (.pool pool)
  Run.put a.oracle.key (.oracle (.fresh a.pool.key))
  Run.put a.extension.key (.extension (.empty a.pool.key))
  Run.emit (.poolCreated a.pool.key b.mints spacing sqrtPrice pool.tick b.vaults)
  Run.log s!"Pool created: {a.pool.key.toText}"
  Run.log s!"Token 0: {b.mints.zero.toText}"
  Run.log s!"Token 1: {b.mints.one.toText}"
  Run.log s!"Initial sqrt price: {sqrtPrice}"
  Run.log s!"Initial tick: {pool.tick}"

/-- Creates a tick array of a pool. -/
def createTickArray (start : Int) (refs : List AccountRef) : Run Unit := do
  let ((pool, target, payer), _) ← Loading.run (do
    let pool ← Loading.pool
    let target ← Loading.next
    let payer ← Loading.signer
    let _ ← Loading.program systemProgram
    return (pool, target, payer)) refs
  let bump ← createAt payer target (.tickArray pool.key start) (.tickArray .zeroed)
  payer.demandWritable
  let array ← TickArray.fresh pool.key start pool.value.spacing bump
  Run.put target.key (.tickArray array)
  Run.log "Tick array initialized"
  Run.log s!"Pool: {pool.key.toText}"
  Run.log s!"Start tick index: {start}"

end PoolCreation

end Clmm
