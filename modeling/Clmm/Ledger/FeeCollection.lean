import Clmm.Ledger.Instruction
import Clmm.Ledger.Movement

/-!
# Clmm.Ledger.FeeCollection

**Collecting fees.** The owners named in a pool's fee config take the accrued shares of the protocol
and the fund out of the pool, up to what they ask for.
-/

namespace Clmm

namespace FeeCollection

/-- The accounts of a collection. -/
structure Accounts where
  owner : AccountRef
  pool : Loaded Pool
  config : Loaded FeeConfig
  tokens : PoolTokens
  hooks : Loaded HookRegistry

/-- Takes the accounts. -/
def load : Loading Accounts := do
  let owner ← Loading.signer
  let pool ← Loading.pool
  let config ← Loading.config
  let vault0 ← Loading.tokens
  let vault1 ← Loading.tokens
  let mint0 ← Loading.mint
  let mint1 ← Loading.mint
  let recipient0 ← Loading.tokens
  let recipient1 ← Loading.tokens
  let hooks ← Loading.hooks
  let program0 ← Loading.anyTokenProgram
  let program1 ← Loading.anyTokenProgram
  return { owner, pool, config, hooks
           tokens := { accounts := ⟨recipient0, recipient1⟩, vaults := ⟨vault0, vault1⟩
                       mints := ⟨mint0, mint1⟩, programs := ⟨program0, program1⟩ } }

/-- Checks the accounts. -/
def check (a : Accounts) : Verdict Unit := do
  let pool := a.pool.value
  a.pool.ref.demandWritable
  a.config.ref.demandKey pool.config (.check .constraintAddress)
  a.tokens.demandVaults pool
  a.tokens.demandMints pool
  a.tokens.demandAccounts
  demandHooks a.hooks

/-- Whether a key may collect a share. -/
def mayCollect (config : FeeConfig) (k : Key) : FeeShare → Bool
  | .protocol => config.isOwner k
  | .fund => config.isFundOwner k

/-- Takes a share out of the pool's books. -/
def take (pool : Pool) (requested vaults : Pair Nat) : FeeShare → Pool × Pair Nat
  | .protocol => pool.takeProtocolFees requested vaults
  | .fund => pool.takeFundFees requested vaults

/-- Collects a share of the fees. -/
def collectFees (share : FeeShare) (requested : Pair Nat) (refs : List AccountRef) : Run Unit := do
  let (a, rest) ← Loading.run load refs
  check a
  demand (mayCollect a.config.value a.owner.key share) (.refused .unauthorized)
  let legs ← a.tokens.authorized a.hooks rest
  let held : Pair Nat := Pair.ofFn fun x => (a.tokens.vaults.get x).value.amount
  let (pool, paid) := take a.pool.value requested held share
  Run.put a.pool.key (.pool pool)
  payOutBoth legs a.pool.key rest paid
  Run.emit (.feesCollected a.pool.key (Pair.ofFn fun x => (a.tokens.accounts.get x).key) paid)
  Run.log s!"{share.name} fees collected: {paid.zero} / {paid.one}"

end FeeCollection

end Clmm
