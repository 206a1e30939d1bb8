import Clmm.Base58
import Clmm.Ledger.Loading

/-!
# Clmm.Ledger.Movement

**Moving the tokens of a pool.** Before tokens of a pool move, the hook programs of both mints are
authorized: each has to be approved and among the accounts that the instruction was given beyond its
own. A transfer of nothing is not made.
-/

namespace Clmm

/-- Authorizes the hook program of a mint, if it has one. -/
def authorizeHook (registry : Loaded HookRegistry) (mint : Loaded Mint) (rest : List AccountRef) :
    Run (Option Key) := do
  match ← registry.value.authorize mint.value.hookProgram (rest.map (·.key)) with
  | none => return none
  | some program =>
    Run.log s!"Transfer hook {program.toText} approved for mint {mint.key.toText}"
    return some program

/-- One token of a pool, as an instruction sees it. -/
structure Leg where
  /-- The token program to call. -/
  program : Key
  mint : Loaded Mint
  vault : Loaded TokenAccount
  /-- The account on the other side. -/
  account : Loaded TokenAccount
  /-- The hook program that was authorized. -/
  hook : Option Key

namespace Leg

/-- The accounts that a transfer needs beyond its four. A hook program is called with the further
signers that were given, and is itself one of the accounts. -/
def further (leg : Leg) (rest : List AccountRef) : List Key :=
  match leg.hook with
  | none => []
  | some program => (rest.filter (·.isSigner)).map (·.key) ++ [program]

/-- Pays tokens into the vault. -/
def payIn (leg : Leg) (authority : Key) (rest : List AccountRef) (amount : Nat) : Run Unit :=
  if amount = 0 then return ()
  else Run.call leg.program (.transfer leg.account.key leg.mint.key leg.vault.key authority amount
    leg.mint.value.decimals (leg.further rest))

/-- Pays tokens out of the vault, which the pool signs for. -/
def payOut (leg : Leg) (pool : Key) (rest : List AccountRef) (amount : Nat) : Run Unit :=
  if amount = 0 then return ()
  else Run.call leg.program (.transfer leg.vault.key leg.mint.key leg.account.key pool amount
    leg.mint.value.decimals (leg.further rest))

end Leg

/-- Both tokens of a pool, as an instruction sees them. -/
structure PoolTokens where
  accounts : Pair (Loaded TokenAccount)
  vaults : Pair (Loaded TokenAccount)
  mints : Pair (Loaded Mint)
  programs : Pair AccountRef

namespace PoolTokens

/-- The accounts may be written and are of the mints of the vaults. -/
def demandAccounts (t : PoolTokens) : Verdict Unit := do
  one t .zero
  one t .one
where
  /-- The check of one token. -/
  one (t : PoolTokens) (x : Token) : Verdict Unit := do
    (t.accounts.get x).ref.demandWritable
    demand ((t.accounts.get x).value.mint = (t.vaults.get x).value.mint) (.check .constraintTokenMint)

/-- The vaults may be written and are those of the pool. -/
def demandVaults (t : PoolTokens) (pool : Pool) : Verdict Unit := do
  one t pool .zero
  one t pool .one
where
  /-- The check of one token. -/
  one (t : PoolTokens) (pool : Pool) (x : Token) : Verdict Unit := do
    (t.vaults.get x).ref.demandWritable
    demand ((t.vaults.get x).key = pool.vaults.get x) (.refused .invalidVault)

/-- The mints are those of the pool. -/
def demandMints (t : PoolTokens) (pool : Pool) : Verdict Unit := do
  (t.mints.zero.ref.demandKey pool.mints.zero (.refused .invalidTokenMint))
  (t.mints.one.ref.demandKey pool.mints.one (.refused .invalidTokenMint))

/-- Authorizes the hook programs of both mints and gives what transfers need. -/
def authorized (t : PoolTokens) (registry : Loaded HookRegistry) (rest : List AccountRef) :
    Run (Pair Leg) := do
  let hook0 ← authorizeHook registry t.mints.zero rest
  let hook1 ← authorizeHook registry t.mints.one rest
  return ⟨⟨t.programs.zero.key, t.mints.zero, t.vaults.zero, t.accounts.zero, hook0⟩,
    ⟨t.programs.one.key, t.mints.one, t.vaults.one, t.accounts.one, hook1⟩⟩

end PoolTokens

/-- Pays both tokens into the vaults. -/
def payInBoth (legs : Pair Leg) (authority : Key) (rest : List AccountRef) (amounts : Pair Nat) :
    Run Unit := do
  legs.zero.payIn authority rest amounts.zero
  legs.one.payIn authority rest amounts.one

/-- Pays both tokens out of the vaults. -/
def payOutBoth (legs : Pair Leg) (pool : Key) (rest : List AccountRef) (amounts : Pair Nat) :
    Run Unit := do
  legs.zero.payOut pool rest amounts.zero
  legs.one.payOut pool rest amounts.one

end Clmm
