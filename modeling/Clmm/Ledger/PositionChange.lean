import Clmm.LiquidityChange
import Clmm.Ledger.Instruction
import Clmm.Ledger.Movement

/-!
# Clmm.Ledger.PositionChange

**Opening, changing and closing positions.** A position belongs to whoever holds the one token of its
mint. Opening a position creates this mint, with the pool as its issuer, and issues the one token.
Later instructions on the position ask for an account with this token and for its holder's
signature.
-/

namespace Clmm

namespace PositionChange

/-! ### The pool's side -/

/-- The accounts that a change of liquidity writes besides the position. -/
structure PoolSide where
  pool : Loaded Pool
  lower : Loaded TickArray
  upper : Loaded TickArray
  extension : Option (Loaded BitmapExtension)

namespace PoolSide

/-- The tick arrays, once if both boundary ticks lie in one. -/
def arrays (s : PoolSide) : List (Loaded TickArray) :=
  if s.lower.key = s.upper.key then [s.lower] else [s.lower, s.upper]

/-- What the change works on. -/
def book (s : PoolSide) (position : Position) : Book :=
  ⟨s.pool.value, position, s.arrays.map (·.value), s.extension.map (·.value)⟩

/-- Writes a changed book back, apart from the position. -/
def write (s : PoolSide) (b : Book) : Run Unit := do
  Run.put s.pool.key (.pool b.pool)
  (s.arrays.zip b.arrays).forM fun (a, array) => Run.put a.key (.tickArray array)
  match s.extension, b.extension with
  | some e, some extension => Run.put e.key (.extension extension)
  | _, _ => return ()

/-- Changes the liquidity of a position; what is left to write is the position. -/
def change {α : Type} (s : PoolSide) (position : Position) (u : Update Book α) :
    Run (Position × α) :=
  match u (s.book position) with
  | .ok a b => do
    s.write b
    return (b.position, a)
  | .error e _ => throw (.failed e)

/-- The tick arrays may be written and belong to the pool. -/
def demandArrays (s : PoolSide) : Verdict Unit := do
  s.lower.ref.demandWritable
  demand (s.lower.value.pool = s.pool.key) (.refused .invalidTickArray)
  s.upper.ref.demandWritable
  demand (s.upper.value.pool = s.pool.key) (.refused .invalidTickArray)

end PoolSide

/-! ### Opening -/

/-- The accounts of a position's opening. -/
structure OpenAccounts where
  payer : AccountRef
  holder : AccountRef
  nft : AccountRef
  nftAccount : AccountRef
  position : AccountRef
  side : PoolSide
  tokens : PoolTokens
  hooks : Loaded HookRegistry
  /-- The token program of the position's mint. -/
  nftProgram : AccountRef

/-- Takes the accounts. -/
def loadOpen : Loading OpenAccounts := do
  let payer ← Loading.signer
  let holder ← Loading.next
  let nft ← Loading.next
  let nftAccount ← Loading.next
  let pool ← Loading.pool
  let position ← Loading.next
  let lower ← Loading.tickArray
  let upper ← Loading.tickArray
  let account0 ← Loading.tokens
  let account1 ← Loading.tokens
  let vault0 ← Loading.tokens
  let vault1 ← Loading.tokens
  let mint0 ← Loading.mint
  let mint1 ← Loading.mint
  let extension ← Loading.extension?
  let hooks ← Loading.hooks
  let nftProgram ← Loading.anyTokenProgram
  let program0 ← Loading.anyTokenProgram
  let program1 ← Loading.anyTokenProgram
  let _ ← Loading.program holderTokenProgram
  let _ ← Loading.program systemProgram
  return { payer, holder, nft, nftAccount, position, side := { pool, lower, upper, extension }
           tokens := { accounts := ⟨account0, account1⟩, vaults := ⟨vault0, vault1⟩
                       mints := ⟨mint0, mint1⟩, programs := ⟨program0, program1⟩ }
           hooks, nftProgram }

/-- Creates the mint of a position. The pool is its issuer. -/
def createNft (a : OpenAccounts) : Run Unit := do
  makeRoom a.payer a.nft a.nft.isSigner
  Run.put a.nft.key (.mint ⟨a.nftProgram.key, 0, 0, some a.side.pool.key, none⟩)

/-- Creates the holder's own account of the position's mint. If another key is given, the key of this
account is missing. The program with extensions marks that the account stays with its holder. -/
def createNftAccount (a : OpenAccounts) : Run Unit := do
  let located ← holderAccount a.holder.key a.nftProgram.key a.nft.key
  demand (a.nftAccount.key = located.key) (.common .notEnoughAccountKeys)
  demand (a.nftAccount.isWritable) (.common .immutable)
  demand ((← Run.ledger).ownerOf a.nftAccount.key = systemProgram) (.common .illegalOwner)
  makeRoom a.payer a.nftAccount true
  let extension := if a.nftProgram.key = extendedTokenProgram then .fixedHolder else .none
  Run.put a.nftAccount.key (.token ⟨a.nftProgram.key, a.nft.key, a.holder.key, 0, extension⟩)

/-- Checks the accounts that existed before. -/
def checkOpen (a : OpenAccounts) (range : RangeChoice) : Verdict Unit := do
  let pool := a.side.pool
  a.payer.demandWritable
  pool.ref.demandWritable
  a.side.lower.ref.demandSite (.tickArray pool.key range.lowerStart)
  a.side.lower.ref.demandWritable
  a.side.upper.ref.demandSite (.tickArray pool.key range.upperStart)
  a.side.upper.ref.demandWritable
  a.tokens.demandAccounts
  a.tokens.demandVaults pool.value
  a.tokens.demandMints pool.value
  demandWritableExtension pool.key a.side.extension
  demandHooks a.hooks

/-- Opens a position with a deposit and issues its token. -/
def openPosition (range : RangeChoice) (deposit : Deposit) (refs : List AccountRef) : Run Unit := do
  let (a, rest) ← Loading.run loadOpen refs
  createNft a
  createNftAccount a
  let bump ← createAt a.payer a.position (.position a.nft.key) (.position .zeroed)
  checkOpen a range
  let pool := a.side.pool.key
  let legs ← a.tokens.authorized a.hooks rest
  let fresh := Position.zeroed.setUp bump a.nft.key pool range.lower range.upper
  let (position, liquidity, change) ← a.side.change fresh (addDeposit deposit)
  Run.put a.position.key (.position position)
  payInBoth legs a.payer.key rest change.amounts
  Run.call a.nftProgram.key (.mintTo a.nft.key a.nftAccount.key pool 1)
  Run.emit (.positionOpened pool a.payer.key a.holder.key range.lower range.upper liquidity
    change.amounts)
  Run.log s!"Position opened: {a.nft.key.toText}"
  Run.log s!"Tick range: [{range.lower}, {range.upper})"
  Run.log s!"Liquidity: {liquidity}, deposited: {change.amounts.zero} / {change.amounts.one}"

/-! ### Changing -/

/-- The accounts of a change of an existing position. -/
structure ChangeAccounts where
  holder : AccountRef
  nftAccount : Loaded TokenAccount
  position : Loaded Position
  side : PoolSide
  tokens : PoolTokens
  hooks : Loaded HookRegistry

/-- Takes the accounts. The accounts on the other side come before the vaults or after them. -/
def loadChange (vaultsFirst : Bool) : Loading ChangeAccounts := do
  let holder ← Loading.signer
  let nftAccount ← Loading.tokens
  let pool ← Loading.pool
  let position ← Loading.position
  let lower ← Loading.tickArray
  let upper ← Loading.tickArray
  let first0 ← Loading.tokens
  let first1 ← Loading.tokens
  let second0 ← Loading.tokens
  let second1 ← Loading.tokens
  let mint0 ← Loading.mint
  let mint1 ← Loading.mint
  let extension ← Loading.extension?
  let hooks ← Loading.hooks
  let program0 ← Loading.anyTokenProgram
  let program1 ← Loading.anyTokenProgram
  let first : Pair (Loaded TokenAccount) := ⟨first0, first1⟩
  let second : Pair (Loaded TokenAccount) := ⟨second0, second1⟩
  return { holder, nftAccount, position, side := { pool, lower, upper, extension }
           tokens := { accounts := if vaultsFirst then second else first
                       vaults := if vaultsFirst then first else second
                       mints := ⟨mint0, mint1⟩, programs := ⟨program0, program1⟩ }
           hooks }

/-- The signer holds the one token of the position. -/
def demandHolder (a : ChangeAccounts) : Verdict Unit := do
  demand (a.nftAccount.value.mint = a.position.value.nft) (.refused .notPositionOwner)
  demand (a.nftAccount.value.amount = 1) (.refused .notPositionOwner)
  demand (a.nftAccount.value.holder = a.holder.key) (.check .constraintTokenOwner)

/-- Checks the accounts of a change. -/
def checkChange (a : ChangeAccounts) (vaultsFirst : Bool) : Verdict Unit := do
  let pool := a.side.pool
  demandHolder a
  pool.ref.demandWritable
  a.position.ref.demandWritable
  demand (a.position.value.pool = pool.key) (.refused .invalidPosition)
  a.side.demandArrays
  if vaultsFirst then
    a.tokens.demandVaults pool.value
    a.tokens.demandAccounts
  else
    a.tokens.demandAccounts
    a.tokens.demandVaults pool.value
  a.tokens.demandMints pool.value
  demandWritableExtension pool.key a.side.extension
  demandHooks a.hooks

/-- Adds a deposit to a position. -/
def increaseLiquidity (deposit : Deposit) (refs : List AccountRef) : Run Unit := do
  let (a, rest) ← Loading.run (loadChange false) refs
  checkChange a false
  let legs ← a.tokens.authorized a.hooks rest
  let (position, liquidity, change) ← a.side.change a.position.value (addDeposit deposit)
  Run.put a.position.key (.position position)
  payInBoth legs a.holder.key rest change.amounts
  Run.emit (.liquidityIncreased position.nft liquidity change.amounts)
  Run.log s!"Liquidity increased by {liquidity}"
  Run.log s!"Deposited: {change.amounts.zero} / {change.amounts.one}"

/-- What a decrease pays out: the principal and the fees. -/
def payout (change : LiquidityChange) : Outcome (Pair Nat) := do
  return ⟨← narrow 64 (change.amounts.zero + change.fees.zero) .mathOverflow,
          ← narrow 64 (change.amounts.one + change.fees.one) .mathOverflow⟩

/-- Removes liquidity from a position and pays it out together with the owed fees. -/
def decreaseLiquidity (liquidity : Nat) (minima : Pair Nat) (refs : List AccountRef) :
    Run Unit := do
  let (a, rest) ← Loading.run (loadChange true) refs
  checkChange a true
  let legs ← a.tokens.authorized a.hooks rest
  let (position, change) ← a.side.change a.position.value
    (Clmm.decreaseLiquidity liquidity minima)
  Run.put a.position.key (.position position)
  payOutBoth legs a.side.pool.key rest (← payout change)
  Run.emit (.liquidityDecreased position.nft liquidity change.amounts change.fees)
  let (amounts, fees) := (change.amounts, change.fees)
  Run.log s!"Liquidity decreased by {liquidity}"
  Run.log s!"Withdrawn: {amounts.zero} / {amounts.one}, fees: {fees.zero} / {fees.one}"

/-! ### Closing -/

/-- The accounts of a position's end. -/
structure CloseAccounts where
  holder : AccountRef
  nft : Loaded Mint
  nftAccount : Loaded TokenAccount
  position : Loaded Position
  nftProgram : AccountRef

/-- Takes the accounts. -/
def loadClose : Loading CloseAccounts := do
  let holder ← Loading.signer
  let nft ← Loading.mint
  let nftAccount ← Loading.tokens
  let position ← Loading.position
  let nftProgram ← Loading.anyTokenProgram
  let _ ← Loading.program systemProgram
  return { holder, nft, nftAccount, position, nftProgram }

/-- The signer holds the one token of the position, and nothing is left in the position. -/
def checkClose (a : CloseAccounts) : Verdict Unit := do
  a.holder.demandWritable
  a.nft.ref.demandWritable
  a.nft.ref.demandKey a.position.value.nft (.refused .invalidPosition)
  a.nftAccount.ref.demandWritable
  demand (a.nftAccount.value.amount = 1) (.refused .notPositionOwner)
  demand (a.nftAccount.value.holder = a.holder.key) (.check .constraintTokenOwner)
  demand (a.nftAccount.value.mint = a.nft.key) (.check .constraintTokenMint)
  a.position.ref.demandSiteAt (.position a.nft.key) a.position.value.bump
  a.position.ref.demandWritable
  demand (a.position.value.isEmpty) (.refused .positionNotEmpty)
  demand (a.position.key ≠ a.holder.key) (.check .constraintClose)

/-- Closes an empty position and destroys its token. -/
def closePosition (refs : List AccountRef) : Run Unit := do
  let (a, _) ← Loading.run loadClose refs
  checkClose a
  let program := a.nftProgram.key
  Run.call program (.burn a.nftAccount.key a.nft.key a.holder.key 1)
  Run.call program (.closeAccount a.nftAccount.key a.holder.key a.holder.key)
  Run.log s!"Position closed: {a.nft.key.toText}"
  Run.onLedger fun l => .ok (l.remove a.position.key)

end PositionChange

end Clmm
