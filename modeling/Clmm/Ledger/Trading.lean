import Clmm.LeadingArrays
import Clmm.Swap
import Clmm.Ledger.Instruction
import Clmm.Ledger.Movement

/-!
# Clmm.Ledger.Trading

**Swaps.** The direction of a swap follows from which of the two vaults is given as the one to pay into.
The tick arrays stand in front of the accounts that the instruction leaves over. After the swap the
pool's oracle records the tick that was reached.
-/

namespace Clmm

namespace Trading

/-- The accounts of a swap. -/
structure Accounts where
  payer : AccountRef
  config : Loaded FeeConfig
  pool : Loaded Pool
  inputAccount : Loaded TokenAccount
  outputAccount : Loaded TokenAccount
  inputVault : Loaded TokenAccount
  outputVault : Loaded TokenAccount
  oracle : Loaded Oracle
  hooks : Loaded HookRegistry
  extension : Option (Loaded BitmapExtension)
  inputProgram : AccountRef
  outputProgram : AccountRef
  inputMint : Loaded Mint
  outputMint : Loaded Mint

/-- Takes the accounts. -/
def load : Loading Accounts := do
  let payer ← Loading.signer
  let config ← Loading.config
  let pool ← Loading.pool
  let inputAccount ← Loading.tokens
  let outputAccount ← Loading.tokens
  let inputVault ← Loading.tokens
  let outputVault ← Loading.tokens
  let oracle ← Loading.oracle
  let hooks ← Loading.hooks
  let extension ← Loading.extension?
  let inputProgram ← Loading.anyTokenProgram
  let outputProgram ← Loading.anyTokenProgram
  let inputMint ← Loading.mint
  let outputMint ← Loading.mint
  return { payer, config, pool, inputAccount, outputAccount, inputVault, outputVault, oracle, hooks,
           extension, inputProgram, outputProgram, inputMint, outputMint }

/-- Checks the accounts. -/
def check (a : Accounts) : Verdict Unit := do
  let pool := a.pool.value
  a.config.ref.demandKey pool.config (.check .constraintAddress)
  a.pool.ref.demandWritable
  a.inputAccount.ref.demandWritable
  a.outputAccount.ref.demandWritable
  a.inputVault.ref.demandWritable
  a.outputVault.ref.demandWritable
  a.oracle.ref.demandWritable
  a.oracle.ref.demandKey pool.observation (.check .constraintAddress)
  demandHooks a.hooks
  demandExtension a.pool.key a.extension
  a.inputMint.ref.demandKey a.inputVault.value.mint (.refused .invalidTokenMint)
  a.outputMint.ref.demandKey a.outputVault.value.mint (.refused .invalidTokenMint)

/-- The direction that the vaults show. -/
def direction (a : Accounts) : Outcome Direction := do
  let vaults := a.pool.value.vaults
  if a.inputVault.key = vaults.zero then
    require (a.outputVault.key = vaults.one) .invalidVault
    return .down
  else
    require (a.inputVault.key = vaults.one) .invalidVault
    require (a.outputVault.key = vaults.zero) .invalidVault
    return .up

/-- The tick array of a pool at a key, `none` if there is no tick array. -/
def arrayAt? (l : Ledger) (pool : Key) (ref : AccountRef) :
    Outcome (Option (Loaded TickArray)) := do
  match (l.get? ref.key).bind Account.asTickArray? with
  | none => return none
  | some array =>
    require (array.pool = pool) .invalidTickArray
    return some ⟨ref, array⟩

/-- Every tick array may be written and is given once. -/
def demandArrays (seen : List Key) : List (Loaded TickArray) → Verdict Unit
  | [] => .ok ()
  | a :: rest => do
    demand (a.ref.isWritable) (.check .accountNotMutable)
    demand (a.key ∉ seen) (.common .accountBorrowFailed)
    demandArrays (a.key :: seen) rest

/-- Runs the swap on the pool and its tick arrays. -/
def runSwap (a : Accounts) (arrays : List (Loaded TickArray)) (request : SwapRequest) :
    Run (SwapResult × Pool) := do
  let time := (← Run.ledger).timestamp
  let book : SwapBook := ⟨a.pool.value, arrays.map (·.value)⟩
  match Clmm.swap a.config.value (a.extension.map (·.value)) request time book with
  | .error e _ => throw (.failed e)
  | .ok result b =>
    Run.put a.pool.key (.pool b.pool)
    (arrays.zip b.arrays).forM fun (x, array) => Run.put x.key (.tickArray array)
    let oracle ← a.oracle.value.record (time % 2 ^ 32) b.pool.tick
    Run.put a.oracle.key (.oracle oracle)
    return (result, b.pool)

/-- A quantity of the input and one of the output, by token. -/
def byToken {α : Type} (d : Direction) (input output : α) : Pair α :=
  match d with
  | .down => ⟨input, output⟩
  | .up => ⟨output, input⟩

/-- How a direction is logged. -/
def arrow : Direction → String
  | .down => "0 -> 1"
  | .up => "1 -> 0"

/-- Swaps against a pool. -/
def swap (terms : SwapTerms) (refs : List AccountRef) : Run Unit := do
  let (a, remaining) ← Loading.run load refs
  check a
  let d ← direction a
  let (arrays, rest) ← takeLeading (arrayAt? (← Run.ledger) a.pool.key) remaining
  let inputHook ← authorizeHook a.hooks a.inputMint rest
  let outputHook ← authorizeHook a.hooks a.outputMint rest
  demandArrays [] arrays
  let (result, pool) ← runSwap a arrays
    { amount := terms.amount, threshold := terms.threshold, limit := terms.limit, mode := terms.mode,
      direction := d }
  let input : Leg := ⟨a.inputProgram.key, a.inputMint, a.inputVault, a.inputAccount, inputHook⟩
  let output : Leg := ⟨a.outputProgram.key, a.outputMint, a.outputVault, a.outputAccount, outputHook⟩
  input.payIn a.payer.key rest result.amountIn
  output.payOut a.pool.key rest result.amountOut
  Run.emit (.swapped a.pool.key a.payer.key (byToken d a.inputAccount.key a.outputAccount.key)
    (byToken d result.amountIn result.amountOut) result.fee d pool.sqrtPrice pool.liquidity pool.tick)
  let (paid, gained, fee) := (result.amountIn, result.amountOut, result.fee)
  Run.log s!"Swap: {arrow d}"
  Run.log s!"In: {paid}, Out: {gained}, Fee: {fee}, Ticks crossed: {result.crossed}"

end Trading

end Clmm
