import Clmm.Ledger.FeeCollection
import Clmm.Ledger.Governance
import Clmm.Ledger.PoolCreation
import Clmm.Ledger.PositionChange
import Clmm.Ledger.Trading

/-!
# Clmm.Ledger.Processor

**The program.** `execute` runs one instruction on a ledger: it reads the data, takes and checks the
accounts, and does what the instruction says. The result is the new ledger and the trace, or the
reason of the rejection, and then the ledger stays as it was.
-/

namespace Clmm

namespace Processor

/-- Gives every occurrence of a key the flags of all its occurrences. -/
def shareFlags (refs : List AccountRef) : List AccountRef :=
  refs.map fun ref =>
    let same := refs.filter (·.key = ref.key)
    { ref with isSigner := same.any (·.isSigner), isWritable := same.any (·.isWritable) }

/-- What each instruction does. -/
def dispatch (refs : List AccountRef) : Instruction → Run Unit
  | .createConfig index params => Governance.createConfig index params refs
  | .createHooks => Governance.createHooks refs
  | .registerHook program => Governance.registerHook program refs
  | .approveHook program => Governance.approveHook program refs
  | .createPool sqrtPrice openTime => PoolCreation.createPool sqrtPrice openTime refs
  | .createTickArray start => PoolCreation.createTickArray start refs
  | .openPosition range deposit => PositionChange.openPosition range deposit refs
  | .closePosition => PositionChange.closePosition refs
  | .increaseLiquidity deposit => PositionChange.increaseLiquidity deposit refs
  | .decreaseLiquidity liquidity minima =>
    PositionChange.decreaseLiquidity liquidity minima refs
  | .swap terms => Trading.swap terms refs
  | .collectFees share requested => FeeCollection.collectFees share requested refs

/-- Runs an instruction that was read. -/
def runInstruction (i : Instruction) (refs : List AccountRef) : Run Unit := do
  Run.log s!"Instruction: {i.kind.title}"
  dispatch (shareFlags refs) i

end Processor

/-- Runs the instruction with the given data on the given accounts. -/
def Ledger.execute (l : Ledger) (data : Bytes) (refs : List AccountRef) : Verdict (Ledger × Trace) := do
  let i ← Instruction.ofBytes data
  let (_, e) ← Processor.runInstruction i refs ⟨l, Trace.empty⟩
  return (e.ledger, e.trace)

end Clmm
