import Clmm.Base58
import Clmm.Ledger.Loading

/-!
# Clmm.Ledger.Governance

**Fee configs and the hook registry**: the instructions of the administrator, of the registry's
authority, and of anyone who proposes a hook program.
-/

namespace Clmm

namespace Governance

/-- Creates a fee config. Only the administrator may, and becomes the owner of both shares. -/
def createConfig (index : Nat) (params : FeeConfig.Params) (refs : List AccountRef) : Run Unit := do
  let ((owner, target), _) ← Loading.run (do
    let owner ← Loading.signer
    let target ← Loading.next
    let _ ← Loading.program systemProgram
    return (owner, target)) refs
  let bump ← createAt owner target (.config index) (.config .zeroed)
  owner.demandWritable
  let config ← FeeConfig.zeroed.setUp owner.key adminKey bump index params
  Run.put target.key (.config config)
  Run.emit (.configCreated target.key index params)
  Run.log s!"AMM config {index} created"
  Run.log s!"Tick spacing: {params.spacing}"
  Run.log s!"Fee rates: trade {params.tradeRate}, protocol {params.protocolRate}, fund {params.fundRate}"

/-- Creates the hook registry. Only the administrator may, and becomes its authority. -/
def createHooks (refs : List AccountRef) : Run Unit := do
  let ((admin, target), _) ← Loading.run (do
    let admin ← Loading.signer
    let target ← Loading.next
    let _ ← Loading.program systemProgram
    return (admin, target)) refs
  let bump ← createAt admin target .hooks (.hooks (.empty 0 0))
  admin.demandWritable
  demand (admin.key = adminKey) (.refused .unauthorized)
  Run.put target.key (.hooks (.empty admin.key bump))
  Run.log s!"Hook registry initialized, authority {admin.key.toText}"

/-- Registers a hook program as pending. Anyone may. -/
def registerHook (program : Key) (refs : List AccountRef) : Run Unit := do
  let (hooks, _) ← Loading.run Loading.hooks refs
  demandHooks hooks
  hooks.ref.demandWritable
  let registry ← hooks.value.register program
  Run.put hooks.key (.hooks registry)
  Run.emit (.hookRegistered program)
  Run.log s!"Hook program {program.toText} registered, pending approval"

/-- Approves a pending hook program. Only the registry's authority may. -/
def approveHook (program : Key) (refs : List AccountRef) : Run Unit := do
  let ((hooks, authority), _) ← Loading.run (do
    let hooks ← Loading.hooks
    let authority ← Loading.signer
    return (hooks, authority)) refs
  demandHooks hooks
  hooks.ref.demandWritable
  let registry ← hooks.value.approve authority.key program
  Run.put hooks.key (.hooks registry)
  Run.emit (.hookApproved program authority.key)
  Run.log s!"Hook program {program.toText} approved"

end Governance

end Clmm
