import Clmm.Key
import Clmm.Outcome

/-!
# Clmm.HookRegistry

**Which transfer hooks may run.** A mint may name a program that is called on every transfer. Pools
move such tokens only once the program is approved. Anyone may register a program, which is then
pending; the registry's authority approves pending programs. There is no way back, and a program has
at most one entry.
-/

namespace Clmm

/-- How far a registered program got. -/
inductive HookStatus
  | pending
  | approved
deriving DecidableEq, Repr, Inhabited

/-- A registered program. -/
structure HookEntry where
  program : Key
  status : HookStatus
deriving DecidableEq, Inhabited

/-- The registry of hook programs. -/
structure HookRegistry where
  /-- Who may approve. -/
  authority : Key
  /-- The bump of the registry's address. -/
  bump : Nat
  /-- The programs in the order of registration. -/
  entries : List HookEntry
deriving DecidableEq, Inhabited

namespace HookRegistry

/-- The greatest number of programs with one status. -/
def capacity : Nat := 20

/-- An empty registry. -/
def empty (authority : Key) (bump : Nat) : HookRegistry := ⟨authority, bump, []⟩

/-- The status of a program, `none` if it is not registered. -/
def status? (r : HookRegistry) (program : Key) : Option HookStatus :=
  (r.entries.find? (·.program = program)).map (·.status)

/-- The programs with one status, in the order of registration. -/
def withStatus (r : HookRegistry) (s : HookStatus) : List Key :=
  (r.entries.filter (·.status = s)).map (·.program)

/-- Registers a program as pending. -/
def registration (program : Key) : Update HookRegistry Unit := do
  require ((← get).status? program = none) .alreadyRegistered
  require (((← get).withStatus .pending).length < capacity) .tooManyHooks
  modify fun r => { r with entries := r.entries ++ [⟨program, .pending⟩] }

/-- The registry with a program registered as pending. -/
def register (r : HookRegistry) (program : Key) : Outcome HookRegistry := (registration program).after r

/-- Marks the first entry of a pending program as approved. -/
def markApproved (program : Key) : List HookEntry → List HookEntry
  | [] => []
  | e :: es =>
    if e.program = program ∧ e.status = .pending then { e with status := .approved } :: es
    else e :: markApproved program es

/-- Approves a pending program, by the authority only. -/
def approval (signer program : Key) : Update HookRegistry Unit := do
  require (signer = (← get).authority) .unauthorized
  require (program ∈ (← get).withStatus .pending) .notPending
  require (((← get).withStatus .approved).length < capacity) .tooManyHooks
  modify fun r => { r with entries := markApproved program r.entries }

/-- The registry with a pending program approved. -/
def approve (r : HookRegistry) (signer program : Key) : Outcome HookRegistry :=
  (approval signer program).after r

/-- Refuses unless the program is approved. -/
def requireApproved (r : HookRegistry) (program : Key) : Outcome Unit :=
  require (r.status? program = some .approved) .hookNotApproved

/-- Authorizes the hook program of a mint, if it has one: the program has to be approved and among
the provided accounts. -/
def authorize (r : HookRegistry) (hook : Option Key) (provided : List Key) :
    Outcome (Option Key) := do
  match hook with
  | none => return none
  | some program =>
    r.requireApproved program
    require (program ∈ provided) .hookProgramNotProvided
    return some program

end HookRegistry

end Clmm
