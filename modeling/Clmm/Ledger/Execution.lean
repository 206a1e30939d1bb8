import Clmm.Ledger.Event
import Clmm.Ledger.TokenProgram

/-!
# Clmm.Ledger.Execution

**Running an instruction.** An instruction changes the ledger and leaves a trace: the events it reports,
the lines it logs and the calls of token programs it makes, each in order. A rejected instruction
leaves nothing, so the steps below need no more than a state that is dropped on failure.
-/

namespace Clmm

/-- A call of a token program, with the program that was called. -/
structure ProgramCall where
  program : Key
  call : TokenCall
deriving DecidableEq

/-- What an instruction leaves besides the changed ledger. -/
structure Trace where
  events : List Event
  calls : List ProgramCall
  logs : List String
deriving DecidableEq

namespace Trace

/-- The trace before the first step. -/
def empty : Trace := ⟨[], [], []⟩

end Trace

/-- An instruction under way. -/
structure Execution where
  ledger : Ledger
  trace : Trace
deriving DecidableEq

/-- A step of an instruction. -/
abbrev Run (α : Type) := StateT Execution Verdict α

namespace Run

/-- The ledger as it is now. -/
def ledger : Run Ledger := do return (← get).ledger

/-- Changes the ledger. -/
def onLedger (f : Ledger → Verdict Ledger) : Run Unit := do
  let e ← get
  set { e with ledger := ← f e.ledger }

/-- Writes an account. -/
def put (k : Key) (a : Account) : Run Unit := onLedger fun l => .ok (l.put k a)

/-- Reports an event. -/
def emit (event : Event) : Run Unit :=
  modify fun e => { e with trace := { e.trace with events := e.trace.events ++ [event] } }

/-- Logs a line. -/
def log (line : String) : Run Unit :=
  modify fun e => { e with trace := { e.trace with logs := e.trace.logs ++ [line] } }

/-- Calls a token program. -/
def call (program : Key) (c : TokenCall) : Run Unit := do
  onLedger (TokenProgram.run program c)
  modify fun e => { e with trace := { e.trace with calls := e.trace.calls ++ [⟨program, c⟩] } }

end Run

end Clmm
