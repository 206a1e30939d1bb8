import Clmm.Address
import Clmm.Layout

/-!
# Clmm.LeadingArrays

**Tick arrays at the front of a list of accounts.** A swap is given its tick arrays as the first of an
open list of accounts; the first account that is not a tick array ends them, and what follows is for
the hook programs. A tick array of another pool is refused.
-/

namespace Clmm

/-- Takes what `f` recognizes off the front of a list. -/
def takeLeading {α β : Type} (f : α → Outcome (Option β)) : List α → Outcome (List β × List α)
  | [] => .ok ([], [])
  | a :: rest => do
    match ← f a with
    | none => return ([], a :: rest)
    | some b =>
      let (bs, tail) ← takeLeading f rest
      return (b :: bs, tail)

/-- An account as bytes. -/
structure RawAccount where
  key : Key
  owner : Key
  data : Bytes
deriving DecidableEq

namespace RawAccount

/-- Whether the account is marked as a tick array of the program. -/
def isTickArray (a : RawAccount) : Bool :=
  a.owner = programId && a.data.take 8 = AccountKind.tickArray.discriminator

/-- The start of the tick array of a pool that the account holds. It faults if the account is marked
as a tick array but too short to be one. -/
def arrayStart? (pool : Key) (a : RawAccount) : Outcome (Option Int) := do
  if !a.isTickArray then return none
  guardFault (AccountKind.tickArray.size ≤ a.data.length)
  match TickArray.header.decode (a.data.drop 8) with
  | none => throw .fault
  | some ((owner, start), _) =>
    require (owner = pool) .invalidTickArray
    return some start

/-- The starts of the leading tick arrays of a pool, and the other accounts. -/
def leadingArrays (pool : Key) (accounts : List RawAccount) : Outcome (List Int × List RawAccount) :=
  takeLeading (arrayStart? pool) accounts

end RawAccount

end Clmm
