import Clmm.Address
import Clmm.Bitmap
import Clmm.FeeConfig
import Clmm.HookRegistry
import Clmm.Oracle
import Clmm.Pool
import Clmm.Position

/-!
# Clmm.Ledger.Account

**What the ledger knows about.** An account belongs to a program, which alone may change it, and holds
data of that program: here tokens and mints of the two token programs and the accounts of the pools'
program. Wallets belong to the system program and hold no data. Balances of the native currency are
not modelled: wallets have enough of it. The programs themselves are not on the ledger.
-/

namespace Clmm

/-- What an account with tokens carries behind its basic bytes. -/
inductive TokenExtension
  | none
  /-- A mark that the account stays with its holder. -/
  | fixedHolder
  /-- A mark that the account can take part in transfers that call a hook program. -/
  | transferHook
deriving DecidableEq

/-- The issuer of a kind of tokens. -/
structure Mint where
  /-- The token program of the mint. -/
  program : Key
  supply : Nat
  decimals : Nat
  /-- Who may issue tokens. -/
  authority : Option Key
  /-- The entry for a transfer hook, if the mint has one. The zero key names no program. -/
  hook : Option Key
deriving DecidableEq

namespace Mint

/-- Whether the data of the mint goes on behind its basic bytes. -/
def isExtended (m : Mint) : Bool := m.hook.isSome

/-- The program to be called on transfers. -/
def hookProgram (m : Mint) : Option Key :=
  if m.program = extendedTokenProgram then m.hook.filter (· ≠ 0) else none

/-- What accounts with tokens of the mint carry from the start. -/
def accountExtension (m : Mint) : TokenExtension := if m.isExtended then .transferHook else .none

end Mint

/-- An account with tokens of one mint. -/
structure TokenAccount where
  /-- The token program of the account. -/
  program : Key
  mint : Key
  /-- Who may spend the tokens. -/
  holder : Key
  amount : Nat
  extension : TokenExtension
deriving DecidableEq

/-- Whether the data of the account goes on behind its basic bytes. -/
def TokenAccount.isExtended (t : TokenAccount) : Bool := t.extension ≠ .none

/-- What an account is. -/
inductive Account
  | wallet
  | mint (m : Mint)
  | token (t : TokenAccount)
  | config (c : FeeConfig)
  | pool (p : Pool)
  | tickArray (a : TickArray)
  | extension (e : BitmapExtension)
  | position (p : Position)
  | oracle (o : Oracle)
  | hooks (r : HookRegistry)
deriving DecidableEq

namespace Account

/-- The program an account belongs to. -/
def owner : Account → Key
  | wallet => systemProgram
  | mint m => m.program
  | token t => t.program
  | _ => programId

/-- The accounts of each kind, with what they hold. -/
def asConfig? : Account → Option FeeConfig
  | config c => some c
  | _ => none

@[inherit_doc asConfig?] def asPool? : Account → Option Pool
  | pool p => some p
  | _ => none

@[inherit_doc asConfig?] def asTickArray? : Account → Option TickArray
  | tickArray a => some a
  | _ => none

@[inherit_doc asConfig?] def asExtension? : Account → Option BitmapExtension
  | extension e => some e
  | _ => none

@[inherit_doc asConfig?] def asPosition? : Account → Option Position
  | position p => some p
  | _ => none

@[inherit_doc asConfig?] def asOracle? : Account → Option Oracle
  | oracle o => some o
  | _ => none

@[inherit_doc asConfig?] def asHooks? : Account → Option HookRegistry
  | hooks r => some r
  | _ => none

end Account

end Clmm
