import Clmm.Edwards
import Clmm.Outcome
import Clmm.Sha256

/-!
# Clmm.Address

**Where the accounts of the program live.** The address of an account that the program owns is a hash
of what the account is for: a label, the keys it belongs to, and the program itself. One more byte,
the *bump*, is chosen so that the hash is not a point of the signature curve; then nobody has a
signing key for the address, and the program alone can act for it.

The bump of a derived address is the greatest one that works.
-/

namespace Clmm

/-! ### Well-known keys -/

/-- The program that owns the pools. -/
def programId : Key := 0xf41040c94762c8a12e5c305599bc8794812772b2c15ee32599ba943ac4164cd6

/-- The administrator, who creates fee configs and the hook registry. -/
def adminKey : Key := 0x1690ba158830be7029bbf5f277fbe6398d1f2bc19a18b83a0130e3ef414d735d

/-- The program that creates accounts and owns wallets. -/
def systemProgram : Key := 0

/-- The first token program. -/
def tokenProgram : Key := 0x06ddf6e1d765a193d9cbe146ceeb79ac1cb485ed5f5b37913a8cf5857eff00a9

/-- The token program with extensions. -/
def extendedTokenProgram : Key :=
  0x06ddf6e1ee758fde18425dbce46ccddab61afc4d83b90d27febdf928d8a18bfc

/-- The program that creates each holder's own token account of a mint. -/
def holderTokenProgram : Key :=
  0x8c97258f4e2489f1bb3d1029148e0d830b5a1399daff1084048e7bd8dbe9f859

/-- A derived address and the bump it was found with. -/
structure Located where
  key : Key
  bump : Nat
deriving DecidableEq

namespace Address

/-- The hash of seeds and bump for a program. -/
def candidate (seeds : List Bytes) (bump : Nat) (program : Key) : Key :=
  Key.ofBytes (sha256
    (seeds.flatten ++ UInt8.ofNat bump :: program.toBytes ++ Bytes.ofText "ProgramDerivedAddress"))

/-- The address for the greatest bump of at most `bump`, zero excluded, that is not on the curve. -/
def search (seeds : List Bytes) (program : Key) : Nat → Option Located
  | 0 => none
  | bump + 1 =>
    let k := candidate seeds (bump + 1) program
    if Edwards.isPoint k then search seeds program bump else some ⟨k, bump + 1⟩

/-- The address derived from seeds for a program. It faults if no bump works. -/
def find (seeds : List Bytes) (program : Key) : Outcome Located :=
  match search seeds program 255 with
  | some found => .ok found
  | none => .error .fault

/-- The address for a known bump, if it is off the curve. -/
def withBump (seeds : List Bytes) (bump : Nat) (program : Key) : Option Key :=
  let k := candidate seeds bump program
  if Edwards.isPoint k then none else some k

end Address

/-- The accounts of the program, each by what it belongs to. -/
inductive Site
  | config (index : Nat)
  /-- The mints are those of token 0 and token 1. -/
  | pool (config mint0 mint1 : Key)
  | vault (pool mint : Key)
  | tickArray (pool : Key) (start : Int)
  | extension (pool : Key)
  | oracle (pool : Key)
  | position (nft : Key)
  | hooks
deriving DecidableEq

namespace Site

/-- The seeds of an account's address. -/
def seeds : Site → List Bytes
  | config index => [Bytes.ofText "amm_config", Bytes.be 2 index]
  | pool configKey mint0 mint1 =>
    [Bytes.ofText "pool", configKey.toBytes, mint0.toBytes, mint1.toBytes]
  | vault poolKey mint => [Bytes.ofText "pool_vault", poolKey.toBytes, mint.toBytes]
  | tickArray poolKey start =>
    [Bytes.ofText "tick_array", poolKey.toBytes, Bytes.be 4 (start % 2 ^ 32).toNat]
  | extension poolKey => [Bytes.ofText "tick_array_bitmap", poolKey.toBytes]
  | oracle poolKey => [Bytes.ofText "observation", poolKey.toBytes]
  | position nft => [Bytes.ofText "position", nft.toBytes]
  | hooks => [Bytes.ofText "hooks"]

/-- The pool of two mints, whichever of them comes first. -/
def poolOf (configKey mintA mintB : Key) : Site :=
  let (low, high) := Key.sort mintA mintB
  pool configKey low high

/-- Where the account lives. -/
def locate (s : Site) : Outcome Located := Address.find s.seeds programId

end Site

/-- Where a holder's own account of a mint lives. -/
def holderAccount (holder program mint : Key) : Outcome Located :=
  Address.find [holder.toBytes, program.toBytes, mint.toBytes] holderTokenProgram

end Clmm
