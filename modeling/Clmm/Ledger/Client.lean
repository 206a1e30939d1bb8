import Clmm.Ledger.Instruction
import Clmm.Ledger.Loading

/-!
# Clmm.Ledger.Client

**Asking the program.** A client says what it wants and for whom; the keys of the accounts follow from
where the program keeps things, and their flags from what the instruction does with them. A client
may then deviate from this list, and from the data, in any way: the program must not rely on it.
-/

namespace Clmm

/-- For whom, and for which pool, an instruction is made. -/
structure Choices where
  /-- The number of the fee config. -/
  config : Nat
  mints : Pair Key
  user : Key
  /-- The mint of the position. -/
  nft : Key
  nftProgram : Key
  /-- The user's accounts of the two tokens. -/
  accounts : Pair Key
  /-- Who collects fees. -/
  collector : Key
  /-- Whether the bitmap extension is given where it may be left out. -/
  withExtension : Bool
deriving DecidableEq

/-- What a client wants. Some of it goes into the arguments and some into the accounts. -/
inductive Request
  | createConfig (params : FeeConfig.Params)
  | createHooks
  | registerHook (program : Key)
  | approveHook (program : Key)
  | createPool (sqrtPrice openTime : Nat)
  | createTickArray (start : Int)
  | openPosition (range : RangeChoice) (deposit : Deposit)
  | closePosition
  | increaseLiquidity (lowerStart upperStart : Int) (deposit : Deposit)
  | decreaseLiquidity (lowerStart upperStart : Int) (liquidity : Nat) (minima : Pair Nat)
  | swap (terms : SwapTerms) (direction : Direction) (starts : List Int)
  | collectFees (share : FeeShare) (requested : Pair Nat)
deriving DecidableEq

namespace AccountRef

/-- A key that may only be read. -/
def readOnly (k : Key) : AccountRef := ⟨k, false, false⟩

/-- A key that may be written. -/
def writable (k : Key) : AccountRef := ⟨k, false, true⟩

/-- A key that signs. -/
def signing (k : Key) : AccountRef := ⟨k, true, false⟩

/-- A key that signs and may be written. -/
def paying (k : Key) : AccountRef := ⟨k, true, true⟩

end AccountRef

/-- The keys around the pool that was chosen. -/
structure PoolKeys where
  config : Key
  pool : Key
  vaults : Pair Key
  oracle : Key
  extension : Key
  hooks : Key
  position : Key
  nftAccount : Key
  /-- The token programs of the mints. -/
  programs : Pair Key

namespace Choices

/-- The key of the pool. -/
def poolKey (c : Choices) : Outcome Key := do
  let config ← (Site.config c.config).locate
  return (← (Site.poolOf config.key c.mints.zero c.mints.one).locate).key

/-- The key of the pool's vault of a mint. -/
def vaultKey (c : Choices) (mint : Key) : Outcome Key := do
  return (← (Site.vault (← c.poolKey) mint).locate).key

/-- The keys around the pool. -/
def keys (c : Choices) (l : Ledger) : Outcome PoolKeys := do
  let pool ← c.poolKey
  let extension := (← (Site.extension pool).locate).key
  return {
    config := (← (Site.config c.config).locate).key
    pool
    vaults := ⟨← c.vaultKey c.mints.zero, ← c.vaultKey c.mints.one⟩
    oracle := (← (Site.oracle pool).locate).key
    extension
    hooks := (← Site.hooks.locate).key
    position := (← (Site.position c.nft).locate).key
    nftAccount := (← holderAccount c.user c.nftProgram c.nft).key
    programs := Pair.ofFn fun x => l.ownerOf (c.mints.get x) }

end Choices

namespace Request

open AccountRef

/-- The instruction for a request. -/
def instruction (c : Choices) : Request → Instruction
  | createConfig params => .createConfig c.config params
  | createHooks => .createHooks
  | registerHook program => .registerHook program
  | approveHook program => .approveHook program
  | createPool sqrtPrice openTime => .createPool sqrtPrice openTime
  | createTickArray start => .createTickArray start
  | openPosition range deposit => .openPosition range deposit
  | closePosition => .closePosition
  | increaseLiquidity _ _ deposit => .increaseLiquidity deposit
  | decreaseLiquidity _ _ liquidity minima => .decreaseLiquidity liquidity minima
  | swap terms _ _ => .swap terms
  | collectFees share requested => .collectFees share requested

/-- The key of a tick array of a pool. -/
def arrayKey (pool : Key) (start : Int) : Outcome Key := do
  return (← (Site.tickArray pool start).locate).key

/-- The accounts for a request, in the order in which the program takes them. -/
def accounts (c : Choices) (l : Ledger) (r : Request) : Outcome (List AccountRef) := do
  let k ← c.keys l
  let extension := if c.withExtension then k.extension else programId
  let mint (x : Token) := readOnly (c.mints.get x)
  let vault (x : Token) := writable (k.vaults.get x)
  let account (x : Token) := writable (c.accounts.get x)
  let program (x : Token) := readOnly (k.programs.get x)
  match r with
  | createConfig _ => return [paying adminKey, writable k.config, readOnly systemProgram]
  | createHooks => return [paying adminKey, writable k.hooks, readOnly systemProgram]
  | registerHook _ => return [writable k.hooks]
  | approveHook _ => return [writable k.hooks, signing adminKey]
  | createPool _ _ =>
    return [paying c.user, readOnly k.config, writable k.pool, mint .zero, mint .one, vault .zero,
      vault .one, writable k.oracle, writable k.extension, program .zero, program .one,
      readOnly systemProgram]
  | createTickArray start =>
    return [readOnly k.pool, writable (← arrayKey k.pool start), paying c.user,
      readOnly systemProgram]
  | openPosition range _ =>
    return [paying c.user, readOnly c.user, paying c.nft, writable k.nftAccount, writable k.pool,
      writable k.position, writable (← arrayKey k.pool range.lowerStart),
      writable (← arrayKey k.pool range.upperStart), account .zero, account .one, vault .zero,
      vault .one, mint .zero, mint .one, writable extension, readOnly k.hooks,
      readOnly c.nftProgram, program .zero, program .one, readOnly holderTokenProgram,
      readOnly systemProgram]
  | closePosition =>
    return [paying c.user, writable c.nft, writable k.nftAccount, writable k.position,
      readOnly c.nftProgram, readOnly systemProgram]
  | increaseLiquidity lowerStart upperStart _ =>
    return [signing c.user, readOnly k.nftAccount, writable k.pool, writable k.position,
      writable (← arrayKey k.pool lowerStart), writable (← arrayKey k.pool upperStart),
      account .zero, account .one, vault .zero, vault .one, mint .zero, mint .one,
      writable extension, readOnly k.hooks, program .zero, program .one]
  | decreaseLiquidity lowerStart upperStart _ _ =>
    return [signing c.user, readOnly k.nftAccount, writable k.pool, writable k.position,
      writable (← arrayKey k.pool lowerStart), writable (← arrayKey k.pool upperStart),
      vault .zero, vault .one, account .zero, account .one, mint .zero, mint .one,
      writable extension, readOnly k.hooks, program .zero, program .one]
  | swap _ d starts =>
    let arrays ← starts.mapM fun start => do return writable (← arrayKey k.pool start)
    return [signing c.user, readOnly k.config, writable k.pool, account d.input, account d.output,
      vault d.input, vault d.output, writable k.oracle, readOnly k.hooks, readOnly extension,
      program d.input, program d.output, mint d.input, mint d.output] ++ arrays
  | collectFees _ _ =>
    return [signing c.collector, writable k.pool, readOnly k.config, vault .zero, vault .one,
      mint .zero, mint .one, account .zero, account .one, readOnly k.hooks, program .zero,
      program .one]

end Request

/-- A deviation from one account of the list. -/
structure Deviation where
  /-- The place in the list. -/
  index : Nat
  key : Option Key
  isSigner : Option Bool
  isWritable : Option Bool
deriving DecidableEq

/-- The account after a deviation. -/
def Deviation.apply (d : Deviation) (ref : AccountRef) : AccountRef :=
  ⟨d.key.getD ref.key, d.isSigner.getD ref.isSigner, d.isWritable.getD ref.isWritable⟩

/-- What a client does differently: first it changes accounts, then it appends some, then it leaves
out those at the end. It may also send other data. -/
structure Deviations where
  changed : List Deviation
  appended : List Key
  kept : Option Nat
  data : Option Bytes
deriving DecidableEq

namespace Deviations

/-- The accounts that are sent. -/
def accounts (d : Deviations) (refs : List AccountRef) : List AccountRef :=
  let refs := d.changed.foldl (fun refs x => refs.modify x.index x.apply) refs
  let refs := refs ++ d.appended.map AccountRef.readOnly
  match d.kept with
  | some n => refs.take n
  | none => refs

end Deviations

/-- The data and the accounts that a client sends. -/
def Request.message (c : Choices) (l : Ledger) (r : Request) (d : Deviations) :
    Outcome (Bytes × List AccountRef) := do
  return (d.data.getD (r.instruction c).toBytes, d.accounts (← r.accounts c l))

end Clmm
