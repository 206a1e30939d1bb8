import Clmm.Codec
import Clmm.Ledger.Rejection
import Clmm.Ledger.State

/-!
# Clmm.Ledger.TokenProgram

**What the token programs do.** There are two of them. They move tokens between accounts of one mint,
issue and destroy tokens, and close accounts. They agree on accounts without extensions and differ
otherwise in the order of their checks and in what they do about accounts of the other program:

* the basic program reads only accounts without extensions, and does not ask whom an account belongs
  to before it writes; the runtime then forbids the write;
* the program with extensions reads all accounts but asks whom they belong to.

A program that is called does not see who signed but through its caller, so the authorities named here
are taken to have signed.

The token programs are not part of this library. What is said of them is their documented behaviour:

* a transfer needs the holder's agreement, enough tokens in the source, accounts of the mint that is
  named and the decimals of that mint;
* tokens are issued with the agreement of the mint's authority and destroyed with the holder's, and the
  supply follows; balances and supplies stay within 64 bits;
* an account is closed with the holder's agreement, and only if it is empty;
* a call that fails changes nothing.

Left out is what the accounts of this ledger do not have: delegates, who may spend for the holder;
frozen accounts and authorities to freeze; holders of several keys; authorities to close an account apart
from its holder; accounts of the wrapped native currency; and all extensions but the two marks of
`TokenExtension` and the hook of a mint, so there are no transfer fees and no confidential balances. With
some of these a call is refused that succeeds here, and with delegates, permanent ones above all, somebody
else may agree to it.

A hook program is not run. A transfer of a mint with a hook names the program among its accounts and is
taken to succeed if all else is right. The program gets source, mint and destination to read only; what it
does to accounts of its own is not described.
-/

namespace Clmm

/-- A call of a token program. -/
inductive TokenCall
  /-- Moves tokens. The hook program, if any, follows the caller's further signers. -/
  | transfer (source mint destination authority : Key) (amount decimals : Nat)
      (further : List Key)
  | mintTo (mint destination authority : Key) (amount : Nat)
  | burn (account mint authority : Key) (amount : Nat)
  | closeAccount (account destination authority : Key)
deriving DecidableEq

namespace TokenCall

/-- The data of the call: which one it is, and its numbers. -/
def data : TokenCall → Bytes
  | transfer _ _ _ _ amount decimals _ =>
    12 :: (Codec.uint 8).encode amount ++ (Codec.uint 1).encode decimals
  | mintTo _ _ _ amount => 7 :: (Codec.uint 8).encode amount
  | burn _ _ _ amount => 8 :: (Codec.uint 8).encode amount
  | closeAccount .. => [9]

/-- The accounts of the call. -/
def accounts : TokenCall → List Key
  | transfer source mint destination authority _ _ further =>
    [source, mint, destination, authority] ++ further
  | mintTo mint destination authority _ => [mint, destination, authority]
  | burn account mint authority _ => [account, mint, authority]
  | closeAccount account destination authority => [account, destination, authority]

end TokenCall

namespace TokenProgram

/-! ### Reading accounts -/

/-- Reads an account with tokens. -/
def tokensAt (l : Ledger) (k : Key) : Verdict TokenAccount :=
  match l.get? k with
  | some (.token t) => .ok t
  | _ => .error (.common .invalidAccountData)

/-- Reads a mint. -/
def mintAt (l : Ledger) (k : Key) : Verdict Mint :=
  match l.get? k with
  | some (.mint m) => .ok m
  | _ => .error (.common .invalidAccountData)

/-- Reads an account with tokens that has no extensions. -/
def basicTokensAt (l : Ledger) (k : Key) : Verdict TokenAccount := do
  let t ← tokensAt l k
  demand (!t.isExtended) (.common .invalidAccountData)
  return t

/-- Reads a mint that has no extensions. -/
def basicMintAt (l : Ledger) (k : Key) : Verdict Mint := do
  let m ← mintAt l k
  demand (!m.isExtended) (.common .invalidAccountData)
  return m

/-- Whether both programs are the one that is called. -/
def demandPrograms (called first second : Key) (e : CommonError) : Verdict Unit :=
  demand (first = called ∧ second = called) (.common e)

/-- A balance after tokens came in. -/
def raised (balance amount : Nat) : Verdict Nat := do
  demand (balance + amount < 2 ^ 64) .overflow
  return balance + amount

/-- A balance after tokens went out. -/
def lowered (balance amount : Nat) : Verdict Nat := do
  demand (amount ≤ balance) .overflow
  return balance - amount

/-! ### Transfers -/

/-- Moves tokens by the basic program. -/
def transferBasic (l : Ledger) (source mint destination authority : Key) (amount decimals : Nat) :
    Verdict Ledger := do
  let src ← basicTokensAt l source
  let dst ← basicTokensAt l destination
  demand (amount ≤ src.amount) .insufficientFunds
  demand (src.mint = dst.mint) .mintMismatch
  demand (mint = src.mint) .mintMismatch
  let m ← basicMintAt l mint
  demand (decimals = m.decimals) .decimalsMismatch
  demand (authority = src.holder) .ownerMismatch
  if source = destination then
    demandPrograms tokenProgram src.program dst.program .incorrectProgramId
    return l
  let after ← raised dst.amount amount
  demandPrograms tokenProgram src.program dst.program .illegalOwner
  return (l.put source (.token { src with amount := src.amount - amount })).put destination
    (.token { dst with amount := after })

/-- Moves tokens by the program with extensions. If the mint has a hook program, both accounts have to
be made for it. -/
def transferExtended (l : Ledger) (source mint destination authority : Key) (amount decimals : Nat) :
    Verdict Ledger := do
  let src ← tokensAt l source
  demand (amount ≤ src.amount) .insufficientFunds
  demand (mint = src.mint) .mintMismatch
  let m ← mintAt l mint
  demand (decimals = m.decimals) .decimalsMismatch
  demand (authority = src.holder) .ownerMismatch
  let dst ← tokensAt l destination
  demandPrograms extendedTokenProgram src.program dst.program .incorrectProgramId
  if source = destination then return l
  demand (src.mint = dst.mint) .mintMismatch
  let after ← raised dst.amount amount
  demand (m.hookProgram.isSome → src.extension = .transferHook ∧ dst.extension = .transferHook)
    (.common .invalidAccountData)
  return (l.put source (.token { src with amount := src.amount - amount })).put destination
    (.token { dst with amount := after })

/-! ### Issuing and destroying tokens -/

/-- Issues tokens. -/
def issue (called : Key) (l : Ledger) (mint destination authority : Key) (amount : Nat) :
    Verdict Ledger := do
  let basic := called ≠ extendedTokenProgram
  let dst ← if basic then basicTokensAt l destination else tokensAt l destination
  demand (mint = dst.mint) .mintMismatch
  let m ← if basic then basicMintAt l mint else mintAt l mint
  demand (m.authority = some authority) .ownerMismatch
  demandPrograms called dst.program m.program .incorrectProgramId
  let after ← raised dst.amount amount
  let supply ← raised m.supply amount
  return (l.put destination (.token { dst with amount := after })).put mint (.mint { m with supply })

/-- Destroys tokens. -/
def burn (called : Key) (l : Ledger) (account mint authority : Key) (amount : Nat) :
    Verdict Ledger := do
  let basic := called ≠ extendedTokenProgram
  let src ← if basic then basicTokensAt l account else tokensAt l account
  demand (amount ≤ src.amount) .insufficientFunds
  demand (mint = src.mint) .mintMismatch
  let m ← if basic then basicMintAt l mint else mintAt l mint
  demand (authority = src.holder) .ownerMismatch
  if !basic then demandPrograms called src.program m.program .incorrectProgramId
  let supply ← lowered m.supply amount
  if basic then demandPrograms called src.program m.program .illegalOwner
  return (l.put account (.token { src with amount := src.amount - amount })).put mint
    (.mint { m with supply })

/-- Closes an account without tokens. What it was worth goes to a wallet. -/
def close (called : Key) (l : Ledger) (account destination authority : Key) : Verdict Ledger := do
  demand (account ≠ destination) (.common .invalidAccountData)
  let src ← if called ≠ extendedTokenProgram then basicTokensAt l account else tokensAt l account
  demand (src.amount = 0) .hasBalance
  demand (authority = src.holder) .ownerMismatch
  demand (src.program = called) (.common .illegalOwner)
  let l := if (l.get? destination).isNone then l.put destination .wallet else l
  return l.remove account

/-- Runs a call of one of the two token programs. -/
def run (called : Key) (call : TokenCall) (l : Ledger) : Verdict Ledger :=
  match call with
  | .transfer source mint destination authority amount decimals _ =>
    if called = extendedTokenProgram then
      transferExtended l source mint destination authority amount decimals
    else transferBasic l source mint destination authority amount decimals
  | .mintTo mint destination authority amount => issue called l mint destination authority amount
  | .burn account mint authority amount => burn called l account mint authority amount
  | .closeAccount account destination authority => close called l account destination authority

/-! ### New accounts -/

/-- What an account with tokens of a mint is given room for: the program of the mint decides. -/
def neededExtension (m : Mint) : TokenExtension :=
  if m.program = extendedTokenProgram then m.accountExtension else .none

/-- The account with tokens that a program sets up for a mint. The basic program refuses room that it
has no use for, then a mint of the other program, then a mint that is longer than it reads. -/
def freshAccount (called mint holder : Key) (m : Mint) : Verdict TokenAccount := do
  let basic := called ≠ extendedTokenProgram
  if basic then demand (neededExtension m = .none) (.common .invalidAccountData)
  demand (m.program = called) (.common .incorrectProgramId)
  if basic then demand (!m.isExtended) .invalidMint
  return ⟨called, mint, holder, 0, neededExtension m⟩

end TokenProgram

end Clmm
