import Clmm.Address
import Clmm.Codec
import Clmm.HookRegistry

/-!
# Clmm.TransferHook

**The hook program of a mint.** Mints of the token program with extensions may carry a list of
extensions behind their 82 basic bytes, one of which names a program to be called on every transfer.
Here the raw data of a mint is checked and searched for it.

The data is padded up to the size of a token account, so that the two kinds cannot be confused; a
byte that tells the kind follows, then the extensions: type, length and value, one after the other.
The search ends at the first entry that is not a known extension of a mint.
-/

namespace Clmm

namespace TransferHook

/-- The bytes of a mint without extensions. -/
def baseSize : Nat := 82

/-- The bytes of an account that several keys control; a mint never has this size. -/
def multisigSize : Nat := 355

/-- The padding between the basic bytes of a mint and the byte for the kind. -/
def paddingSize : Nat := 83

/-- Whether a key that may be missing is marked in one of the two ways allowed. -/
def isMarked (bs : Bytes) : Bool := bs.take 4 = Bytes.le 4 0 || bs.take 4 = Bytes.le 4 1

/-- Whether the basic bytes are those of a mint, and the byte that tells whether it was set up is `b`. -/
def isMintWith (b : UInt8) (base : Bytes) : Bool :=
  isMarked base && base[45]? = some b && isMarked (base.drop 46)

/-- Whether the basic bytes are those of a mint that was set up. -/
def isSetUp (base : Bytes) : Bool := isMintWith 1 base

/-- Whether the basic bytes are those of a mint that was not set up. -/
def isVacant (base : Bytes) : Bool := isMintWith 0 base

/-- The extensions behind the basic bytes, empty if there are none. -/
def extensions? (rest : Bytes) : Option Bytes :=
  if rest = [] then some []
  else if rest.length ≤ paddingSize + 1 then none
  else if rest.take (paddingSize + 1) = Bytes.zeros paddingSize ++ [1] then
    some (rest.drop (paddingSize + 1))
  else none

/-- The type of the extension that names a hook program. -/
def hookType : Nat := 14

/-- Whether a type is that of an extension of a mint. Type 0 marks unused space, and the types up to
24 that are left out belong to token accounts. -/
def isMintType (t : Nat) : Bool :=
  t ∈ [1, 3, 4, 6, 9, 10, 12, 14, 16, 18, 19, 20, 21, 22, 23, 24]

/-- Searches extensions for the hook program; the bound is on the number of entries. -/
def search : Nat → Bytes → Option Key
  | 0, _ => none
  | bound + 1, bs =>
    match ((Codec.uint 2).seq (Codec.uint 2)).decode bs with
    | none => none
    | some ((type, length), value) =>
      if !isMintType type || value.length < length then none
      else if type = hookType then
        let program := Key.ofBytes (value.drop 32 |>.take 32)
        if length = 64 && program ≠ 0 then some program else none
      else search bound (value.drop length)

/-- The hook program that the data of a mint names, if any. Data that is not a mint is refused. -/
def inData (data : Bytes) : Outcome (Option Key) := do
  require (data.length ≠ multisigSize ∧ baseSize ≤ data.length) .invalidMintAccount
  require (isSetUp (data.take baseSize)) .invalidMintAccount
  match extensions? (data.drop baseSize) with
  | some extensions => return search extensions.length extensions
  | none => throw (.refused .invalidMintAccount)

/-- The hook program of a mint. Only mints of the token program with extensions have one; the data of
others is not looked at. -/
def ofMint (owner : Key) (data : Bytes) : Outcome (Option Key) :=
  if owner = extendedTokenProgram then inData data else .ok none

/-- Authorizes the hook program of a mint, if it has one. -/
def authorize (registry : HookRegistry) (owner : Key) (data : Bytes) (provided : List Key) :
    Outcome (Option Key) := do
  registry.authorize (← ofMint owner data) provided

end TransferHook

end Clmm
