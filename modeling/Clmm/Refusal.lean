/-!
# Clmm.Refusal

**The reasons for which a pool operation is refused.** Each reason has a name, a code and a one-line
message, and these three are part of the library's interface: callers see them. The code is 6000 plus
the reason's place in the declaration, so the order of the constructors below is fixed.
-/

namespace Clmm

/-- Why an operation was refused. The constructors stand in the order of their codes. -/
inductive Refusal
  | mathOverflow
  | divisionByZero
  | maxTokenOverflow
  | tickOutOfRange
  | sqrtPriceOutOfRange
  | tickRangeInvalid
  | invalidTickArrayStart
  | invalidTickArray
  | arrayNotLoaded
  | outOfTickArrays
  | bitmapExtensionNotLoaded
  | zeroLiquidity
  | insufficientPositionLiquidity
  | positionNotEmpty
  | invalidPosition
  | notPositionOwner
  | slippageExceeded
  | zeroAmountSpecified
  | invalidPriceLimit
  | tooSmallInputOrOutputAmount
  | invalidConfig
  | poolNotOpen
  | invalidTokenOrder
  | invalidTokenMint
  | invalidVault
  | invalidMintAccount
  | alreadyRegistered
  | notPending
  | tooManyHooks
  | hookNotApproved
  | hookProgramNotProvided
  | unauthorized
deriving DecidableEq, Repr, Inhabited

namespace Refusal

/-- Every reason, in the order of the codes. -/
def all : List Refusal :=
  [mathOverflow, divisionByZero, maxTokenOverflow, tickOutOfRange, sqrtPriceOutOfRange,
   tickRangeInvalid, invalidTickArrayStart, invalidTickArray, arrayNotLoaded, outOfTickArrays,
   bitmapExtensionNotLoaded, zeroLiquidity, insufficientPositionLiquidity, positionNotEmpty,
   invalidPosition, notPositionOwner, slippageExceeded, zeroAmountSpecified, invalidPriceLimit,
   tooSmallInputOrOutputAmount, invalidConfig, poolNotOpen, invalidTokenOrder, invalidTokenMint,
   invalidVault, invalidMintAccount, alreadyRegistered, notPending, tooManyHooks, hookNotApproved,
   hookProgramNotProvided, unauthorized]

/-- The code a caller sees: 6000 plus the place in the declaration. -/
def code (r : Refusal) : Nat := 6000 + all.idxOf r

/-- The name a caller sees. -/
def name : Refusal → String
  | mathOverflow => "MathOverflow"
  | divisionByZero => "DivisionByZero"
  | maxTokenOverflow => "MaxTokenOverflow"
  | tickOutOfRange => "TickOutOfRange"
  | sqrtPriceOutOfRange => "SqrtPriceOutOfRange"
  | tickRangeInvalid => "TickRangeInvalid"
  | invalidTickArrayStart => "InvalidTickArrayStart"
  | invalidTickArray => "InvalidTickArray"
  | arrayNotLoaded => "ArrayNotLoaded"
  | outOfTickArrays => "OutOfTickArrays"
  | bitmapExtensionNotLoaded => "BitmapExtensionNotLoaded"
  | zeroLiquidity => "ZeroLiquidity"
  | insufficientPositionLiquidity => "InsufficientPositionLiquidity"
  | positionNotEmpty => "PositionNotEmpty"
  | invalidPosition => "InvalidPosition"
  | notPositionOwner => "NotPositionOwner"
  | slippageExceeded => "SlippageExceeded"
  | zeroAmountSpecified => "ZeroAmountSpecified"
  | invalidPriceLimit => "InvalidPriceLimit"
  | tooSmallInputOrOutputAmount => "TooSmallInputOrOutputAmount"
  | invalidConfig => "InvalidConfig"
  | poolNotOpen => "PoolNotOpen"
  | invalidTokenOrder => "InvalidTokenOrder"
  | invalidTokenMint => "InvalidTokenMint"
  | invalidVault => "InvalidVault"
  | invalidMintAccount => "InvalidMintAccount"
  | alreadyRegistered => "AlreadyRegistered"
  | notPending => "NotPending"
  | tooManyHooks => "TooManyHooks"
  | hookNotApproved => "HookNotApproved"
  | hookProgramNotProvided => "HookProgramNotProvided"
  | unauthorized => "Unauthorized"

/-- The message a caller sees. -/
def message : Refusal → String
  | mathOverflow => "Math overflow"
  | divisionByZero => "Division by zero"
  | maxTokenOverflow => "Token amount exceeds u64"
  | tickOutOfRange => "Tick out of range"
  | sqrtPriceOutOfRange => "Sqrt price out of range"
  | tickRangeInvalid => "Invalid tick range"
  | invalidTickArrayStart => "Invalid tick array start index"
  | invalidTickArray => "Invalid tick array"
  | arrayNotLoaded => "Tick array not loaded"
  | outOfTickArrays => "Out of tick arrays"
  | bitmapExtensionNotLoaded => "Tick array bitmap extension not loaded"
  | zeroLiquidity => "Zero liquidity"
  | insufficientPositionLiquidity => "Insufficient position liquidity"
  | positionNotEmpty => "Position not empty"
  | invalidPosition => "Invalid position"
  | notPositionOwner => "Not the position owner"
  | slippageExceeded => "Slippage exceeded"
  | zeroAmountSpecified => "Zero amount specified"
  | invalidPriceLimit => "Invalid sqrt price limit"
  | tooSmallInputOrOutputAmount => "Input or output amount too small"
  | invalidConfig => "Invalid config"
  | poolNotOpen => "Pool not open"
  | invalidTokenOrder => "Token mint 0 must be less than token mint 1"
  | invalidTokenMint => "Invalid token mint"
  | invalidVault => "Invalid vault"
  | invalidMintAccount => "Invalid mint account"
  | alreadyRegistered => "Hook program already registered"
  | notPending => "Hook program not pending"
  | tooManyHooks => "Too many hook programs"
  | hookNotApproved => "Hook program not approved"
  | hookProgramNotProvided => "Hook program account not provided"
  | unauthorized => "Unauthorized"

/-- No reason is missing from the list, so every code is at least 6000 and below 6032. -/
theorem mem_all (r : Refusal) : r ∈ all := by cases r <;> decide

end Refusal

end Clmm
