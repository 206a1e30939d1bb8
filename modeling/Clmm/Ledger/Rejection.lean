import Clmm.Outcome

/-!
# Clmm.Ledger.Rejection

**Why an instruction is rejected.** There are four sources of rejections, and callers see which one it
was: the pool's own rules, the checks made on the accounts before an instruction runs, the token and
system programs with their numbered errors, and the errors every program shares.
-/

namespace Clmm

/-- The checks made on an instruction's data and accounts before it runs. -/
inductive CheckError
  | instructionFallbackNotFound
  | instructionDidNotDeserialize
  | eventInstructionStub
  | constraintMut
  | constraintSeeds
  | constraintClose
  | constraintAddress
  | constraintTokenMint
  | constraintTokenOwner
  | constraintMintTokenProgram
  | accountDiscriminatorMismatch
  | accountNotEnoughKeys
  | accountNotMutable
  | accountOwnedByWrongProgram
  | invalidProgramId
  | accountNotSigner
  | accountNotInitialized
  | tryingToInitPayerAsProgramAccount
deriving DecidableEq, Repr

namespace CheckError

/-- The name a caller sees. -/
def name : CheckError → String
  | instructionFallbackNotFound => "InstructionFallbackNotFound"
  | instructionDidNotDeserialize => "InstructionDidNotDeserialize"
  | eventInstructionStub => "EventInstructionStub"
  | constraintMut => "ConstraintMut"
  | constraintSeeds => "ConstraintSeeds"
  | constraintClose => "ConstraintClose"
  | constraintAddress => "ConstraintAddress"
  | constraintTokenMint => "ConstraintTokenMint"
  | constraintTokenOwner => "ConstraintTokenOwner"
  | constraintMintTokenProgram => "ConstraintMintTokenProgram"
  | accountDiscriminatorMismatch => "AccountDiscriminatorMismatch"
  | accountNotEnoughKeys => "AccountNotEnoughKeys"
  | accountNotMutable => "AccountNotMutable"
  | accountOwnedByWrongProgram => "AccountOwnedByWrongProgram"
  | invalidProgramId => "InvalidProgramId"
  | accountNotSigner => "AccountNotSigner"
  | accountNotInitialized => "AccountNotInitialized"
  | tryingToInitPayerAsProgramAccount => "TryingToInitPayerAsProgramAccount"

/-- The code a caller sees. -/
def code : CheckError → Nat
  | instructionFallbackNotFound => 101
  | instructionDidNotDeserialize => 102
  | eventInstructionStub => 1500
  | constraintMut => 2000
  | constraintSeeds => 2006
  | constraintClose => 2011
  | constraintAddress => 2012
  | constraintTokenMint => 2014
  | constraintTokenOwner => 2015
  | constraintMintTokenProgram => 2022
  | accountDiscriminatorMismatch => 3002
  | accountNotEnoughKeys => 3005
  | accountNotMutable => 3006
  | accountOwnedByWrongProgram => 3007
  | invalidProgramId => 3008
  | accountNotSigner => 3010
  | accountNotInitialized => 3012
  | tryingToInitPayerAsProgramAccount => 4101

end CheckError

/-- The errors that programs share. They have a name but no code. -/
inductive CommonError
  | accountBorrowFailed
  | illegalOwner
  | immutable
  | incorrectProgramId
  | invalidAccountData
  | invalidArgument
  | missingRequiredSignature
  | notEnoughAccountKeys
  | uninitializedAccount
deriving DecidableEq, Repr

/-- The name a caller sees. -/
def CommonError.name : CommonError → String
  | accountBorrowFailed => "AccountBorrowFailed"
  | illegalOwner => "IllegalOwner"
  | immutable => "Immutable"
  | incorrectProgramId => "IncorrectProgramId"
  | invalidAccountData => "InvalidAccountData"
  | invalidArgument => "InvalidArgument"
  | missingRequiredSignature => "MissingRequiredSignature"
  | notEnoughAccountKeys => "NotEnoughAccountKeys"
  | uninitializedAccount => "UninitializedAccount"

/-- Why an instruction is rejected. -/
inductive Rejection
  /-- By the pool's own rules. -/
  | failed (failure : Failure)
  /-- By a check made beforehand. -/
  | check (error : CheckError)
  /-- By an error that programs share. -/
  | common (error : CommonError)
  /-- By a numbered error of the token or the system program. -/
  | custom (code : Nat)
deriving DecidableEq, Repr

/-- A value or the reason of a rejection. -/
abbrev Verdict (α : Type) := Except Rejection α

instance : MonadLift Outcome Verdict where
  monadLift
    | .ok a => .ok a
    | .error f => .error (.failed f)

/-- Continues if `p` holds and rejects with `r` otherwise. -/
def demand (p : Prop) [Decidable p] (r : Rejection) : Verdict Unit :=
  if p then .ok () else .error r

@[simp] theorem demand_eq_ok {p : Prop} [Decidable p] {r : Rejection} {u : Unit} :
    demand p r = .ok u ↔ p := by
  unfold demand; split <;> simp_all

namespace Rejection

/-- A refusal by the pool's own rules. -/
abbrev refused (r : Refusal) : Rejection := .failed (.refused r)

/-! ### The numbered errors in use -/

/-- The account to be created exists. -/
def alreadyInUse : Rejection := .custom 0

/-- The balance does not suffice, be it of tokens or of the payer of a new account. -/
def insufficientFunds : Rejection := .custom 1

/-- The data of a mint is not what the token program reads. -/
def invalidMint : Rejection := .custom 2

/-- The accounts belong to different mints. -/
def mintMismatch : Rejection := .custom 3

/-- The authority is not the holder. -/
def ownerMismatch : Rejection := .custom 4

/-- The account to be closed still holds tokens. -/
def hasBalance : Rejection := .custom 11

/-- A balance leaves its width. -/
def overflow : Rejection := .custom 14

/-- The caller's decimals are not those of the mint. -/
def decimalsMismatch : Rejection := .custom 18

end Rejection

end Clmm
