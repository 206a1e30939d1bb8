import Clmm.Ledger.Execution
import Clmm.TransferHook

/-!
# Clmm.Ledger.Loading

**Taking an instruction's accounts.** An instruction is given a list of keys, each with two flags:
whether its owner signed, and whether the account may be written. The accounts of an instruction are
taken off the list one after the other, and each is checked to be of the kind the instruction needs.
What is left over is for the instruction to use as it likes.

The checks that relate accounts to each other come later and are made by each instruction with the
functions at the end.

The order of these checks and the reasons they give are those documented for the framework that makes them,
and are not decided here: accounts are taken in the order of the instruction; of an account first its
presence is checked, then its owner, then what it holds; new accounts are only taken, and created before
anything else is related. Of the runtime it is assumed that the flags are true, that only the owner of an
account writes it, and that a rejected instruction changes nothing.

Accounts are values here and not bytes: that bytes are read as the values they were written from is shown
apart, for the accounts with a codec. Left out are the native currency, so that accounts are never short of
it; accounts with tokens that are frozen or have a delegate, which load like all others; and accounts held
by several keys, which are no accounts with tokens.
-/

namespace Clmm

/-- A key given to an instruction. -/
structure AccountRef where
  key : Key
  isSigner : Bool
  isWritable : Bool
deriving DecidableEq

/-- An account that was loaded, and what it held then. -/
structure Loaded (α : Type) where
  ref : AccountRef
  value : α

namespace Loaded

variable {α : Type}

/-- The key of the account. -/
def key (a : Loaded α) : Key := a.ref.key

end Loaded

/-- A step of taking accounts off the list, seeing the ledger. -/
abbrev Loading (α : Type) := ReaderT Ledger (StateT (List AccountRef) Verdict) α

namespace Loading

/-- Takes the next key, whatever is there. -/
def next : Loading AccountRef := do
  match ← get with
  | [] => throw (.check .accountNotEnoughKeys)
  | ref :: rest =>
    set rest
    return ref

/-- Takes a key that signed. -/
def signer : Loading AccountRef := do
  let ref ← next
  demand (ref.isSigner) (.check .accountNotSigner)
  return ref

/-- Takes the key of a certain program. -/
def program (k : Key) : Loading AccountRef := do
  let ref ← next
  demand (ref.key = k) (.check .invalidProgramId)
  return ref

/-- Takes the key of one of the token programs. -/
def anyTokenProgram : Loading AccountRef := do
  let ref ← next
  demand (ref.key = tokenProgram ∨ ref.key = extendedTokenProgram) (.check .invalidProgramId)
  return ref

/-- Looks at the account of a key; `missing` is the reason if there is none. -/
def read (ref : AccountRef) (missing : CheckError) : Loading Account := do
  match (← readThe Ledger).get? ref.key with
  | some a => return a
  | none => throw (.check missing)

/-- Takes an account of the program, of a certain kind. -/
def owned {α : Type} (kind : Account → Option α) (missing : CheckError) : Loading (Loaded α) := do
  let ref ← next
  let a ← read ref missing
  demand (a.owner = programId) (.check .accountOwnedByWrongProgram)
  match kind a with
  | some value => return ⟨ref, value⟩
  | none => throw (.check .accountDiscriminatorMismatch)

/-- Takes a fee config. -/
def config : Loading (Loaded FeeConfig) := owned Account.asConfig? .accountNotInitialized

/-- Takes a position. -/
def position : Loading (Loaded Position) := owned Account.asPosition? .accountNotInitialized

/-- Takes an oracle. -/
def oracle : Loading (Loaded Oracle) := owned Account.asOracle? .accountNotInitialized

/-- Takes a hook registry. -/
def hooks : Loading (Loaded HookRegistry) := owned Account.asHooks? .accountNotInitialized

/-- Takes a pool. Pools, tick arrays and bitmap extensions are used where they lie, and a missing one
shows by its owner. -/
def pool : Loading (Loaded Pool) := owned Account.asPool? .accountOwnedByWrongProgram

/-- Takes a tick array. -/
def tickArray : Loading (Loaded TickArray) :=
  owned Account.asTickArray? .accountOwnedByWrongProgram

/-- Takes a bitmap extension. The key of the program stands for none. -/
def extension? : Loading (Option (Loaded BitmapExtension)) := do
  match ← get with
  | ref :: rest =>
    if ref.key = programId then
      set rest
      return none
    else return some (← owned Account.asExtension? .accountOwnedByWrongProgram)
  | [] => throw (.check .accountNotEnoughKeys)

/-- Takes an account with tokens, of either token program. A mint is too short to be one, or long
enough and then not set up as one. -/
def tokens : Loading (Loaded TokenAccount) := do
  let ref ← next
  match ← read ref .accountNotInitialized with
  | .token t => return ⟨ref, t⟩
  | .mint m => throw (.common (if m.isExtended then .uninitializedAccount else .invalidAccountData))
  | _ => throw (.check .accountOwnedByWrongProgram)

/-- Why an account with tokens is no mint. Its first bytes are those of its mint and of its holder, and
they may happen to read as a mint that is not set up. -/
def notMint (t : TokenAccount) : CommonError :=
  if TransferHook.isVacant (t.mint.toBytes ++ t.holder.toBytes) then .uninitializedAccount
  else .invalidAccountData

/-- Takes a mint, of either token program. -/
def mint : Loading (Loaded Mint) := do
  let ref ← next
  match ← read ref .accountNotInitialized with
  | .mint m => return ⟨ref, m⟩
  | .token t => throw (.common (notMint t))
  | _ => throw (.check .accountOwnedByWrongProgram)

/-- Takes the accounts of an instruction; the second component is what is left over. -/
def run {α : Type} (x : Loading α) (refs : List AccountRef) : Run (α × List AccountRef) := do
  x (← Run.ledger) refs

end Loading

/-! ### Checks between accounts -/

namespace AccountRef

/-- The account may be written. -/
def demandWritable (ref : AccountRef) : Verdict Unit :=
  demand (ref.isWritable) (.check .constraintMut)

/-- The account lives where it belongs. -/
def demandSite (ref : AccountRef) (s : Site) : Verdict Unit := do
  let located ← s.locate
  demand (ref.key = located.key) (.check .constraintSeeds)

/-- The account lives where it belongs, for a bump that was stored. -/
def demandSiteAt (ref : AccountRef) (s : Site) (bump : Nat) : Verdict Unit :=
  demand (Address.withBump s.seeds bump programId = some ref.key) (.check .constraintSeeds)

/-- The account is the one that is named, or else `r`. -/
def demandKey (ref : AccountRef) (k : Key) (r : Rejection) : Verdict Unit := demand (ref.key = k) r

end AccountRef

/-- The bitmap extension of a pool, if it was given, lives where it belongs. -/
def demandExtension (pool : Key) : Option (Loaded BitmapExtension) → Verdict Unit
  | none => .ok ()
  | some e => e.ref.demandSite (.extension pool)

/-- The bitmap extension of a pool, if it was given, may be written as well. -/
def demandWritableExtension (pool : Key) : Option (Loaded BitmapExtension) → Verdict Unit
  | none => .ok ()
  | some e => do
    e.ref.demandSite (.extension pool)
    e.ref.demandWritable

/-- The hook registry lives where it belongs. -/
def demandHooks (hooks : Loaded HookRegistry) : Verdict Unit :=
  hooks.ref.demandSiteAt .hooks hooks.value.bump

/-! ### New accounts -/

/-- Makes sure that an account can be created at a key. Its owner agrees, by a signature or, for the
program's own addresses, by the program. If nothing is there, the payer's wallet is debited; a wallet
of someone else than the payer becomes the new account and pays for itself. Both what is debited and
what is created has to be writable. -/
def makeRoom (payer target : AccountRef) (agreed : Bool) : Run Unit := do
  let l ← Run.ledger
  match l.get? target.key with
  | none =>
    demand (payer.isWritable) (.common .immutable)
    demandCreatable
    match l.get? payer.key with
    | some .wallet => return ()
    | some _ => throw (.common .invalidArgument)
    | none => throw .insufficientFunds
  | some a =>
    demand (payer.key ≠ target.key) (.check .tryingToInitPayerAsProgramAccount)
    demandCreatable
    demand (a = .wallet) .alreadyInUse
where
  /-- The owner agrees and the account may be written. -/
  demandCreatable : Verdict Unit := do
    demand (agreed) (.common .missingRequiredSignature)
    demand (target.isWritable) (.common .immutable)

/-- Creates an account of the program where it belongs, and gives the bump of its address. -/
def createAt (payer target : AccountRef) (s : Site) (a : Account) : Run Nat := do
  let located ← s.locate
  demand (target.key = located.key) (.check .constraintSeeds)
  makeRoom payer target true
  Run.put target.key a
  return located.bump

end Clmm
