import Clmm.FeeConfig
import Clmm.Layout
import Clmm.LiquidityChange
import Clmm.Ledger.Rejection

/-!
# Clmm.Ledger.Instruction

**What the program can be asked to do**, and how that is written. The data of an instruction is eight
bytes for its kind, formed from its name, and its arguments; what follows is ignored.
-/

namespace Clmm

/-- The two shares of the fees that are collected from pools. -/
inductive FeeShare
  | protocol
  | fund
deriving DecidableEq, Repr

/-- The name of a share. -/
def FeeShare.name : FeeShare → String
  | protocol => "Protocol"
  | fund => "Fund"

/-- The kinds of instructions. -/
inductive InstructionKind
  | createConfig
  | createHooks
  | registerHook
  | approveHook
  | createPool
  | createTickArray
  | openPosition
  | closePosition
  | increaseLiquidity
  | decreaseLiquidity
  | swap
  | collectFees (share : FeeShare)
deriving DecidableEq, Repr

namespace InstructionKind

/-- The name from which the leading bytes are formed. -/
def name : InstructionKind → String
  | createConfig => "create_amm_config"
  | createHooks => "initialize_hook_programs"
  | registerHook => "register_hook_program"
  | approveHook => "approve_hook_program"
  | createPool => "create_pool"
  | createTickArray => "initialize_tick_array"
  | openPosition => "open_position"
  | closePosition => "close_position"
  | increaseLiquidity => "increase_liquidity"
  | decreaseLiquidity => "decrease_liquidity"
  | swap => "swap"
  | collectFees .protocol => "collect_protocol_fee"
  | collectFees .fund => "collect_fund_fee"

/-- The name under which a run of the instruction is logged. -/
def title : InstructionKind → String
  | createConfig => "CreateAmmConfig"
  | createHooks => "InitializeHookPrograms"
  | registerHook => "RegisterHookProgram"
  | approveHook => "ApproveHookProgram"
  | createPool => "CreatePool"
  | createTickArray => "InitializeTickArray"
  | openPosition => "OpenPosition"
  | closePosition => "ClosePosition"
  | increaseLiquidity => "IncreaseLiquidity"
  | decreaseLiquidity => "DecreaseLiquidity"
  | swap => "Swap"
  | collectFees .protocol => "CollectProtocolFee"
  | collectFees .fund => "CollectFundFee"

/-- All kinds. -/
def all : List InstructionKind :=
  [createConfig, createHooks, registerHook, approveHook, createPool, createTickArray, openPosition,
   closePosition, increaseLiquidity, decreaseLiquidity, swap, collectFees .protocol,
   collectFees .fund]

/-- The leading bytes of an instruction of the kind. -/
def discriminator (k : InstructionKind) : Bytes :=
  (sha256 (Bytes.ofText "global:" ++ Bytes.ofText k.name)).take 8

end InstructionKind

/-- Where a new position lies: its range, and the starts of the arrays of its boundary ticks. -/
structure RangeChoice where
  lower : Int
  upper : Int
  lowerStart : Int
  upperStart : Int
deriving DecidableEq

/-- The amounts of a swap. Its direction shows only in the accounts it is given. -/
structure SwapTerms where
  amount : Nat
  threshold : Nat
  /-- The price that may not be crossed; zero for none. -/
  limit : Nat
  mode : SwapMode
deriving DecidableEq

/-- An instruction with its arguments. -/
inductive Instruction
  | createConfig (index : Nat) (params : FeeConfig.Params)
  | createHooks
  | registerHook (program : Key)
  | approveHook (program : Key)
  | createPool (sqrtPrice openTime : Nat)
  | createTickArray (start : Int)
  | openPosition (range : RangeChoice) (deposit : Deposit)
  | closePosition
  | increaseLiquidity (deposit : Deposit)
  | decreaseLiquidity (liquidity : Nat) (minima : Pair Nat)
  | swap (terms : SwapTerms)
  | collectFees (share : FeeShare) (requested : Pair Nat)
deriving DecidableEq

namespace Instruction

open Codec

/-- The kind of an instruction. -/
def kind : Instruction → InstructionKind
  | createConfig .. => .createConfig
  | createHooks => .createHooks
  | registerHook .. => .registerHook
  | approveHook .. => .approveHook
  | createPool .. => .createPool
  | createTickArray .. => .createTickArray
  | openPosition .. => .openPosition
  | closePosition => .closePosition
  | increaseLiquidity .. => .increaseLiquidity
  | decreaseLiquidity .. => .decreaseLiquidity
  | swap .. => .swap
  | collectFees share _ => .collectFees share

/-! ### Arguments -/

/-- Spacing first, then the rates. -/
def paramsCodec : Codec FeeConfig.Params :=
  ((uint 2).seq <| (uint 4).seq <| (uint 4).seq <| uint 4).iso
    (fun (spacing, tradeRate, protocolRate, fundRate) =>
      { spacing, tradeRate, protocolRate, fundRate })
    (fun p => (p.spacing, p.tradeRate, p.protocolRate, p.fundRate))
    (fun _ => rfl) (fun _ => rfl)

/-- A flag that is set for token 0. -/
def tokenCodec : Codec Token :=
  bool.iso (fun b => if b then .zero else .one) (fun t => decide (t = .zero))
    (fun t => by cases t <;> rfl) (fun b => by cases b <;> rfl)

/-- The liquidity, the maxima and the token that alone funds it. -/
def depositCodec : Codec Deposit :=
  ((uint 16).seq <| (Pair.codec (uint 8)).seq <| Codec.option tokenCodec).iso
    (fun (liquidity, maxima, only) => { liquidity, maxima, only })
    (fun d => (d.liquidity, d.maxima, d.only)) (fun _ => rfl) (fun _ => rfl)

/-- The range, then the starts. -/
def rangeCodec : Codec RangeChoice :=
  ((int 4).seq <| (int 4).seq <| (int 4).seq <| int 4).iso
    (fun (lower, upper, lowerStart, upperStart) => { lower, upper, lowerStart, upperStart })
    (fun r => (r.lower, r.upper, r.lowerStart, r.upperStart)) (fun _ => rfl) (fun _ => rfl)

/-- A flag that is set for an exact input. -/
def modeCodec : Codec SwapMode :=
  bool.iso (fun b => if b then .exactIn else .exactOut) (fun m => decide (m = .exactIn))
    (fun m => by cases m <;> rfl) (fun b => by cases b <;> rfl)

/-- Amount, threshold, limit and mode. -/
def termsCodec : Codec SwapTerms :=
  ((uint 8).seq <| (uint 8).seq <| (uint 16).seq <| modeCodec).iso
    (fun (amount, threshold, limit, mode) => { amount, threshold, limit, mode })
    (fun t => (t.amount, t.threshold, t.limit, t.mode)) (fun _ => rfl) (fun _ => rfl)

/-- The bytes of the arguments. -/
def arguments : Instruction → Bytes
  | createConfig index params => ((uint 2).seq paramsCodec).encode (index, params)
  | createHooks => []
  | registerHook program => key.encode program
  | approveHook program => key.encode program
  | createPool sqrtPrice openTime => ((uint 16).seq (uint 8)).encode (sqrtPrice, openTime)
  | createTickArray start => (int 4).encode start
  | openPosition range deposit => (rangeCodec.seq depositCodec).encode (range, deposit)
  | closePosition => []
  | increaseLiquidity deposit => depositCodec.encode deposit
  | decreaseLiquidity liquidity minima =>
    ((uint 16).seq (Pair.codec (uint 8))).encode (liquidity, minima)
  | swap terms => termsCodec.encode terms
  | collectFees _ requested => (Pair.codec (uint 8)).encode requested

/-- The data of an instruction. -/
def toBytes (i : Instruction) : Bytes := i.kind.discriminator ++ i.arguments

/-- Reads the value of a codec and forgets what follows. -/
def readWith {α : Type} (c : Codec α) (f : α → Instruction) (bs : Bytes) : Option Instruction :=
  (c.decode bs).map fun (a, _) => f a

/-- Reads the arguments of an instruction of a certain kind. -/
def readArguments : InstructionKind → Bytes → Option Instruction
  | .createConfig => readWith ((uint 2).seq paramsCodec) fun (index, p) => createConfig index p
  | .createHooks => fun _ => some createHooks
  | .registerHook => readWith key registerHook
  | .approveHook => readWith key approveHook
  | .createPool => readWith ((uint 16).seq (uint 8)) fun (price, time) => createPool price time
  | .createTickArray => readWith (int 4) createTickArray
  | .openPosition => readWith (rangeCodec.seq depositCodec) fun (r, d) => openPosition r d
  | .closePosition => fun _ => some closePosition
  | .increaseLiquidity => readWith depositCodec increaseLiquidity
  | .decreaseLiquidity =>
    readWith ((uint 16).seq (Pair.codec (uint 8))) fun (l, minima) => decreaseLiquidity l minima
  | .swap => readWith termsCodec swap
  | .collectFees share => readWith (Pair.codec (uint 8)) (collectFees share)

/-- The leading bytes of an event that was sent as an instruction, which the program does not take. -/
def eventTag : Bytes := [0xe4, 0x45, 0xa5, 0x2e, 0x51, 0xcb, 0x9a, 0x1d]

/-- Reads the data of an instruction. -/
def ofBytes (data : Bytes) : Verdict Instruction :=
  match InstructionKind.all.find? fun k => data.take 8 = k.discriminator with
  | some k =>
    match readArguments k (data.drop 8) with
    | some i => .ok i
    | none => .error (.check .instructionDidNotDeserialize)
  | none =>
    .error (.check (if data.take 8 = eventTag then .eventInstructionStub
      else .instructionFallbackNotFound))

end Instruction

end Clmm
