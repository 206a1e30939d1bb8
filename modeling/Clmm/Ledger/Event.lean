import Clmm.Layout
import Clmm.Token

/-!
# Clmm.Ledger.Event

**What instructions report.** An event tells observers what an instruction did. Its bytes are eight
bytes for the kind of event, formed from its name, and its fields.
-/

namespace Clmm

/-- A report of an instruction. -/
inductive Event
  | configCreated (config : Key) (index : Nat) (params : FeeConfig.Params)
  | poolCreated (pool : Key) (mints : Pair Key) (spacing sqrtPrice : Nat) (tick : Int)
      (vaults : Pair Key)
  | positionOpened (pool payer holder : Key) (lower upper : Int) (liquidity : Nat)
      (deposited : Pair Nat)
  | liquidityIncreased (nft : Key) (liquidity : Nat) (amounts : Pair Nat)
  | liquidityDecreased (nft : Key) (liquidity : Nat) (amounts fees : Pair Nat)
  | swapped (pool payer : Key) (accounts : Pair Key) (amounts : Pair Nat) (fee : Nat)
      (direction : Direction) (sqrtPrice liquidity : Nat) (tick : Int)
  | feesCollected (pool : Key) (recipients : Pair Key) (amounts : Pair Nat)
  | hookRegistered (program : Key)
  | hookApproved (program authority : Key)
deriving DecidableEq

namespace Event

/-- The name of the kind. -/
def name : Event → String
  | configCreated .. => "ConfigCreatedEvent"
  | poolCreated .. => "PoolCreatedEvent"
  | positionOpened .. => "CreatePersonalPositionEvent"
  | liquidityIncreased .. => "IncreaseLiquidityEvent"
  | liquidityDecreased .. => "DecreaseLiquidityEvent"
  | swapped .. => "SwapEvent"
  | feesCollected .. => "CollectProtocolFeeEvent"
  | hookRegistered .. => "HookProgramRegisteredEvent"
  | hookApproved .. => "HookProgramApprovedEvent"

open Codec

/-- The fields one after the other. -/
def fields : Event → Bytes
  | configCreated config index p =>
    key.encode config ++ (uint 2).encode index ++ (uint 2).encode p.spacing ++
      (uint 4).encode p.tradeRate ++ (uint 4).encode p.protocolRate ++ (uint 4).encode p.fundRate
  | poolCreated pool mints spacing sqrtPrice tick vaults =>
    key.encode pool ++ (Pair.codec key).encode mints ++ (uint 2).encode spacing ++
      (uint 16).encode sqrtPrice ++ (int 4).encode tick ++ (Pair.codec key).encode vaults
  | positionOpened pool payer holder lower upper liquidity deposited =>
    key.encode pool ++ key.encode payer ++ key.encode holder ++ (int 4).encode lower ++
      (int 4).encode upper ++ (uint 16).encode liquidity ++ (Pair.codec (uint 8)).encode deposited
  | liquidityIncreased nft liquidity amounts =>
    key.encode nft ++ (uint 16).encode liquidity ++ (Pair.codec (uint 8)).encode amounts
  | liquidityDecreased nft liquidity amounts fees =>
    key.encode nft ++ (uint 16).encode liquidity ++ (Pair.codec (uint 8)).encode amounts ++
      (Pair.codec (uint 8)).encode fees
  | swapped pool payer accounts amounts fee direction sqrtPrice liquidity tick =>
    key.encode pool ++ key.encode payer ++ (Pair.codec key).encode accounts ++
      (Pair.codec (uint 8)).encode amounts ++ (uint 8).encode fee ++
      bool.encode (decide (direction = .down)) ++ (uint 16).encode sqrtPrice ++
      (uint 16).encode liquidity ++ (int 4).encode tick
  | feesCollected pool recipients amounts =>
    key.encode pool ++ (Pair.codec key).encode recipients ++ (Pair.codec (uint 8)).encode amounts
  | hookRegistered program => key.encode program
  | hookApproved program authority => key.encode program ++ key.encode authority

/-- The bytes of an event. -/
def toBytes (e : Event) : Bytes :=
  (sha256 (Bytes.ofText "event:" ++ Bytes.ofText e.name)).take 8 ++ e.fields

end Event

end Clmm
