import Clmm.Refusal
import Clmm.Outcome
import Clmm.Token
import Clmm.Codec
import Clmm.Liquidity
import Clmm.SwapStep
import Clmm.Bits
import Clmm.TickArray
import Clmm.Pool
import Clmm.Position
import Clmm.Oracle
import Clmm.HookRegistry
import Clmm.LiquidityChange
import Clmm.Swap
import Clmm.Market
import Clmm.Address
import Clmm.Base58
import Clmm.Layout
import Clmm.TransferHook
import Clmm.LeadingArrays
import Clmm.Ledger.Processor
import Clmm.Ledger.Client
import Clmm.Proofs.BitScan
import Clmm.Proofs.Heading
import Clmm.Proofs.Placement
import Clmm.Proofs.PriceOrder
import Clmm.Proofs.ArrayIndex
import Clmm.Proofs.TickTable
import Clmm.Proofs.LiquiditySum
import Clmm.Proofs.ExactAmount
import Clmm.Proofs.StepBounds
import Clmm.Proofs.Run
import Clmm.Proofs.WellFormed
import Clmm.Proofs.TickChange
import Clmm.Proofs.PositionChange
import Clmm.Proofs.Seek
import Clmm.Proofs.Walk
import Clmm.Proofs.SwapEffect
import Clmm.Proofs.Reachable
import Clmm.Proofs.LiquidityLedger
import Clmm.Proofs.BlindSwap
import Clmm.Proofs.ExactCrossing
import Clmm.Proofs.Stake
import Clmm.Proofs.SwapBalance
import Clmm.Proofs.PositionBalance
import Clmm.Proofs.Solvency
import Clmm.Proofs.LazyFees
import Clmm.Proofs.Curve
import Clmm.Proofs.RoundTrip
import Clmm.Proofs.InputReach
import Clmm.Proofs.Configured
import Clmm.Proofs.LiquidityBound
import Clmm.Proofs.Progress
import Clmm.Proofs.ChangeSucceeds
import Clmm.Proofs.Withdrawal
import Clmm.Proofs.Faults
import Clmm.Proofs.StepFault
import Clmm.Proofs.SearchDecides
import Clmm.Proofs.WalkEnds
import Clmm.Proofs.SwapFault
import Clmm.Proofs.StartSet
import Clmm.Proofs.PriceRange
import Clmm.Proofs.FailedChange
import Clmm.Proofs.FailedSwap
import Clmm.Proofs.IndexRepresentation
import Clmm.Proofs.SplitSwap
import Clmm.Proofs.TickAccumulation
import Clmm.Proofs.HookGovernance
import Clmm.Proofs.LedgerRun
import Clmm.Proofs.LedgerOutline
import Clmm.Proofs.InstructionFrame
import Clmm.Proofs.PositionInstructions
import Clmm.Proofs.PoolInstructions
import Clmm.Proofs.LedgerHistory
import Clmm.Proofs.HookAuthorization
import Clmm.Proofs.PositionControl
import Clmm.Proofs.PriceAccuracy
import Clmm.Proofs.StepContract
import Clmm.Proofs.ExactOutput
import Clmm.Proofs.Halting
import Clmm.Proofs.LoopBounds
import Clmm.Proofs.ExtremalPrice
import Clmm.Proofs.LargerSwap
import Clmm.Proofs.FurtherArrays
import Clmm.Proofs.ArraySequence
import Clmm.Proofs.UndoneChange
import Clmm.Proofs.Tally
import Clmm.Proofs.OpenThenClose
import Clmm.Proofs.RangeAmounts
import Clmm.Proofs.DerivedDeposit
import Clmm.Proofs.CommutingDeposits
import Clmm.Proofs.ObservationRing
import Clmm.Proofs.AccountRoundTrip
import Clmm.Proofs.SplitAmount
import Clmm.Proofs.ArraySearch
import Clmm.Proofs.ScanLoop
