import Clmm.Pool
import Clmm.SwapStep

/-!
# Clmm.Swap

**Swaps.** A swap walks the price from tick to tick until the request is settled or the price limit
is reached. Between two ticks in use the liquidity is constant and one `SwapStep` tells what happens;
at a tick in use the liquidity in range changes and the tick is *crossed*.

Design points:

* The supplied arrays have to follow the bitmap: first the array around the current tick if it is in
  use, otherwise the next one in use, then each next one. They are looked at one by one, in order,
  and only as far as the walk gets; the `Cursor` is the place in the list.
* Past the last array in use the walk runs to the edge of what the bitmap shows.
* The walk writes nothing. Crossed ticks are collected and written at the end, in `commit`, which is
  an `Update`: its last two entries, fees and volumes, are additions that may be refused.
* Every step that leaves something to do moves the walk's tick in the direction of the swap, so the
  number of ticks bounds the number of steps (`stepLimit`).
-/

namespace Clmm

/-- A request to swap. -/
structure SwapRequest where
  /-- The fixed amount: of the input or of the output token, as `mode` says. -/
  amount : Nat
  /-- The least output for a fixed input, the greatest input for a fixed output. -/
  threshold : Nat
  /-- A price that the walk may not pass; zero for none. -/
  limit : Nat
  mode : SwapMode
  direction : Direction
deriving DecidableEq, Repr

/-- A settled swap. -/
structure SwapResult where
  amountIn : Nat
  amountOut : Nat
  /-- The trade fee, all shares included, in the input token. -/
  fee : Nat
  protocolFee : Nat
  fundFee : Nat
  /-- How many ticks were crossed. -/
  crossed : Nat
deriving DecidableEq, Repr

/-- What a swap works on: the pool and the supplied tick arrays. -/
structure SwapBook where
  pool : Pool
  arrays : List TickArray
deriving DecidableEq

namespace Swap

/-- The fixed surroundings of a walk. -/
structure Course where
  tradeRate : Nat
  protocolRate : Nat
  fundRate : Nat
  spacing : Nat
  view : BitmapView
  /-- The ticks whose arrays are visible: from the first up to, not including, the second. -/
  visible : Int × Int
  /-- The price limit in effect. -/
  limit : Nat
  mode : SwapMode
  direction : Direction
  /-- The fee growth of both tokens before the swap. -/
  growth : Pair Growth

/-- A place in the list of supplied arrays. -/
structure Cursor where
  /-- The place of the array in the list. -/
  index : Nat
  array : TickArray
  /-- The arrays after it. -/
  rest : List TickArray

/-- A crossed tick and where it belongs. -/
structure Crossing where
  /-- The place of the array in the list. -/
  index : Nat
  /-- The place of the tick in the array. -/
  offset : Nat
  /-- The tick after crossing. -/
  tick : Tick

/-- The state of a walk. -/
structure Walk where
  /-- What is left of the fixed amount. -/
  remaining : Nat
  /-- What was added up of the other amount. -/
  calculated : Nat
  sqrtPrice : Nat
  tick : Int
  liquidity : Nat
  /-- The fee growth of the input token. -/
  growth : Growth
  fee : Nat
  protocolFee : Nat
  fundFee : Nat
  /-- The array the walk is in; `none` past the last one in use. -/
  cursor : Option Cursor
  /-- The crossed ticks, in order. -/
  crossings : List Crossing

/-- The next tick in use at or after the given place, moving on through the supplied arrays as the
bitmap tells; `none` if the bitmap shows no further array. -/
def seek (c : Course) (tick : Int) (index : Nat) (a : TickArray) (rest : List TickArray) :
    Outcome (Option (Cursor × Nat)) := do
  match ← a.nextUsed? tick c.spacing c.direction with
  | some offset => return some (⟨index, a, rest⟩, offset)
  | none =>
    match ← c.view.nextUsed? a.start c.direction with
    | none => return none
    | some start =>
      match rest with
      | [] => throw (.refused .outOfTickArrays)
      | b :: rest =>
        require (b.start = start) .arrayNotLoaded
        seek c tick (index + 1) b rest

/-- The cursor at the array with which the walk begins. -/
def firstCursor (c : Course) (arrays : List TickArray) (tick : Int) : Outcome (Option Cursor) := do
  match ← c.view.firstUsed? tick c.direction with
  | none => return none
  | some start =>
    match arrays with
    | [] => throw (.refused .outOfTickArrays)
    | a :: rest =>
      require (a.start = start) .arrayNotLoaded
      return some ⟨0, a, rest⟩

/-- The edge of the visible ticks in the direction of the swap, which the walk must not have passed. -/
def edge (c : Course) (tick : Int) : Outcome Int :=
  match c.direction with
  | .down => do
    require (c.visible.1 ≤ tick) .bitmapExtensionNotLoaded
    return c.visible.1
  | .up => do
    require (tick < c.visible.2) .bitmapExtensionNotLoaded
    return c.visible.2

/-- The nearer of two prices in the direction of the swap. -/
def nearer (d : Direction) (a b : Nat) : Nat :=
  match d with
  | .down => max a b
  | .up => min a b

/-- Books the amounts and fees of a step. -/
def settleStep (c : Course) (w : Walk) (s : SwapStep) : Outcome Walk := do
  let paid ← narrow 64 (s.amountIn + s.fee) .mathOverflow
  let (spent, gained) := match c.mode with
    | .exactIn => (paid, s.amountOut)
    | .exactOut => (s.amountOut, paid)
  let remaining ← subOrRefuse w.remaining spent .mathOverflow
  let calculated ← narrow 64 (w.calculated + gained) .mathOverflow
  let split ← splitFee s.fee c.protocolRate c.fundRate
  let fee ← narrow 64 (w.fee + s.fee) .mathOverflow
  let protocolFee ← narrow 64 (w.protocolFee + split.protocol) .mathOverflow
  let fundFee ← narrow 64 (w.fundFee + split.fund) .mathOverflow
  let growth ← feeGrowth split.providers w.liquidity
  return { w with remaining, calculated, fee, protocolFee, fundFee, growth := w.growth + growth,
                  sqrtPrice := s.sqrtPrice }

/-- Crosses a tick in use: the far side's growth is turned round and the liquidity in range changes by
the tick's net. -/
def crossTick (c : Course) (w : Walk) (at_ : Cursor) (offset : Nat) : Outcome Walk := do
  let before ← at_.array.slot offset
  let tick := before.cross (c.growth.set c.direction.input w.growth)
  let delta ← match c.direction with
    | .down => signedNarrow 128 (-tick.net) .mathOverflow
    | .up => pure tick.net
  let liquidity ← addSigned w.liquidity delta
  return { w with liquidity, crossings := w.crossings ++ [⟨at_.index, offset, tick⟩] }

/-- One step of the walk. -/
def step (c : Course) (w : Walk) : Outcome Walk := do
  let target ← match w.cursor with
    | some k => seek c w.tick k.index k.array k.rest
    | none => pure none
  let w := { w with cursor := target.map (·.1) }
  let bound ← match target with
    | some (k, offset) => k.array.indexAt offset c.spacing
    | none => edge c w.tick
  let boundPrice ← sqrtPriceAt bound
  let s ← SwapStep.compute w.sqrtPrice (nearer c.direction boundPrice c.limit) w.liquidity
    w.remaining c.tradeRate c.mode c.direction
  let moved ← settleStep c w s
  if s.sqrtPrice = boundPrice then
    let arrived ← match target with
      | some (k, offset) => crossTick c moved k offset
      | none => pure moved
    return { arrived with tick := match c.direction with | .down => bound - 1 | .up => bound }
  else if s.sqrtPrice ≠ w.sqrtPrice then
    return { moved with tick := ← tickAt s.sqrtPrice }
  else
    return moved

/-- Whether the walk is over: nothing is left, or the price is at its limit. -/
def isDone (c : Course) (w : Walk) : Bool := w.remaining = 0 || w.sqrtPrice = c.limit

/-- More steps than any walk takes. -/
def stepLimit : Nat := 887275

/-- Takes steps until the walk is over. -/
def walk (c : Course) : Nat → Walk → Outcome Walk
  | 0, w => if isDone c w then .ok w else .error .unfinished
  | n + 1, w => if isDone c w then .ok w else do walk c n (← step c w)

/-- The price limit in effect: the one of the request, or one step inside the price range. -/
def effectiveLimit (r : SwapRequest) : Nat :=
  if r.limit = 0 then
    match r.direction with
    | .down => minSqrtPrice + 1
    | .up => maxSqrtPrice - 1
  else r.limit

/-- Checks that the limit lies ahead of the price and strictly inside the price range. -/
def checkLimit (r : SwapRequest) (sqrtPrice : Nat) : Outcome Unit :=
  let limit := effectiveLimit r
  match r.direction with
  | .down => require (limit < sqrtPrice ∧ minSqrtPrice < limit) .invalidPriceLimit
  | .up => require (sqrtPrice < limit ∧ limit < maxSqrtPrice) .invalidPriceLimit

/-- The surroundings of a walk. -/
def course (config : FeeConfig) (pool : Pool) (extension : Option BitmapExtension)
    (r : SwapRequest) : Outcome Course := do
  let view := pool.bitmapView extension
  return { tradeRate := config.tradeRate, protocolRate := config.protocolRate,
           fundRate := config.fundRate, spacing := pool.spacing, view,
           visible := ← view.visibleTicks, limit := effectiveLimit r, mode := r.mode,
           direction := r.direction, growth := pool.growth }

/-- The walk before its first step. -/
def start (pool : Pool) (r : SwapRequest) (cursor : Option Cursor) : Walk :=
  { remaining := r.amount, calculated := 0, sqrtPrice := pool.sqrtPrice, tick := pool.tick,
    liquidity := pool.liquidity, growth := pool.growth.get r.direction.input, fee := 0,
    protocolFee := 0, fundFee := 0, cursor, crossings := [] }

/-- The result of a finished walk, if it moved both tokens and keeps within the threshold. -/
def settle (r : SwapRequest) (w : Walk) : Outcome SwapResult := do
  let settled ← subOrRefuse r.amount w.remaining .mathOverflow
  let (amountIn, amountOut) := match r.mode with
    | .exactIn => (settled, w.calculated)
    | .exactOut => (w.calculated, settled)
  require (0 < amountIn ∧ 0 < amountOut) .tooSmallInputOrOutputAmount
  match r.mode with
  | .exactIn => require (r.threshold ≤ amountOut) .slippageExceeded
  | .exactOut => require (amountIn ≤ r.threshold) .slippageExceeded
  return { amountIn, amountOut, fee := w.fee, protocolFee := w.protocolFee, fundFee := w.fundFee,
           crossed := w.crossings.length }

/-- Walks the curve and settles the request; nothing is written. -/
def quote (config : FeeConfig) (book : SwapBook) (extension : Option BitmapExtension)
    (r : SwapRequest) (time : Nat) : Outcome (Walk × SwapResult) := do
  require (r.amount ≠ 0) .zeroAmountSpecified
  require (book.pool.isOpen time) .poolNotOpen
  checkLimit r book.pool.sqrtPrice
  let c ← course config book.pool extension r
  let cursor ← firstCursor c book.arrays book.pool.tick
  let w ← walk c stepLimit (start book.pool r cursor)
  return (w, ← settle r w)

/-- Writes crossed ticks back. -/
def writeCrossings (arrays : List TickArray) (crossings : List Crossing) : List TickArray :=
  crossings.foldl (fun as x => as.modify x.index (·.setSlot x.offset x.tick)) arrays

/-- An update of the pool inside an update of the book. -/
def onPool {α : Type} (u : Update Pool α) : Update SwapBook α := fun b =>
  match u b.pool with
  | .ok a p => .ok a { b with pool := p }
  | .error e p => .error e { b with pool := p }

/-- Writes a finished walk: ticks and price first, then the fees, then the volumes. -/
def commit (d : Direction) (w : Walk) (s : SwapResult) : Update SwapBook Unit := do
  modify fun b => {
    arrays := writeCrossings b.arrays w.crossings
    pool := { b.pool with
      sqrtPrice := w.sqrtPrice, tick := w.tick, liquidity := w.liquidity,
      growth := b.pool.growth.set d.input w.growth } }
  onPool (Pool.accrueFees d s.protocolFee s.fundFee)
  onPool (Pool.recordVolume d s.amountIn s.amountOut)

end Swap

/-- Swaps against a pool at a given time. -/
def swap (config : FeeConfig) (extension : Option BitmapExtension) (r : SwapRequest) (time : Nat) :
    Update SwapBook SwapResult := do
  let (w, s) ← Swap.quote config (← get) extension r time
  Swap.commit r.direction w s
  return s

end Clmm
