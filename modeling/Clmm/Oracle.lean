import Clmm.Key
import Clmm.Outcome

/-!
# Clmm.Oracle

**The ring of observations.** After each swap the oracle records the time and a running sum of ticks,
each weighted by the time it was reported for. The ring keeps the last 32 observations. There is at
most one per time, so a time that does not advance records nothing. The sum is a signed 64-bit
counter that wraps around; only differences of it have a meaning.
-/

namespace Clmm

/-- One sample of the tick accumulator. -/
structure Observation where
  /-- The time of the sample, in seconds. -/
  time : Nat
  /-- The sum of ticks over time, modulo `2 ^ 64`. -/
  cumulative : BitVec 64
deriving DecidableEq, Inhabited

/-- The ring of recent observations of a pool. -/
structure Oracle where
  /-- The pool the oracle belongs to. -/
  pool : Key
  /-- Whether anything was recorded yet. -/
  started : Bool
  /-- The place of the newest observation. -/
  newest : Nat
  ring : Vector Observation 32
deriving DecidableEq

namespace Oracle

/-- The oracle of a pool, without observations. -/
def fresh (pool : Key) : Oracle :=
  { pool, started := false, newest := 0, ring := Vector.replicate 32 ⟨0, 0⟩ }

/-- Records that `tick` is reported at `time`. -/
def record (o : Oracle) (time : Nat) (tick : Int) : Outcome Oracle :=
  if !o.started then
    .ok { o with started := true, newest := 0, ring := o.ring.set 0 ⟨time, 0⟩ }
  else if h : o.newest < 32 then
    let last := o.ring[o.newest]
    if time ≤ last.time then .ok o
    else
      let next := (o.newest + 1) % 32
      let sample : Observation :=
        ⟨time, last.cumulative + BitVec.ofInt 64 (tick * ((time - last.time : Nat) : Int))⟩
      .ok { o with newest := next, ring := o.ring.setIfInBounds next sample }
  else .error .fault

end Oracle

end Clmm
