import Clmm.Proofs.SwapFault

/-!
# Clmm.Proofs.Halting

**No part of a swap runs out of steps**, whatever it is given: each computation on the way to a step, and
the step itself, gives a value, refuses or faults (`Outcome.Halts`). Of a sequence this is asked of every
part and of every value that comes before it, so nothing need be known of the pool, the arrays or the
bitmap.

Almost all parts of a swap have nothing to do with the arrays either. They are *sated*: they fail neither
for want of steps nor for want of arrays (`Outcome.Sated`). Only the search through the supplied arrays
can ask for one that is not there.
-/

namespace Clmm

/-- A failure for want of what a walk is given: its steps, or its arrays. -/
def Failure.isWant : Failure → Bool
  | .unfinished => true
  | .refused .arrayNotLoaded => true
  | .refused .outOfTickArrays => true
  | _ => false

/-! ### Computations that do not run out of steps -/

namespace Outcome

variable {α β : Type} {x y : Outcome α} {f : α → Outcome β}

/-- The computation does not run out of steps. -/
def Halts (x : Outcome α) : Prop := x ≠ .error .unfinished

theorem Decides.halts (h : Decides x) : Halts x := by
  intro hx
  obtain ⟨r, hr⟩ := h _ hx
  cases hr

theorem halts_pure (a : α) : Halts (pure a : Outcome α) := (decides_pure a).halts

theorem Halts.bind (hx : Halts x) (hf : ∀ a, Halts (f a)) : Halts (x >>= f) := by
  intro h
  rcases bind_eq_error.1 h with h | ⟨a, -, h⟩
  · exact hx h
  · exact hf a h

/-! ### Computations that fail for no want -/

/-- The computation does not fail for want of steps or of arrays. -/
def Sated (x : Outcome α) : Prop := ∀ e, x = .error e → e.isWant = false

theorem Sated.halts (h : Sated x) : Halts x := by
  intro hx
  exact Bool.noConfusion (h _ hx)

theorem sated_pure (a : α) : Sated (pure a : Outcome α) := by
  intro e he
  cases he

theorem sated_error {e : Failure} (h : e.isWant = false) : Sated (.error e : Outcome α) := by
  intro e' he'
  obtain rfl := Except.error.inj he'
  exact h

theorem Sated.bind_of_ok (hx : Sated x) (hf : ∀ a, x = .ok a → Sated (f a)) : Sated (x >>= f) := by
  intro e he
  rcases bind_eq_error.1 he with he | ⟨a, ha, he⟩
  · exact hx e he
  · exact hf a ha e he

theorem Sated.bind (hx : Sated x) (hf : ∀ a, Sated (f a)) : Sated (x >>= f) :=
  hx.bind_of_ok fun a _ => hf a

theorem Sated.ite {p : Prop} [Decidable p] (hx : Sated x) (hy : Sated y) :
    Sated (if p then x else y) := by
  by_cases hp : p
  · rwa [if_pos hp]
  · rwa [if_neg hp]

section Checks

variable {p : Prop} [Decidable p] {bits n m : Nat} {z : Int} {r : Refusal}

theorem sated_require (hr : (Failure.refused r).isWant = false) : Sated (require p r) :=
  .ite (sated_pure ()) (sated_error hr)

theorem sated_guardFault : Sated (guardFault p) := .ite (sated_pure ()) (sated_error rfl)

theorem sated_within : Sated (within bits n) := .ite (sated_pure n) (sated_error rfl)

theorem sated_signedWithin : Sated (signedWithin bits z) := .ite (sated_pure z) (sated_error rfl)

theorem sated_narrow (hr : (Failure.refused r).isWant = false) : Sated (narrow bits n r) :=
  .ite (sated_pure n) (sated_error hr)

theorem sated_signedNarrow (hr : (Failure.refused r).isWant = false) :
    Sated (signedNarrow bits z r) :=
  .ite (sated_pure z) (sated_error hr)

theorem sated_subOrRefuse (hr : (Failure.refused r).isWant = false) : Sated (subOrRefuse n m r) :=
  .ite (sated_pure _) (sated_error hr)

theorem sated_mulDiv {d : Nat} {rounding : Rounding} : Sated (mulDiv rounding n m d) :=
  (sated_require rfl).bind fun _ => sated_narrow rfl

theorem sated_addSigned : Sated (addSigned n z) := .ite (sated_subOrRefuse rfl) (sated_narrow rfl)

end Checks

end Outcome

open Outcome

namespace TickArray

variable {a : TickArray} {t : Int} {spacing offset : Nat} {d : Direction}

theorem sated_startOf : Sated (startOf t spacing) := sated_guardFault.bind fun _ => sated_signedWithin

theorem sated_nextUsed? : Sated (a.nextUsed? t spacing d) := by
  refine sated_signedWithin.bind fun relative => ?_
  cases d with
  | down => exact .ite (sated_pure _) (sated_guardFault.bind fun _ => sated_pure _)
  | up =>
      exact .ite (sated_pure _)
        (sated_guardFault.bind fun _ => sated_signedWithin.bind fun _ => sated_pure _)

theorem sated_indexAt : Sated (a.indexAt offset spacing) :=
  sated_signedWithin.bind fun _ => sated_signedWithin

theorem sated_slot : Sated (a.slot offset) := by
  simp only [slot]
  split
  · exact sated_pure _
  · exact sated_error rfl

end TickArray

namespace Bitmap

theorem sated_bitIndex {start : Int} {spacing : Nat} : Sated (bitIndex start spacing) :=
  (sated_require rfl).bind fun _ => (sated_require rfl).bind fun _ => sated_pure _

theorem sated_startOfBit {b spacing : Nat} : Sated (startOfBit b spacing) :=
  sated_signedWithin.bind fun _ => sated_signedWithin.bind fun _ => sated_signedWithin

end Bitmap

namespace BitmapView

variable {v : BitmapView} {start t : Int} {d : Direction}

theorem sated_isUsed : Sated (v.isUsed start) := by
  refine Bitmap.sated_bitIndex.bind fun bit => ?_
  cases v.wordAt (bit / 64) with
  | some w => exact sated_pure _
  | none => exact sated_error rfl

theorem sated_nextUsed? : Sated (v.nextUsed? start d) := by
  refine Bitmap.sated_bitIndex.bind fun bit => ?_
  dsimp only
  split
  · exact Bitmap.sated_startOfBit.bind fun _ => sated_pure _
  · exact sated_pure _

theorem sated_firstUsed? : Sated (v.firstUsed? t d) :=
  TickArray.sated_startOf.bind fun _ => sated_isUsed.bind fun _ =>
    .ite (sated_pure _) sated_nextUsed?

theorem sated_visibleTicks : Sated v.visibleTicks :=
  .ite (sated_pure _) (Bitmap.sated_startOfBit.bind fun _ =>
    Bitmap.sated_startOfBit.bind fun _ => sated_pure _)

end BitmapView

section Amounts

variable {d : Direction} {a b p n fee rate protocolRate fundRate liquidity amount : Nat} {t : Int}

theorem sated_sqrtPriceAt : Sated (sqrtPriceAt t) := (sated_require rfl).bind fun _ => sated_pure _

theorem sated_tickAt : Sated (tickAt p) := (sated_require rfl).bind fun _ => sated_pure _

theorem sated_amount0 {r : Rounding} : Sated (amount0 a b liquidity r) :=
  (sated_require rfl).bind fun _ => sated_within.bind fun _ => sated_narrow rfl

theorem sated_amountIn : Sated (d.amountIn a b liquidity) := by
  cases d with
  | down => exact sated_amount0
  | up => exact sated_mulDiv

theorem sated_amountOut : Sated (d.amountOut a b liquidity) := by
  cases d with
  | down => exact sated_mulDiv
  | up => exact sated_amount0

theorem sated_tokenAmount : Sated (tokenAmount n) := sated_narrow rfl

theorem sated_nextPriceBy0 {flow : Flow} : Sated (nextPriceBy0 p liquidity amount flow) := by
  have hscaled : ∀ denominator, Sated (do
      let scaled ← within 256 (liquidity * 2 ^ 64 * p)
      guardFault (denominator ≠ 0)
      narrow 128 (divUp scaled denominator) .mathOverflow) := fun denominator =>
    sated_within.bind fun _ => sated_guardFault.bind fun _ => sated_narrow rfl
  refine .ite (sated_pure p) ?_
  cases flow with
  | add => exact (sated_pure _).bind hscaled
  | remove => exact (sated_require rfl).bind fun _ => (sated_pure _).bind hscaled

theorem sated_nextPriceBy1 {flow : Flow} : Sated (nextPriceBy1 p liquidity amount flow) := by
  refine .ite (sated_pure p) (sated_guardFault.bind fun _ => ?_)
  cases flow with
  | add => exact (sated_narrow rfl).bind fun _ => sated_narrow rfl
  | remove =>
      exact (sated_narrow rfl).bind fun _ => (sated_require rfl).bind fun _ => sated_pure _

theorem sated_nextPriceByInput : Sated (nextPriceByInput p liquidity amount d) := by
  refine (sated_require rfl).bind fun _ => (sated_require rfl).bind fun _ => ?_
  cases d with
  | down => exact sated_nextPriceBy0
  | up => exact sated_nextPriceBy1

theorem sated_nextPriceByOutput : Sated (nextPriceByOutput p liquidity amount d) := by
  refine (sated_require rfl).bind fun _ => (sated_require rfl).bind fun _ => ?_
  cases d with
  | down => exact sated_nextPriceBy1
  | up => exact sated_nextPriceBy0

theorem sated_splitFee : Sated (splitFee fee protocolRate fundRate) := by
  have hshare : ∀ rate, Sated (feeShare fee rate) := fun rate =>
    sated_mulDiv.bind fun _ => sated_pure _
  exact (hshare _).bind fun _ => (hshare _).bind fun _ => (sated_subOrRefuse rfl).bind fun _ =>
    (sated_subOrRefuse rfl).bind fun _ => sated_pure _

theorem sated_feeGrowth : Sated (feeGrowth fee liquidity) :=
  .ite (sated_pure _) (sated_mulDiv.bind fun _ => sated_pure _)

end Amounts

namespace SwapStep

variable {n current target liquidity remaining rate : Nat} {mode : SwapMode} {d : Direction}

theorem sated_feeOn : Sated (feeOn n rate) := sated_mulDiv.bind fun _ => sated_tokenAmount

theorem sated_exactIn : Sated (exactIn current target liquidity remaining rate d) := by
  refine sated_mulDiv.bind fun _ => sated_amountIn.bind fun _ => .ite ?_ ?_
  · exact sated_amountOut.bind fun _ => sated_tokenAmount.bind fun _ =>
      sated_feeOn.bind fun _ => sated_pure _
  · exact sated_nextPriceByInput.bind fun _ => sated_amountIn.bind fun _ =>
      sated_tokenAmount.bind fun _ => sated_amountOut.bind fun _ =>
      sated_tokenAmount.bind fun _ => (sated_subOrRefuse rfl).bind fun _ => sated_pure _

theorem sated_exactOut : Sated (exactOut current target liquidity remaining rate d) := by
  refine sated_amountOut.bind fun _ => .ite ?_ ?_
  · exact sated_amountIn.bind fun _ => sated_tokenAmount.bind fun _ =>
      sated_feeOn.bind fun _ => sated_pure _
  · exact sated_nextPriceByOutput.bind fun _ => sated_amountIn.bind fun _ =>
      sated_tokenAmount.bind fun _ => sated_amountOut.bind fun _ =>
      sated_tokenAmount.bind fun _ => sated_feeOn.bind fun _ => sated_pure _

theorem sated_compute : Sated (compute current target liquidity remaining rate mode d) := by
  refine (sated_require rfl).bind fun _ => ?_
  cases mode with
  | exactIn => exact sated_exactIn
  | exactOut => exact sated_exactOut

end SwapStep

namespace Swap

/-! ### One step -/

section Steps

variable {c : Course} {w w' : Walk} {s : SwapStep} {t tick : Int} {index : Nat} {a : TickArray}
  {arrays rest : List TickArray} {found : Option (Cursor × Nat)}

theorem halts_seek : Halts (seek c tick index a rest) := by
  induction rest generalizing index a with
  | nil =>
      unfold seek
      refine TickArray.sated_nextUsed?.halts.bind fun inside => ?_
      cases inside with
      | some offset => exact halts_pure _
      | none =>
          refine BitmapView.sated_nextUsed?.halts.bind fun next => ?_
          cases next with
          | none => exact halts_pure _
          | some start => exact (decides_refused _).halts
  | cons b rest ih =>
      unfold seek
      refine TickArray.sated_nextUsed?.halts.bind fun inside => ?_
      cases inside with
      | some offset => exact halts_pure _
      | none =>
          refine BitmapView.sated_nextUsed?.halts.bind fun next => ?_
          cases next with
          | none => exact halts_pure _
          | some start => exact decides_require.halts.bind fun _ => ih

theorem halts_firstCursor : Halts (firstCursor c arrays tick) := by
  refine BitmapView.sated_firstUsed?.halts.bind fun first => ?_
  cases first with
  | none => exact halts_pure _
  | some start =>
      cases arrays with
      | nil => exact (decides_refused _).halts
      | cons a rest => exact decides_require.halts.bind fun _ => halts_pure _

theorem halts_target : Halts (target c w) := by
  simp only [target]
  cases w.cursor with
  | none => exact halts_pure _
  | some k => exact halts_seek

theorem sated_bound : Sated (bound c w found) := by
  cases found with
  | some place => exact TickArray.sated_indexAt
  | none =>
      simp only [bound, edge]
      cases c.direction with
      | down => exact (sated_require rfl).bind fun _ => sated_pure _
      | up => exact (sated_require rfl).bind fun _ => sated_pure _

theorem sated_settleStep : Sated (settleStep c w s) := by
  simp only [settleStep]
  exact (sated_narrow rfl).bind fun _ => (sated_subOrRefuse rfl).bind fun _ =>
    (sated_narrow rfl).bind fun _ => sated_splitFee.bind fun _ => (sated_narrow rfl).bind fun _ =>
    (sated_narrow rfl).bind fun _ => (sated_narrow rfl).bind fun _ => sated_feeGrowth.bind fun _ =>
    sated_pure _

theorem sated_crossTick {k : Cursor} {offset : Nat} : Sated (crossTick c w k offset) := by
  refine TickArray.sated_slot.bind fun before => ?_
  cases c.direction with
  | down =>
      exact (sated_signedNarrow rfl).bind fun _ => sated_addSigned.bind fun _ => sated_pure _
  | up => exact (sated_pure _).bind fun _ => sated_addSigned.bind fun _ => sated_pure _

theorem sated_arriveAt : Sated (arriveAt c found t w) := by
  cases found with
  | none => exact (sated_pure _).bind fun _ => sated_pure _
  | some place => exact sated_crossTick.bind fun _ => sated_pure _

/-- **A step wants only what its search wants.** Once it knows where it heads, nothing is missing. -/
theorem target_eq_error_of_step {e : Failure} (he : e.isWant = true) (h : step c w = .error e) :
    target c w = .error e := by
  rw [step_eq, bind_eq_error] at h
  rcases h with h | ⟨found, -, h⟩
  · exact h
  · have hplain : e.isWant = false :=
      (sated_bound.bind fun _ => sated_sqrtPriceAt.bind fun _ => SwapStep.sated_compute.bind fun _ =>
        sated_settleStep.bind fun _ =>
        .ite sated_arriveAt (.ite (sated_tickAt.bind fun _ => sated_pure _) (sated_pure _))) e h
    rw [hplain] at he
    cases he

/-- **No step runs out of steps**, from whatever walk it is taken. -/
theorem halts_step : Halts (step c w) :=
  fun h => halts_target (target_eq_error_of_step rfl h)

end Steps

end Swap

end Clmm
