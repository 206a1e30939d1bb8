import Clmm.Bits
import Clmm.TickArray

/-!
# Clmm.Bitmap

**Which tick arrays are in use.** One bit per possible array start tells whether the array holds a
tick in use. The bits form one string, ordered by start index, but are stored in two places: the
1024 bits around tick 0 in the pool itself (the *native span*), the 7168 bits below them and the 7168
bits above them in an extension that a caller may leave out.

`BitmapView` is the reading side: without the extension the outer words are hidden, and a search
that would have to look at one ends there.
-/

namespace Clmm

namespace Bitmap

/-- Words in the pool's own part. -/
def nativeWords : Nat := 16

/-- Words in each of the two outer parts. -/
def sideWords : Nat := 112

/-- First word above the native span. -/
def positiveStart : Nat := sideWords + nativeWords

/-- The length of the whole string. -/
def totalBits : Nat := 64 * (sideWords + nativeWords + sideWords)

/-- The bit of the array that starts at 0. -/
def zeroBit : Nat := 64 * sideWords + 512

/-- The bit of an array start. -/
def bitIndex (start : Int) (spacing : Nat) : Outcome Nat := do
  require (TickArray.isValidStart start spacing) .invalidTickArrayStart
  let bit := start / TickArray.span spacing + zeroBit
  require (0 ≤ bit ∧ bit < totalBits) .invalidTickArrayStart
  return bit.toNat

/-- The array start of a bit. The bit is read as a signed 32-bit number. -/
def startOfBit (bit spacing : Nat) : Outcome Int := do
  let fromSide ← signedWithin 32 (Int.bmod bit (2 ^ 32) - (64 * sideWords : Nat))
  let fromZero ← signedWithin 32 (fromSide - 512)
  signedWithin 32 (fromZero * TickArray.span spacing)

/-- Whether a bit is stored in the pool itself. -/
def isNative (bit : Nat) : Bool := 64 * sideWords ≤ bit && bit < 64 * positiveStart

end Bitmap

/-- The outer parts of a pool's bitmap. -/
structure BitmapExtension where
  /-- The pool the extension belongs to. -/
  pool : Key
  /-- Arrays below the native span, lowest start first. -/
  negative : Vector Word Bitmap.sideWords
  /-- Arrays above the native span, lowest start first. -/
  positive : Vector Word Bitmap.sideWords
deriving DecidableEq

namespace BitmapExtension

/-- The extension of a pool without arrays in use. -/
def empty (pool : Key) : BitmapExtension :=
  ⟨pool, Vector.replicate _ 0, Vector.replicate _ 0⟩

end BitmapExtension

/-- The pool's own part of the bitmap. -/
abbrev NativeBitmap := Vector Word Bitmap.nativeWords

/-- What a reader sees of the bitmap. -/
structure BitmapView where
  native : NativeBitmap
  extension : Option BitmapExtension
  spacing : Nat

namespace BitmapView

open Bitmap

/-- A word of the whole string, if it exists and is not hidden. -/
def wordAt (v : BitmapView) (i : Nat) : Option Word :=
  if i < sideWords then v.extension.bind (·.negative[i]?)
  else if i < positiveStart then v.native[i - sideWords]?
  else v.extension.bind (·.positive[i - positiveStart]?)

/-- Whether the array at `start` holds a tick in use. -/
def isUsed (v : BitmapView) (start : Int) : Outcome Bool := do
  let bit ← bitIndex start v.spacing
  match v.wordAt (bit / 64) with
  | some w => return w.getLsbD (bit % 64)
  | none => throw (.refused .bitmapExtensionNotLoaded)

/-- The next array in use strictly beyond `start` in the direction of a swap. Where the view ends, no
array is found. -/
def nextUsed? (v : BitmapView) (start : Int) (d : Direction) : Outcome (Option Int) := do
  let bit ← bitIndex start v.spacing
  let found := match d with
    | .down => if bit = 0 then none else Bits.scanDown v.wordAt (bit - 1)
    | .up => Bits.scanUp v.wordAt (bit + 1) totalBits
  match found with
  | some b => return some (← startOfBit b v.spacing)
  | none => return none

/-- The array with which a swap at tick `t` begins: the one around the tick if it is in use, otherwise
the next in the direction of the swap. -/
def firstUsed? (v : BitmapView) (t : Int) (d : Direction) : Outcome (Option Int) := do
  let start ← TickArray.startOf t v.spacing
  if ← v.isUsed start then return some start
  v.nextUsed? start d

/-- The ticks whose arrays the view shows: from the first index up to, not including, the second. -/
def visibleTicks (v : BitmapView) : Outcome (Int × Int) :=
  if v.extension.isSome then .ok (minTick, maxTick)
  else do
    let low ← startOfBit (64 * sideWords) v.spacing
    let high ← startOfBit (64 * positiveStart) v.spacing
    return (max low minTick, min high maxTick)

end BitmapView

namespace Bitmap

/-- Inverts the bit of the array at `start`. -/
def flip (native : NativeBitmap) (extension : Option BitmapExtension) (start : Int) (spacing : Nat) :
    Outcome (NativeBitmap × Option BitmapExtension) := do
  let bit ← bitIndex start spacing
  if isNative bit then
    return (← Bits.flipBit native (bit - 64 * sideWords), extension)
  match extension with
  | none => throw (.refused .bitmapExtensionNotLoaded)
  | some e =>
    if bit < 64 * sideWords then
      return (native, some { e with negative := ← Bits.flipBit e.negative bit })
    else
      return (native, some { e with positive := ← Bits.flipBit e.positive (bit - 64 * positiveStart) })

end Bitmap

end Clmm
