import Clmm.Outcome
import Clmm.Search

/-!
# Clmm.Bits

**Bit strings in 64-bit words.** A long bit string is a row of words; bit `b` of the string is bit
`b % 64` of word `b / 64`. A scan looks for the next set bit in one direction, word by word. It reads
the words through a function that may hide some of them, and ends without an answer at the first
hidden word: what lies behind it is unknown.
-/

namespace Clmm

/-- Sixty-four bits. -/
abbrev Word := BitVec 64

namespace Word

/-- Bit `i` of a word; there is no bit 64 or above to ask for. -/
def bit (w : Word) (i : Nat) : Outcome Bool := do
  guardFault (i < 64)
  return w.getLsbD i

/-- The lowest set bit at `start` or above. -/
def nextSet? (w : Word) (start : Nat) : Option Nat :=
  if w = 0 then none else leastBelow? (fun i => start ≤ i && w.getLsbD i) 64

/-- The highest set bit at `start` or below. -/
def prevSet? (w : Word) (start : Nat) : Option Nat :=
  if w = 0 then none else greatestBelow? w.getLsbD (min start 63 + 1)

end Word

namespace Bits

/-- Bit `b` of a row of words. -/
def getBit {n : Nat} (words : Vector Word n) (b : Nat) : Outcome Bool :=
  if h : b / 64 < n then .ok (words[b / 64].getLsbD (b % 64)) else .error .fault

/-- Inverts bit `b` of a row of words. -/
def flipBit {n : Nat} (words : Vector Word n) (b : Nat) : Outcome (Vector Word n) :=
  if h : b / 64 < n then
    .ok (words.set (b / 64) (words[b / 64] ^^^ BitVec.twoPow 64 (b % 64)))
  else .error .fault

/-- Scans `n` words upward from bit `start` of word `index`. -/
def scanUpWords (wordAt : Nat → Option Word) (index start : Nat) : Nat → Option Nat
  | 0 => none
  | n + 1 => do
    let w ← wordAt index
    match w.nextSet? start with
    | some i => some (index * 64 + i)
    | none => scanUpWords wordAt (index + 1) 0 n

/-- The first set bit from `start` upward. The scan enters a word only if the word begins before
`total`. -/
def scanUp (wordAt : Nat → Option Word) (start total : Nat) : Option Nat :=
  if start < total then
    scanUpWords wordAt (start / 64) (start % 64) ((total - 1) / 64 - start / 64 + 1)
  else none

/-- Scans downward from bit `start` of word `index`. -/
def scanDownWords (wordAt : Nat → Option Word) : Nat → Nat → Option Nat
  | 0, start => do
    let w ← wordAt 0
    w.prevSet? start
  | index + 1, start => do
    let w ← wordAt (index + 1)
    match w.prevSet? start with
    | some i => some ((index + 1) * 64 + i)
    | none => scanDownWords wordAt index 63

/-- The first set bit from `start` downward. -/
def scanDown (wordAt : Nat → Option Word) (start : Nat) : Option Nat :=
  scanDownWords wordAt (start / 64) (start % 64)

end Bits

end Clmm
