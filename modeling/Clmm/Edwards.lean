import Clmm.Key

/-!
# Clmm.Edwards

**Which keys are points of the signature curve.** Signing keys are points of the twisted Edwards curve
`-x² + y² = 1 + d x² y²` over the field of `2^255 - 19` elements, compressed to `y` and the sign of
`x`. An address that belongs to a program must not be such a point, so that nobody can hold a signing
key for it.

A number `y` is the height of a point exactly when `(y² - 1) / (d y² + 1)` is a square. The denominator
is never zero, because `-1` is a square and `d` is not, so the quotient is a square exactly when the
product is, and that is what Euler's criterion decides.
-/

namespace Clmm

namespace Edwards

/-- The size of the field. -/
def prime : Nat := 2 ^ 255 - 19

/-- The curve's coefficient `-121665 / 121666`. -/
def coefficient : Nat :=
  37095705934669439343138083508754565189542113879843219016388785533085940283555

/-- Repeated squaring: `acc * base ^ e` for the lower `bits` bits of the exponent `e`. -/
def powerMod (modulus : Nat) : Nat → Nat → Nat → Nat → Nat
  | 0, _, _, acc => acc
  | bits + 1, base, e, acc =>
    powerMod modulus bits (base * base % modulus) (e / 2)
      (if e % 2 = 1 then acc * base % modulus else acc)

/-- Whether a field element is a square, zero included. -/
def isSquare (x : Nat) : Bool :=
  powerMod prime 255 (x % prime) ((prime - 1) / 2) 1 ≤ 1

/-- Whether some point of the curve has height `y`. -/
def isHeight (y : Nat) : Bool :=
  let square := y * y % prime
  isSquare ((square + (prime - 1)) * (coefficient * square + 1))

/-- Whether a key is a compressed point. The top bit, the sign of the other coordinate, does not
matter, and heights beyond the field are read modulo its size. -/
def isPoint (k : Key) : Bool :=
  isHeight (Bytes.toNatLe k.toBytes % 2 ^ 255 % prime)

end Edwards

end Clmm
