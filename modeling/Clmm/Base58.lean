import Clmm.Key

/-!
# Clmm.Base58

**Keys as text.** In messages a key is printed in base 58: digits and letters without the easily
confused `0`, `O`, `I` and `l`. Zero bytes at the front are printed as one `1` each, since the number
that the bytes write does not show them.
-/

namespace Clmm

namespace Base58

/-- The 58 digits. -/
def alphabet : Array Char :=
  "123456789ABCDEFGHJKLMNPQRSTUVWXYZabcdefghijkmnopqrstuvwxyz".toList.toArray

/-- The last `fuel` digits of `n` without leading zeros, put before `acc`. -/
def digits : Nat → Nat → List Char → List Char
  | 0, _, acc => acc
  | fuel + 1, n, acc =>
    if n = 0 then acc else digits fuel (n / 58) (alphabet.getD (n % 58) '1' :: acc)

/-- The text of a byte string. A byte takes at most two digits. -/
def encode (bs : Bytes) : String :=
  let leading := bs.takeWhile (· = 0)
  String.ofList (leading.map (fun _ => '1') ++ digits (2 * bs.length) (Bytes.toNatBe bs) [])

end Base58

/-- A key as text. -/
def Key.toText (k : Key) : String := Base58.encode k.toBytes

end Clmm
