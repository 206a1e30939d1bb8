import Clmm.Bytes

/-!
# Clmm.Sha256

**The hash SHA-256**, on byte strings. Addresses, account discriminators and instruction names are all
formed with it.

The message is padded to whole blocks of 64 bytes; each block is expanded to a schedule of 64 words
and stirred into a state of eight words, one round per word. Words are 32 bits and wrap around.
-/

namespace Clmm

namespace Sha256

/-- The eight words a hash is made of. -/
structure State where
  a : UInt32
  b : UInt32
  c : UInt32
  d : UInt32
  e : UInt32
  f : UInt32
  g : UInt32
  h : UInt32
deriving DecidableEq

/-- The state before the first block: the leading fractional bits of the square roots of the first
eight primes. -/
def initial : State :=
  ⟨0x6a09e667, 0xbb67ae85, 0x3c6ef372, 0xa54ff53a,
   0x510e527f, 0x9b05688c, 0x1f83d9ab, 0x5be0cd19⟩

/-- One constant per round: the leading fractional bits of the cube roots of the first 64 primes. -/
def roundConstants : List UInt32 :=
  [0x428a2f98, 0x71374491, 0xb5c0fbcf, 0xe9b5dba5, 0x3956c25b, 0x59f111f1, 0x923f82a4, 0xab1c5ed5,
   0xd807aa98, 0x12835b01, 0x243185be, 0x550c7dc3, 0x72be5d74, 0x80deb1fe, 0x9bdc06a7, 0xc19bf174,
   0xe49b69c1, 0xefbe4786, 0x0fc19dc6, 0x240ca1cc, 0x2de92c6f, 0x4a7484aa, 0x5cb0a9dc, 0x76f988da,
   0x983e5152, 0xa831c66d, 0xb00327c8, 0xbf597fc7, 0xc6e00bf3, 0xd5a79147, 0x06ca6351, 0x14292967,
   0x27b70a85, 0x2e1b2138, 0x4d2c6dfc, 0x53380d13, 0x650a7354, 0x766a0abb, 0x81c2c92e, 0x92722c85,
   0xa2bfe8a1, 0xa81a664b, 0xc24b8b70, 0xc76c51a3, 0xd192e819, 0xd6990624, 0xf40e3585, 0x106aa070,
   0x19a4c116, 0x1e376c08, 0x2748774c, 0x34b0bcb5, 0x391c0cb3, 0x4ed8aa4a, 0x5b9cca4f, 0x682e6ff3,
   0x748f82ee, 0x78a5636f, 0x84c87814, 0x8cc70208, 0x90befffa, 0xa4506ceb, 0xbef9a3f7, 0xc67178f2]

/-- Rotates a word to the right by `n` places, `0 < n < 32`. -/
def rotateRight (x n : UInt32) : UInt32 := (x >>> n) ||| (x <<< (32 - n))

/-- Adds two states word by word. -/
def State.add (s t : State) : State :=
  ⟨s.a + t.a, s.b + t.b, s.c + t.c, s.d + t.d, s.e + t.e, s.f + t.f, s.g + t.g, s.h + t.h⟩

/-- One round with a constant and a word of the schedule. -/
def round (s : State) (constant word : UInt32) : State :=
  let mix1 := rotateRight s.e 6 ^^^ rotateRight s.e 11 ^^^ rotateRight s.e 25
  let choice := (s.e &&& s.f) ^^^ (~~~s.e &&& s.g)
  let t1 := s.h + mix1 + choice + constant + word
  let mix0 := rotateRight s.a 2 ^^^ rotateRight s.a 13 ^^^ rotateRight s.a 22
  let majority := (s.a &&& s.b) ^^^ (s.a &&& s.c) ^^^ (s.b &&& s.c)
  ⟨t1 + mix0 + majority, s.a, s.b, s.c, s.d + t1, s.e, s.f, s.g⟩

/-- The bytes read as words, most significant byte first. -/
def words : Bytes → List UInt32
  | a :: b :: c :: d :: rest =>
    ((a.toUInt32 <<< 24) ||| (b.toUInt32 <<< 16) ||| (c.toUInt32 <<< 8) ||| d.toUInt32) :: words rest
  | _ => []

/-- The word of the schedule that follows the words `ws`. -/
def nextWord (ws : Array UInt32) : UInt32 :=
  let before (k : Nat) : UInt32 := ws.getD (ws.size - k) 0
  let x := before 15
  let y := before 2
  before 16 + (rotateRight x 7 ^^^ rotateRight x 18 ^^^ (x >>> 3)) + before 7 +
    (rotateRight y 17 ^^^ rotateRight y 19 ^^^ (y >>> 10))

/-- Appends `n` words to a schedule. -/
def extend : Nat → Array UInt32 → Array UInt32
  | 0, ws => ws
  | n + 1, ws => extend n (ws.push (nextWord ws))

/-- The schedule of 64 words of a block. -/
def schedule (block : Bytes) : List UInt32 := (extend 48 (words block).toArray).toList

/-- Stirs a block into the state. -/
def compress (s : State) (block : Bytes) : State :=
  s.add ((roundConstants.zip (schedule block)).foldl (fun s (k, w) => round s k w) s)

/-- The message with a one bit, zeros and its length in bits appended, in whole blocks. -/
def pad (message : Bytes) : Bytes :=
  let length := message.length
  message ++ 0x80 :: Bytes.zeros ((119 - length % 64) % 64) ++ Bytes.be 8 (8 * length)

/-- Stirs `n` blocks into the state. -/
def absorb : Nat → State → Bytes → State
  | 0, s, _ => s
  | n + 1, s, bs => absorb n (compress s (bs.take 64)) (bs.drop 64)

/-- The words of a state as 32 bytes. -/
def State.toBytes (s : State) : Bytes :=
  [s.a, s.b, s.c, s.d, s.e, s.f, s.g, s.h].flatMap fun w => Bytes.be 4 w.toNat

end Sha256

/-- The SHA-256 hash of a message, 32 bytes. -/
def sha256 (message : Bytes) : Bytes :=
  let padded := Sha256.pad message
  (Sha256.absorb (padded.length / 64) Sha256.initial padded).toBytes

/-- A hash has 32 bytes. -/
@[simp] theorem length_sha256 (message : Bytes) : (sha256 message).length = 32 := by
  simp [sha256, Sha256.State.toBytes, Bytes.be]

end Clmm
