import Clmm.Bytes

/-!
# Clmm.Key

**Account keys.** A key is 32 bytes. It is kept as the 256-bit number that the bytes write, most
significant byte first, so that the order of keys as byte strings is the order of the numbers.
-/

namespace Clmm

/-- Thirty-two bytes, as one number. -/
abbrev Key := BitVec 256

namespace Key

/-- The 32 bytes of a key. -/
def toBytes (k : Key) : Bytes := Bytes.be 32 k.toNat

/-- The key with the given bytes. -/
def ofBytes (bs : Bytes) : Key := BitVec.ofNat 256 (Bytes.toNatBe bs)

/-- The key whose 32 bytes are all equal to `b`. -/
def ofByte (b : UInt8) : Key := ofBytes (List.replicate 32 b)

@[simp] theorem length_toBytes (k : Key) : k.toBytes.length = 32 := by
  simp [toBytes, Bytes.be]

@[simp] theorem ofBytes_toBytes (k : Key) : ofBytes k.toBytes = k := by
  apply BitVec.eq_of_toNat_eq
  simp only [ofBytes, toBytes, Bytes.be, Bytes.toNatBe, List.reverse_reverse, Bytes.toNatLe_le,
    BitVec.toNat_ofNat]
  have := k.isLt
  omega

/-- The bytes of the key made of 32 bytes are these bytes. -/
theorem toBytes_ofBytes {bs : Bytes} (h : bs.length = 32) : (ofBytes bs).toBytes = bs := by
  have hlt := Bytes.toNatLe_lt bs.reverse
  rw [List.length_reverse, h] at hlt
  have hval : (ofBytes bs).toNat = Bytes.toNatLe bs.reverse := by
    simp only [ofBytes, Bytes.toNatBe, BitVec.toNat_ofNat]
    omega
  have hread := Bytes.le_toNatLe bs.reverse
  rw [List.length_reverse, h] at hread
  rw [toBytes, Bytes.be, hval, hread, List.reverse_reverse]

/-- The two keys in ascending order. -/
def sort (a b : Key) : Key × Key := if a < b then (a, b) else (b, a)

end Key

end Clmm
