import Clmm.Power

/-!
# Clmm.Bytes

**Byte strings.** A byte string is a list of bytes. Numbers are written with a fixed number of digits
in base 256, least significant first (`le`) or most significant first (`be`).
-/

namespace Clmm

/-- A byte string. -/
abbrev Bytes := List UInt8

namespace Bytes

/-- The lower `n` bytes of a number, least significant first. -/
def le : Nat → Nat → Bytes
  | 0, _ => []
  | n + 1, v => UInt8.ofNat v :: le n (v / 256)

/-- The number written by bytes, least significant first. -/
def toNatLe : Bytes → Nat
  | [] => 0
  | b :: bs => b.toNat + 256 * toNatLe bs

/-- The lower `n` bytes of a number, most significant first. -/
def be (n v : Nat) : Bytes := (le n v).reverse

/-- The number written by bytes, most significant first. -/
def toNatBe (bs : Bytes) : Nat := toNatLe bs.reverse

/-- `n` zero bytes. -/
def zeros (n : Nat) : Bytes := List.replicate n 0

/-- The bytes of a text. -/
def ofText (s : String) : Bytes := s.toUTF8.toList

@[simp] theorem length_le (n v : Nat) : (le n v).length = n := by
  induction n generalizing v with
  | zero => rfl
  | succ n ih => simp [le, ih]

@[simp] theorem length_zeros (n : Nat) : (zeros n).length = n := List.length_replicate

/-- Reading what was written gives the number back, as far as it fits. -/
theorem toNatLe_le (n v : Nat) : toNatLe (le n v) = v % 256 ^ n := by
  induction n generalizing v with
  | zero => simp [le, toNatLe, Nat.mod_one]
  | succ n ih =>
    simp only [le, toNatLe, ih]
    have hpow : 256 ^ (n + 1) = 256 * 256 ^ n := Nat.mul_comm (256 ^ n) 256
    rw [UInt8.toNat_ofNat', hpow, Nat.mod_mul]

theorem toNatLe_lt (bs : Bytes) : toNatLe bs < 256 ^ bs.length := by
  induction bs with
  | nil => simp [toNatLe]
  | cons b bs ih =>
    have := b.toNat_lt
    simp only [toNatLe, List.length_cons, Nat.pow_succ]
    omega

/-- Writing what was read gives the bytes back. -/
theorem le_toNatLe (bs : Bytes) : le bs.length (toNatLe bs) = bs := by
  induction bs with
  | nil => rfl
  | cons b bs ih =>
    have hb := b.toNat_lt
    have hdiv : (b.toNat + 256 * toNatLe bs) / 256 = toNatLe bs := by omega
    simp only [List.length_cons, toNatLe, le, hdiv, ih, List.cons.injEq, and_true]
    apply UInt8.toNat_inj.1
    rw [UInt8.toNat_ofNat']
    omega

end Bytes

end Clmm
