import Clmm.Key

/-!
# Clmm.Codec

**How values are written as bytes.** A codec writes a value as a byte string and reads a value off the
front of a byte string, leaving the rest. Codecs are built from a few small ones, field by field, so
the layout of a record is the order in which its fields are combined.

Design points:

* Each codec carries its two laws. Reading what was written gives the value back, whatever follows
  (`decode_encode`), and nothing else is ever read: a value that was read is in range and its encoding
  is what was consumed (`decode_sound`). So an encoding is unique, and the codecs below never accept
  two byte strings for one value.
* Values are unbounded numbers here, so `fits` says which values have an encoding at all.
* The laws together say that no encoding is a proper prefix of another, which is why a truncated
  encoding is always noticed (`decode_truncated`).
-/

namespace Clmm

/-- A way to write values of type `α` as bytes and to read them back. -/
structure Codec (α : Type) where
  /-- Which values have an encoding. -/
  fits : α → Prop
  encode : α → Bytes
  /-- Reads a value; the second component is what was not consumed. -/
  decode : Bytes → Option (α × Bytes)
  decode_encode : ∀ a rest, fits a → decode (encode a ++ rest) = some (a, rest)
  decode_sound : ∀ {bs a rest}, decode bs = some (a, rest) → fits a ∧ bs = encode a ++ rest

namespace Codec

variable {α β : Type}

/-! ### Consequences of the laws -/

/-- A value that fits is read back from its encoding, with nothing left over. -/
theorem decode_encode_nil (c : Codec α) {a : α} (h : c.fits a) :
    c.decode (c.encode a) = some (a, []) := by
  simpa using c.decode_encode a [] h

/-- A proper prefix of an encoding is not an encoding followed by anything. -/
theorem decode_truncated (c : Codec α) {a : α} (h : c.fits a) {n : Nat}
    (hn : n < (c.encode a).length) : c.decode ((c.encode a).take n) = none := by
  cases hd : c.decode ((c.encode a).take n) with
  | none => rfl
  | some r =>
    obtain ⟨b, rest⟩ := r
    obtain ⟨hb, htake⟩ := c.decode_sound hd
    have hwhole : c.encode a = c.encode b ++ (rest ++ (c.encode a).drop n) := by
      rw [← List.append_assoc, ← htake, List.take_append_drop]
    have hread := c.decode_encode_nil h
    rw [hwhole, c.decode_encode b _ hb] at hread
    simp only [Option.some.injEq, Prod.mk.injEq, List.append_eq_nil_iff, List.drop_eq_nil_iff]
      at hread
    omega

/-! ### Splitting off a fixed number of bytes -/

/-- The first `n` bytes and the rest, if there are so many. -/
def split? (n : Nat) (bs : Bytes) : Option (Bytes × Bytes) :=
  if n ≤ bs.length then some (bs.take n, bs.drop n) else none

theorem split?_append {n : Nat} {xs : Bytes} (h : xs.length = n) (rest : Bytes) :
    split? n (xs ++ rest) = some (xs, rest) := by
  simp [split?, ← h]

theorem split?_sound {n : Nat} {bs xs rest : Bytes} (h : split? n bs = some (xs, rest)) :
    xs.length = n ∧ bs = xs ++ rest := by
  unfold split? at h
  split at h
  · cases h
    exact ⟨by simp_all, (List.take_append_drop n bs).symm⟩
  · contradiction

/-! ### Numbers, flags and keys -/

/-- A number below `256 ^ n` in `n` bytes, least significant first. -/
def uint (n : Nat) : Codec Nat where
  fits v := v < 256 ^ n
  encode := Bytes.le n
  decode bs := (split? n bs).map fun (xs, rest) => (Bytes.toNatLe xs, rest)
  decode_encode v rest h := by
    simp [split?_append (Bytes.length_le n v), Bytes.toNatLe_le, Nat.mod_eq_of_lt h]
  decode_sound {bs v rest} h := by
    simp only [Option.map_eq_some_iff, Prod.exists, Prod.mk.injEq] at h
    obtain ⟨xs, _, hs, rfl, rfl⟩ := h
    obtain ⟨hlen, rfl⟩ := split?_sound hs
    exact ⟨hlen ▸ Bytes.toNatLe_lt xs, by rw [← hlen, Bytes.le_toNatLe]⟩

/-- A codec of values that stand for the values of another codec. The two functions have to be inverse
on the values that fit. -/
def imap (c : Codec α) (fits : β → Prop) (f : α → β) (g : β → α)
    (hto : ∀ b, fits b → c.fits (g b) ∧ f (g b) = b)
    (hfrom : ∀ a, c.fits a → fits (f a) ∧ g (f a) = a) : Codec β where
  fits := fits
  encode b := c.encode (g b)
  decode bs := (c.decode bs).map fun (a, rest) => (f a, rest)
  decode_encode b rest h := by
    simp [c.decode_encode (g b) rest (hto b h).1, (hto b h).2]
  decode_sound {bs b rest} h := by
    simp only [Option.map_eq_some_iff, Prod.exists, Prod.mk.injEq] at h
    obtain ⟨a, _, ha, rfl, rfl⟩ := h
    obtain ⟨hfits, rfl⟩ := c.decode_sound ha
    exact ⟨(hfrom a hfits).1, by rw [(hfrom a hfits).2]⟩

/-- Records with the same fields: no value is ruled out. -/
def iso (c : Codec α) (f : α → β) (g : β → α) (hfg : ∀ b, f (g b) = b) (hgf : ∀ a, g (f a) = a) :
    Codec β :=
  c.imap (fun b => c.fits (g b)) f g (fun b h => ⟨h, hfg b⟩)
    (fun a h => ⟨by rw [hgf a]; exact h, hgf a⟩)

/-- A signed number in `n` bytes in two's complement, least significant first. -/
def int (n : Nat) : Codec Int :=
  (uint n).imap (fun z => -((256 ^ n : Nat) / 2 : Int) ≤ z ∧ z < ((256 ^ n : Nat) + 1 : Int) / 2)
    (fun v => Int.bmod v (256 ^ n)) (fun z => (z % (256 ^ n : Nat)).toNat)
    (fun z h => by
      have hpos : (0 : Int) < (256 ^ n : Nat) := by exact_mod_cast Nat.pow_pos (by decide)
      have hnonneg := Int.emod_nonneg z (Int.ne_of_gt hpos)
      have hlt := Int.emod_lt_of_pos z hpos
      refine ⟨?_, ?_⟩
      · show (z % (256 ^ n : Nat)).toNat < 256 ^ n
        omega
      · rw [Int.toNat_of_nonneg hnonneg, Int.emod_bmod]
        exact Int.bmod_eq_of_le h.1 h.2)
    (fun v h => by
      have hpos : 0 < 256 ^ n := Nat.pow_pos (by decide)
      refine ⟨⟨Int.le_bmod hpos, Int.bmod_lt hpos⟩, ?_⟩
      rw [Int.bmod_emod, ← Int.natCast_emod, Int.toNat_natCast]
      exact Nat.mod_eq_of_lt h)

/-- A counter of `8 * n` bits, least significant byte first. -/
def word (n : Nat) : Codec (BitVec (8 * n)) :=
  (uint n).imap (fun _ => True) (BitVec.ofNat (8 * n)) BitVec.toNat
    (fun w _ => by
      refine ⟨?_, by simp⟩
      show w.toNat < 256 ^ n
      have := w.isLt
      rwa [Nat.pow_mul] at this)
    (fun v h => by
      refine ⟨trivial, ?_⟩
      rw [BitVec.toNat_ofNat, Nat.pow_mul]
      exact Nat.mod_eq_of_lt h)

/-- A key: its 32 bytes as they are. -/
def key : Codec Key where
  fits _ := True
  encode := Key.toBytes
  decode bs := (split? 32 bs).map fun (xs, rest) => (Key.ofBytes xs, rest)
  decode_encode k rest _ := by
    simp [split?_append k.length_toBytes]
  decode_sound {bs k rest} h := by
    simp only [Option.map_eq_some_iff, Prod.exists, Prod.mk.injEq] at h
    obtain ⟨xs, _, hs, rfl, rfl⟩ := h
    obtain ⟨hlen, rfl⟩ := split?_sound hs
    exact ⟨trivial, by rw [Key.toBytes_ofBytes hlen]⟩

/-- A flag: one byte, 0 or 1. -/
def bool : Codec Bool where
  fits _ := True
  encode b := [if b then 1 else 0]
  decode
    | 0 :: rest => some (false, rest)
    | 1 :: rest => some (true, rest)
    | _ => none
  decode_encode b rest _ := by cases b <;> rfl
  decode_sound {bs b rest} h := by
    split at h
    · cases h; exact ⟨trivial, rfl⟩
    · cases h; exact ⟨trivial, rfl⟩
    · contradiction

/-! ### Records and sequences -/

/-- One value after the other. -/
def seq (c : Codec α) (d : Codec β) : Codec (α × β) where
  fits p := c.fits p.1 ∧ d.fits p.2
  encode p := c.encode p.1 ++ d.encode p.2
  decode bs := do
    let (a, bs) ← c.decode bs
    let (b, bs) ← d.decode bs
    return ((a, b), bs)
  decode_encode p rest h := by
    simp [c.decode_encode p.1 _ h.1, d.decode_encode p.2 _ h.2]
  decode_sound {bs p rest} h := by
    simp only [Option.bind_eq_bind, Option.bind_eq_some_iff, Prod.exists, Option.pure_def,
      Option.some.injEq, Prod.mk.injEq] at h
    obtain ⟨a, mid, ha, b, _, hb, rfl, rfl⟩ := h
    obtain ⟨hca, rfl⟩ := c.decode_sound ha
    obtain ⟨hdb, rfl⟩ := d.decode_sound hb
    exact ⟨⟨hca, hdb⟩, by simp⟩

/-- Reads `n` values. -/
def decodeMany (c : Codec α) : Nat → Bytes → Option (List α × Bytes)
  | 0, bs => some ([], bs)
  | n + 1, bs => do
    let (a, bs) ← c.decode bs
    let (as, bs) ← decodeMany c n bs
    return (a :: as, bs)

theorem decodeMany_encode (c : Codec α) (as : List α) (rest : Bytes) (h : ∀ a ∈ as, c.fits a) :
    decodeMany c as.length (as.flatMap c.encode ++ rest) = some (as, rest) := by
  induction as with
  | nil => rfl
  | cons a as ih =>
    have ha : c.fits a := h a (by simp)
    have has : ∀ b ∈ as, c.fits b := fun b hb => h b (by simp [hb])
    simp [decodeMany, c.decode_encode a _ ha, ih has]

theorem decodeMany_sound (c : Codec α) {n : Nat} {bs rest : Bytes} {as : List α}
    (h : decodeMany c n bs = some (as, rest)) :
    as.length = n ∧ (∀ a ∈ as, c.fits a) ∧ bs = as.flatMap c.encode ++ rest := by
  induction n generalizing bs as with
  | zero => cases h; simp
  | succ n ih =>
    simp only [decodeMany, Option.bind_eq_bind, Option.bind_eq_some_iff, Prod.exists,
      Option.pure_def, Option.some.injEq, Prod.mk.injEq] at h
    obtain ⟨a, mid, ha, as', _, has, rfl, rfl⟩ := h
    obtain ⟨hca, rfl⟩ := c.decode_sound ha
    obtain ⟨hlen, hall, rfl⟩ := ih has
    refine ⟨by simp [hlen], ?_, by simp⟩
    intro b hb
    rcases List.mem_cons.1 hb with rfl | hb
    · exact hca
    · exact hall b hb

/-- A fixed number of values. -/
def vector (n : Nat) (c : Codec α) : Codec (Vector α n) where
  fits v := ∀ a ∈ v.toList, c.fits a
  encode v := v.toList.flatMap c.encode
  decode bs := match decodeMany c n bs with
    | some (as, rest) => if h : as.toArray.size = n then some (⟨as.toArray, h⟩, rest) else none
    | none => none
  decode_encode v rest h := by
    have hread := decodeMany_encode c v.toList rest h
    rw [Vector.length_toList] at hread
    have hsame : v.toList.toArray = v.toArray := Array.toArray_toList
    simp [hread, hsame]
  decode_sound {bs v rest} h := by
    split at h
    next as rest' hread =>
      obtain ⟨_, hall, rfl⟩ := decodeMany_sound c hread
      split at h
      · simp only [Option.some.injEq, Prod.mk.injEq] at h
        obtain ⟨rfl, rfl⟩ := h
        exact ⟨by simpa using hall, by simp⟩
      · contradiction
    · contradiction

/-- A list: the number of values in four bytes, then the values. -/
def list (c : Codec α) : Codec (List α) where
  fits as := as.length < 256 ^ 4 ∧ ∀ a ∈ as, c.fits a
  encode as := (uint 4).encode as.length ++ as.flatMap c.encode
  decode bs := do
    let (n, bs) ← (uint 4).decode bs
    decodeMany c n bs
  decode_encode as rest h := by
    simp [(uint 4).decode_encode as.length _ h.1, decodeMany_encode c as rest h.2]
  decode_sound {bs as rest} h := by
    simp only [Option.bind_eq_bind, Option.bind_eq_some_iff, Prod.exists] at h
    obtain ⟨n, mid, hn, has⟩ := h
    obtain ⟨hfits, rfl⟩ := (uint 4).decode_sound hn
    obtain ⟨rfl, hall, rfl⟩ := decodeMany_sound c has
    exact ⟨⟨hfits, hall⟩, by simp⟩

/-- A value that may be missing: a byte that says whether it is there, then the value. -/
def option (c : Codec α) : Codec (Option α) where
  fits
    | none => True
    | some a => c.fits a
  encode
    | none => [0]
    | some a => 1 :: c.encode a
  decode
    | 0 :: rest => some (none, rest)
    | 1 :: rest => (c.decode rest).map fun (a, rest) => (some a, rest)
    | _ => none
  decode_encode a rest h := by
    cases a with
    | none => rfl
    | some a => simp [c.decode_encode a rest h]
  decode_sound {bs a rest} h := by
    split at h
    · cases h; exact ⟨trivial, rfl⟩
    · simp only [Option.map_eq_some_iff, Prod.exists, Prod.mk.injEq] at h
      obtain ⟨b, _, hb, rfl, rfl⟩ := h
      obtain ⟨hfits, rfl⟩ := c.decode_sound hb
      exact ⟨hfits, rfl⟩
    · contradiction

end Codec

end Clmm
