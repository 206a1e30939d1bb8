import Clmm.Layout

/-!
# Clmm.Proofs.AccountRoundTrip

**Accounts that are read as a whole are read as they were written** (`accounts_round_trip`): a value is read
back from its discriminator and its encoding, whatever follows, and no proper prefix of these can be read.

The laws of codecs give this for every value that fits (`Codec.roundTrips`). What is left is to say which
values fit, for each kind of account: those whose numbers have the widths of their fields (`Storable`). The
length of an encoding is added up along the codec, field by field (`HasLength`), and so does not depend on
the value; only that of a list does. The accounts that lie in memory as they are have the lengths of their
kinds too (`Pool.length_toBytes`).
-/

namespace Clmm

/-! ### Reading account data -/

/-- The value is read back from the data of its account, whatever follows these, and nothing can be read
from a proper prefix of them. -/
structure RoundTrips {α : Type} (k : AccountKind) (c : Codec α) (a : α) : Prop where
  read : ∀ rest, readAccount k c (accountData k c a ++ rest) = .ok a
  truncated : ∀ n < (accountData k c a).length, readAccount k c ((accountData k c a).take n) =
    .error (if n < 8 then .discriminatorNotFound else .didNotDeserialize)

namespace Codec

variable {α β : Type} {c : Codec α} {d : Codec β} {a : α} {n k : Nat}

/-- Behind the discriminator of its kind, the value is read. -/
theorem readAccount_of_discriminator (kind : AccountKind) (c : Codec α) (bs : Bytes) :
    readAccount kind c (kind.discriminator ++ bs) = readValue c (kind.discriminator ++ bs) := by
  simp only [readAccount]
  rw [if_neg (by simp), if_neg (by simp [List.take_left' kind.length_discriminator])]

/-- **Every value that fits** is read as it was written, and truncated data is noticed. -/
theorem roundTrips (kind : AccountKind) (h : c.fits a) : RoundTrips kind c a := by
  have hdiscriminator := kind.length_discriminator
  refine ⟨fun rest => ?_, fun n hn => ?_⟩
  · simp only [accountData]
    rw [List.append_assoc, readAccount_of_discriminator]
    simp only [readValue]
    rw [List.drop_left' hdiscriminator, c.decode_encode a rest h]
  · simp only [accountData] at hn ⊢
    rw [List.length_append, hdiscriminator] at hn
    by_cases hshort : n < 8
    · rw [if_pos hshort]
      simp only [readAccount]
      rw [if_pos (by rw [List.length_take]; omega)]
    · rw [if_neg hshort, List.take_append, List.take_of_length_le (by omega),
        readAccount_of_discriminator]
      simp only [readValue]
      rw [List.drop_left' hdiscriminator, hdiscriminator, c.decode_truncated h (by omega)]

/-! ### The length of an encoding -/

/-- Every encoding has `n` bytes. -/
def HasLength (c : Codec α) (n : Nat) : Prop := ∀ a, (c.encode a).length = n

theorem HasLength.eq (h : c.HasLength n) (a : α) : (c.encode a).length = n := h a

theorem hasLength_uint (n : Nat) : (uint n).HasLength n := Bytes.length_le n

theorem hasLength_int (n : Nat) : (int n).HasLength n := fun _ => Bytes.length_le n _

theorem hasLength_word (n : Nat) : (word n).HasLength n := fun _ => Bytes.length_le n _

theorem hasLength_key : key.HasLength 32 := Key.length_toBytes

theorem hasLength_bool : bool.HasLength 1 := fun _ => rfl

theorem HasLength.seq (hc : c.HasLength n) (hd : d.HasLength k) : (c.seq d).HasLength (n + k) := by
  intro p
  change (c.encode p.1 ++ d.encode p.2).length = n + k
  rw [List.length_append, hc, hd]

theorem HasLength.iso (hc : c.HasLength n) {f : α → β} {g : β → α} (hfg : ∀ b, f (g b) = b)
    (hgf : ∀ a, g (f a) = a) : (c.iso f g hfg hgf).HasLength n := fun b => hc (g b)

theorem HasLength.vector (hc : c.HasLength n) (k : Nat) : (vector k c).HasLength (k * n) := by
  intro v
  change (v.toList.flatMap c.encode).length = k * n
  rw [List.length_flatMap, funext hc, List.map_const', List.sum_replicate_nat, Vector.length_toList]

end Codec

open Codec

theorem Pair.hasLength_codec {α : Type} {c : Codec α} {n : Nat} (h : c.HasLength n) :
    (Pair.codec c).HasLength (n + n) := (h.seq h).iso _ _

theorem Growth.hasLength_codec : Growth.codec.HasLength 16 := hasLength_word 16

theorem FeeConfig.hasLength_codec : FeeConfig.codec.HasLength 105 :=
  ((hasLength_uint 1).seq <| (hasLength_uint 2).seq <| hasLength_key.seq <| (hasLength_uint 4).seq <|
    (hasLength_uint 4).seq <| (hasLength_uint 2).seq <| (hasLength_uint 4).seq <| hasLength_key.seq <|
    (hasLength_uint 8).vector 3).iso _ _

theorem Position.hasLength_codec : Position.codec.HasLength 169 :=
  ((hasLength_uint 1).seq <| hasLength_key.seq <| hasLength_key.seq <| (hasLength_int 4).seq <|
    (hasLength_int 4).seq <| (hasLength_uint 16).seq <| (Pair.hasLength_codec Growth.hasLength_codec).seq <|
    (Pair.hasLength_codec (hasLength_uint 8)).seq <| (hasLength_uint 8).vector 4).iso _ _

theorem Oracle.hasLength_codec : Oracle.codec.HasLength 419 :=
  (hasLength_key.seq <| hasLength_bool.seq <| (hasLength_uint 2).seq <|
    (((hasLength_uint 4).seq (hasLength_word 8)).iso _ _).vector 32).iso _ _

/-! ### The length of what lies in memory as it is -/

theorem Tick.length_toBytes (t : Tick) : t.toBytes.length = Tick.size := by
  simp only [Tick.toBytes, List.length_append, (hasLength_int _).eq, (hasLength_uint _).eq,
    (Pair.hasLength_codec Growth.hasLength_codec).eq, Bytes.length_zeros]
  rfl

/-- **A tick array is written in the bytes that its account has** behind the discriminator. -/
theorem TickArray.length_toBytes (a : TickArray) :
    8 + a.toBytes.length = AccountKind.tickArray.size := by
  have hticks : (a.ticks.toList.flatMap Tick.toBytes).length = arraySize * Tick.size := by
    rw [List.length_flatMap, funext Tick.length_toBytes, List.map_const', List.sum_replicate_nat,
      Vector.length_toList]
  simp only [TickArray.toBytes, List.length_append, hasLength_key.eq, (hasLength_int _).eq,
    (hasLength_uint _).eq, Bytes.length_zeros, hticks]
  rfl

/-- So is a bitmap extension. -/
theorem BitmapExtension.length_toBytes (e : BitmapExtension) :
    8 + e.toBytes.length = AccountKind.extension.size := by
  simp only [BitmapExtension.toBytes, List.length_append, hasLength_key.eq,
    ((hasLength_word 8).vector _).eq]
  rfl

/-- So is a pool. -/
theorem Pool.length_toBytes (p : Pool) : 8 + p.toBytes.length = AccountKind.pool.size := by
  unfold Pool.toBytes
  simp only [List.length_append, (hasLength_uint _).eq, (hasLength_int _).eq, hasLength_key.eq,
    (Pair.hasLength_codec Growth.hasLength_codec).eq, (Pair.hasLength_codec (hasLength_uint _)).eq,
    (Pair.hasLength_codec hasLength_key).eq, ((hasLength_word 8).vector _).eq, Bytes.length_zeros]
  rfl

/-! ### Values with an encoding -/

/-- The numbers of the config have the widths of their fields. -/
structure FeeConfig.Storable (c : FeeConfig) : Prop where
  bump : c.bump < 2 ^ 8
  index : c.index < 2 ^ 16
  protocolRate : c.protocolRate < 2 ^ 32
  tradeRate : c.tradeRate < 2 ^ 32
  spacing : c.spacing < 2 ^ 16
  fundRate : c.fundRate < 2 ^ 32
  reserved : ∀ v ∈ c.reserved.toList, v < 2 ^ 64

/-- The numbers of the position have the widths of their fields. -/
structure Position.Storable (p : Position) : Prop where
  bump : p.bump < 2 ^ 8
  lower : -2 ^ 31 ≤ p.lower ∧ p.lower < 2 ^ 31
  upper : -2 ^ 31 ≤ p.upper ∧ p.upper < 2 ^ 31
  liquidity : p.liquidity < 2 ^ 128
  owed : ∀ x, p.owed.get x < 2 ^ 64
  reserved : ∀ v ∈ p.reserved.toList, v < 2 ^ 64

/-- The numbers of the oracle have the widths of their fields. -/
structure Oracle.Storable (o : Oracle) : Prop where
  newest : o.newest < 2 ^ 16
  ring : ∀ sample ∈ o.ring.toList, sample.time < 2 ^ 32

/-- The bump of the registry and the number of its entries have the widths of their fields. -/
structure HookRegistry.Storable (r : HookRegistry) : Prop where
  bump : r.bump < 2 ^ 8
  entries : r.entries.length < 2 ^ 32

theorem FeeConfig.fits_codec_iff {c : FeeConfig} : FeeConfig.codec.fits c ↔ c.Storable := by
  constructor
  · rintro ⟨hbump, hindex, -, hprotocol, htrade, hspacing, hfund, -, hreserved⟩
    exact ⟨hbump, hindex, hprotocol, htrade, hspacing, hfund, hreserved⟩
  · intro h
    exact ⟨h.bump, h.index, trivial, h.protocolRate, h.tradeRate, h.spacing, h.fundRate, trivial,
      h.reserved⟩

theorem Position.fits_codec_iff {p : Position} : Position.codec.fits p ↔ p.Storable := by
  constructor
  · rintro ⟨hbump, -, -, hlower, hupper, hliquidity, -, ⟨hzero, hone⟩, hreserved⟩
    refine ⟨hbump, hlower, hupper, hliquidity, fun x => ?_, hreserved⟩
    cases x with
    | zero => exact hzero
    | one => exact hone
  · intro h
    exact ⟨h.bump, trivial, trivial, h.lower, h.upper, h.liquidity, ⟨trivial, trivial⟩,
      ⟨h.owed .zero, h.owed .one⟩, h.reserved⟩

theorem Oracle.fits_codec_iff {o : Oracle} : Oracle.codec.fits o ↔ o.Storable := by
  constructor
  · rintro ⟨-, -, hnewest, hring⟩
    exact ⟨hnewest, fun sample hsample => (hring sample hsample).1⟩
  · intro h
    exact ⟨trivial, trivial, h.newest, fun sample hsample => ⟨h.ring sample hsample, trivial⟩⟩

theorem HookRegistry.fits_codec_iff {r : HookRegistry} : HookRegistry.codec.fits r ↔ r.Storable := by
  constructor
  · rintro ⟨-, hbump, hentries, -⟩
    exact ⟨hbump, hentries⟩
  · intro h
    exact ⟨trivial, h.bump, h.entries, fun _ _ => ⟨trivial, trivial⟩⟩

/-! ### All kinds -/

theorem length_accountData {α : Type} {c : Codec α} {n : Nat} (h : c.HasLength n) (k : AccountKind)
    (a : α) : (accountData k c a).length = 8 + n := by
  simp only [accountData]
  rw [List.length_append, k.length_discriminator, h]

/-- **Accounts are read as they were written.** For every fee config, position, oracle and hook registry
whose numbers have the widths of their fields: the value is read back from its account data, whatever
follows these, and all proper prefixes of the data are refused. For the first three kinds the data have the
size that accounts of the kind are given. -/
theorem accounts_round_trip :
    (∀ c : FeeConfig, c.Storable → RoundTrips .config FeeConfig.codec c ∧
      (accountData .config FeeConfig.codec c).length = AccountKind.config.size) ∧
    (∀ p : Position, p.Storable → RoundTrips .position Position.codec p ∧
      (accountData .position Position.codec p).length = AccountKind.position.size) ∧
    (∀ o : Oracle, o.Storable → RoundTrips .oracle Oracle.codec o ∧
      (accountData .oracle Oracle.codec o).length = AccountKind.oracle.size) ∧
    ∀ r : HookRegistry, r.Storable → RoundTrips .hooks HookRegistry.codec r :=
  ⟨fun c h => ⟨roundTrips .config (FeeConfig.fits_codec_iff.2 h),
      length_accountData FeeConfig.hasLength_codec .config c⟩,
    fun p h => ⟨roundTrips .position (Position.fits_codec_iff.2 h),
      length_accountData Position.hasLength_codec .position p⟩,
    fun o h => ⟨roundTrips .oracle (Oracle.fits_codec_iff.2 h),
      length_accountData Oracle.hasLength_codec .oracle o⟩,
    fun _ h => roundTrips .hooks (HookRegistry.fits_codec_iff.2 h)⟩

/-- A position whose numbers are the least and the greatest that have an encoding. -/
def Position.extreme : Position :=
  { bump := 255, nft := BitVec.allOnes 256, pool := 0, lower := -2147483648, upper := 2147483647,
    liquidity := 2 ^ 128 - 1, growthLast := ⟨BitVec.allOnes 128, 0⟩, owed := ⟨2 ^ 64 - 1, 0⟩,
    reserved := Vector.replicate 4 (2 ^ 64 - 1) }

/-- A registry with a pending and an approved program. -/
def HookRegistry.mixed : HookRegistry := ⟨1, 254, [⟨2, .pending⟩, ⟨3, .approved⟩]⟩

theorem accounts_round_trip_extreme :
    (FeeConfig.zeroed.Storable ∧ Position.extreme.Storable ∧ (Oracle.fresh 1).Storable ∧
      HookRegistry.mixed.Storable) ∧
    RoundTrips .config FeeConfig.codec .zeroed ∧ RoundTrips .position Position.codec .extreme ∧
      RoundTrips .oracle Oracle.codec (.fresh 1) ∧ RoundTrips .hooks HookRegistry.codec .mixed := by
  have hconfig : FeeConfig.zeroed.Storable :=
    ⟨by decide, by decide, by decide, by decide, by decide, by decide, by decide⟩
  have howed : ∀ x, Position.extreme.owed.get x < 2 ^ 64 := by
    intro x
    cases x with
    | zero => decide
    | one => decide
  have hposition : Position.extreme.Storable :=
    ⟨by decide, by decide, by decide, by decide, howed, by decide⟩
  have horacle : (Oracle.fresh 1).Storable := ⟨by decide, by decide⟩
  have hhooks : HookRegistry.mixed.Storable := ⟨by decide, by decide⟩
  exact ⟨⟨hconfig, hposition, horacle, hhooks⟩, (accounts_round_trip.1 _ hconfig).1,
    (accounts_round_trip.2.1 _ hposition).1, (accounts_round_trip.2.2.1 _ horacle).1,
    accounts_round_trip.2.2.2 _ hhooks⟩

end Clmm
