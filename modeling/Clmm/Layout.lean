import Clmm.Codec
import Clmm.FeeConfig
import Clmm.HookRegistry
import Clmm.Oracle
import Clmm.Pool
import Clmm.Position
import Clmm.Sha256

/-!
# Clmm.Layout

**The bytes of accounts.** The data of an account starts with eight bytes that tell its kind, the
*discriminator*; the value follows. Numbers are written least significant byte first.

Configs, positions, oracles and hook registries are read as a whole and have a codec each. Pools, tick
arrays and bitmap extensions lie in memory as they are, with unused bytes that align their fields;
they are only written here, apart from the few leading fields that tell tick arrays apart.
-/

namespace Clmm

/-! ### Kinds and sizes -/

/-- The bytes of a tick: its numbers, and twelve that are unused. -/
def Tick.size : Nat := 16 + 16 + 16 * 2 + 4 + 12

/-- The bytes of an observation. -/
def Observation.size : Nat := 4 + 8

/-- The bytes of an entry of a hook registry. -/
def HookEntry.size : Nat := 32 + 1

/-- The kinds of accounts the program owns. -/
inductive AccountKind
  | config
  | pool
  | tickArray
  | extension
  | position
  | oracle
  | hooks
deriving DecidableEq, Repr

namespace AccountKind

/-- The name from which the discriminator is formed. -/
def name : AccountKind → String
  | config => "AmmConfig"
  | pool => "PoolState"
  | tickArray => "TickArrayState"
  | extension => "TickArrayBitmapExtension"
  | position => "PersonalPositionState"
  | oracle => "ObservationState"
  | hooks => "HooksAccount"

/-- The eight bytes in front of the value. -/
def discriminator (k : AccountKind) : Bytes :=
  (sha256 (Bytes.ofText "account:" ++ Bytes.ofText k.name)).take 8

/-- The number of bytes an account of the kind has: the discriminator, then the fields in their order, a pair
as two of one width. Unused bytes count as well. A hook registry has room for the number of its entries and
for as many entries as both statuses admit. -/
def size : AccountKind → Nat
  | config => 8 + 1 + 2 + 32 + 4 + 4 + 2 + 4 + 32 + 8 * 3
  | pool =>
    8 + 16 + 16 + 16 * 2 + 16 * 4 + 8 * 2 + 8 * 2 + 8 + 8 * Bitmap.nativeWords + 4 + 2 + 1 + 1 * 2 +
      15 + 32 + 32 + 32 * 2 + 32 * 2 + 32 + 32
  | tickArray => 8 + 32 + 4 + 1 + 1 + 10 + Tick.size * arraySize
  | extension => 8 + 32 + 8 * Bitmap.sideWords * 2
  | position => 8 + 1 + 32 + 32 + 4 + 4 + 16 + 16 * 2 + 8 * 2 + 8 * 4
  | oracle => 8 + 32 + 1 + 2 + Observation.size * 32
  | hooks => 8 + 32 + 1 + 4 + 2 * HookRegistry.capacity * HookEntry.size

@[simp] theorem length_discriminator (k : AccountKind) : k.discriminator.length = 8 := by
  simp [discriminator]

end AccountKind

/-! ### Accounts with a codec -/

open Codec

/-- A pair: token 0 first. -/
def Pair.codec {α : Type} (c : Codec α) : Codec (Pair α) :=
  (c.seq c).iso (fun (a, b) => ⟨a, b⟩) (fun p => (p.zero, p.one)) (fun _ => rfl) (fun _ => rfl)

/-- A growth counter. -/
def Growth.codec : Codec Growth := word 16

/-- The fields of a fee config. -/
def FeeConfig.codec : Codec FeeConfig :=
  ((uint 1).seq <| (uint 2).seq <| key.seq <| (uint 4).seq <| (uint 4).seq <| (uint 2).seq <|
    (uint 4).seq <| key.seq <| vector 3 (uint 8)).iso
    (fun (bump, index, owner, protocolRate, tradeRate, spacing, fundRate, fundOwner, reserved) =>
      { bump, index, owner, protocolRate, tradeRate, spacing, fundRate, fundOwner, reserved })
    (fun c => (c.bump, c.index, c.owner, c.protocolRate, c.tradeRate, c.spacing, c.fundRate,
      c.fundOwner, c.reserved))
    (fun _ => rfl) (fun _ => rfl)

/-- The fields of a position. -/
def Position.codec : Codec Position :=
  ((uint 1).seq <| key.seq <| key.seq <| (int 4).seq <| (int 4).seq <| (uint 16).seq <|
    (Pair.codec Growth.codec).seq <| (Pair.codec (uint 8)).seq <| vector 4 (uint 8)).iso
    (fun (bump, nft, pool, lower, upper, liquidity, growthLast, owed, reserved) =>
      { bump, nft, pool, lower, upper, liquidity, growthLast, owed, reserved })
    (fun p => (p.bump, p.nft, p.pool, p.lower, p.upper, p.liquidity, p.growthLast, p.owed,
      p.reserved))
    (fun _ => rfl) (fun _ => rfl)

/-- The time, then the accumulated tick. -/
def Observation.codec : Codec Observation :=
  ((uint 4).seq (word 8)).iso (fun (time, cumulative) => ⟨time, cumulative⟩)
    (fun o => (o.time, o.cumulative)) (fun _ => rfl) (fun _ => rfl)

/-- The fields of an oracle. -/
def Oracle.codec : Codec Oracle :=
  (key.seq <| bool.seq <| (uint 2).seq <| vector 32 Observation.codec).iso
    (fun (pool, started, newest, ring) => { pool, started, newest, ring })
    (fun o => (o.pool, o.started, o.newest, o.ring)) (fun _ => rfl) (fun _ => rfl)

/-- One byte: 0 for a pending program, 1 for an approved one. -/
def HookStatus.codec : Codec HookStatus :=
  bool.iso (fun b => if b then .approved else .pending) (fun s => decide (s = .approved))
    (fun s => by cases s <;> rfl) (fun b => by cases b <;> rfl)

/-- The program, then its status. -/
def HookEntry.codec : Codec HookEntry :=
  (key.seq HookStatus.codec).iso (fun (program, status) => ⟨program, status⟩)
    (fun e => (e.program, e.status)) (fun _ => rfl) (fun _ => rfl)

/-- The fields of a hook registry. -/
def HookRegistry.codec : Codec HookRegistry :=
  (key.seq <| (uint 1).seq <| list HookEntry.codec).iso
    (fun (authority, bump, entries) => ⟨authority, bump, entries⟩)
    (fun r => (r.authority, r.bump, r.entries)) (fun _ => rfl) (fun _ => rfl)

/-! ### Account data -/

/-- What is wrong with the data of an account. -/
inductive DataError
  /-- It is too short for a discriminator. -/
  | discriminatorNotFound
  /-- It is of another kind. -/
  | discriminatorMismatch
  /-- The value cannot be read. -/
  | didNotDeserialize
deriving DecidableEq, Repr

namespace DataError

/-- The name a caller sees. -/
def name : DataError → String
  | discriminatorNotFound => "AccountDiscriminatorNotFound"
  | discriminatorMismatch => "AccountDiscriminatorMismatch"
  | didNotDeserialize => "AccountDidNotDeserialize"

/-- The code a caller sees. -/
def code : DataError → Nat
  | discriminatorNotFound => 3001
  | discriminatorMismatch => 3002
  | didNotDeserialize => 3003

/-- The message a caller sees. -/
def message : DataError → String
  | discriminatorNotFound => "No discriminator was found on the account"
  | discriminatorMismatch => "Account discriminator did not match what was expected"
  | didNotDeserialize => "Failed to deserialize the account"

end DataError

/-- The data of an account: the discriminator of its kind, then the value. -/
def accountData {α : Type} (k : AccountKind) (c : Codec α) (a : α) : Bytes :=
  k.discriminator ++ c.encode a

/-- Reads the value behind the first eight bytes, whatever these are. What follows the value is
ignored. -/
def readValue {α : Type} (c : Codec α) (data : Bytes) : Except DataError α :=
  match c.decode (data.drop 8) with
  | some (a, _) => .ok a
  | none => .error .didNotDeserialize

/-- Reads the value of an account without a look at its kind. It faults if there are no eight bytes to
skip. -/
def readUnchecked {α : Type} (c : Codec α) (data : Bytes) : Outcome (Except DataError α) := do
  guardFault (8 ≤ data.length)
  return readValue c data

/-- Reads the data of an account of a certain kind. -/
def readAccount {α : Type} (k : AccountKind) (c : Codec α) (data : Bytes) : Except DataError α :=
  if data.length < 8 then .error .discriminatorNotFound
  else if data.take 8 ≠ k.discriminator then .error .discriminatorMismatch
  else readValue c data

/-! ### Accounts that lie in memory as they are -/

/-- A tick in 80 bytes; the last twelve are unused. -/
def Tick.toBytes (t : Tick) : Bytes :=
  (int 16).encode t.net ++ (uint 16).encode t.gross ++ (Pair.codec Growth.codec).encode t.outside ++
    (int 4).encode t.index ++ Bytes.zeros 12

/-- The value of a tick array account: pool and start first. -/
def TickArray.toBytes (a : TickArray) : Bytes :=
  key.encode a.pool ++ (int 4).encode a.start ++ (uint 1).encode a.count ++ (uint 1).encode a.bump ++
    Bytes.zeros 10 ++ a.ticks.toList.flatMap Tick.toBytes

/-- The value of a bitmap extension account: the side above the native span comes first. -/
def BitmapExtension.toBytes (e : BitmapExtension) : Bytes :=
  key.encode e.pool ++ (vector _ (word 8)).encode e.positive ++ (vector _ (word 8)).encode e.negative

/-- The value of a pool account. -/
def Pool.toBytes (p : Pool) : Bytes :=
  (uint 16).encode p.liquidity ++ (uint 16).encode p.sqrtPrice ++
    (Pair.codec Growth.codec).encode p.growth ++
    (uint 16).encode p.volumeIn.zero ++ (uint 16).encode p.volumeOut.one ++
    (uint 16).encode p.volumeIn.one ++ (uint 16).encode p.volumeOut.zero ++
    (Pair.codec (uint 8)).encode p.protocolFees ++ (Pair.codec (uint 8)).encode p.fundFees ++
    (uint 8).encode p.openTime ++ (vector _ (word 8)).encode p.bitmap ++
    (int 4).encode p.tick ++ (uint 2).encode p.spacing ++ (uint 1).encode p.bump ++
    (Pair.codec (uint 1)).encode p.decimals ++ Bytes.zeros 15 ++
    key.encode p.config ++ key.encode p.owner ++ (Pair.codec key).encode p.mints ++
    (Pair.codec key).encode p.vaults ++ key.encode p.observation ++ Bytes.zeros 32

/-- The leading fields of a tick array account: its pool and its start. -/
def TickArray.header : Codec (Key × Int) := key.seq (int 4)

end Clmm
