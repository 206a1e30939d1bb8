import Clmm.Proofs.LiquiditySum
import Clmm.Proofs.PriceOrder
import Clmm.Proofs.Run

/-!
# Clmm.Proofs.WellFormed

**What holds of a market between operations** (`Market.WellFormed`): the tick arrays are laid out,
count their ticks in use and are marked in the bitmap exactly when they have any; each tick records
what the positions contribute to it; the pool holds the liquidity in range; and the current price lies
in the interval of the current tick. The oracle's newest place is one of the ring.

After a downward crossing at the price of tick `t` the pool stands at tick `t - 1`, so the interval of
a tick includes the price of the next one: this is `Agrees`, which is weaker than `IsTickBelow`.

The operations that move neither price nor liquidity keep all this (`wellFormed_create`,
`WellFormed.addArray`, `WellFormed.setUpPosition`, `WellFormed.withShares`).

A swap can overlook a tick, after which the pool does not hold the liquidity in range. What is left of
`WellFormed` then is `Orderly`: nothing in it refers to the positions.
-/

namespace Clmm

open TickTable

/-- The price lies between the price of the tick and that of the next one, both included. -/
structure Agrees (p : Nat) (t : Int) : Prop where
  min_le : minTick ≤ t
  le_max : t ≤ maxTick
  price_le : priceAt t ≤ p
  le_next : t < maxTick → p ≤ priceAt (t + 1)

theorem IsTickBelow.agrees {p : Nat} {t : Int} (h : IsTickBelow p t) : Agrees p t :=
  ⟨h.min_le, h.le_max, h.price_le, fun ht => (h.lt_next ht).le⟩

theorem Agrees.price_pos {p : Nat} {t : Int} (h : Agrees p t) : 0 < p :=
  Nat.lt_of_lt_of_le (priceAt_pos h.min_le h.le_max) h.price_le

namespace TickArray

/-- How many ticks of the array are in use. -/
def usedCount (a : TickArray) : Nat := a.ticks.countP (·.isInitialized)

theorem usedCount_ne_zero {a : TickArray} : a.usedCount ≠ 0 ↔ ∃ t, a.Uses t := by
  simp only [usedCount]
  rw [← Nat.pos_iff_ne_zero, Vector.countP_pos_iff]
  constructor
  · intro hany
    obtain ⟨k, hk, hused⟩ := hany
    obtain ⟨i, hi, rfl⟩ := Vector.mem_iff_getElem.1 hk
    exact ⟨_, i, hi, hused, rfl⟩
  · intro hany
    obtain ⟨_, i, hi, hused, rfl⟩ := hany
    exact ⟨a.ticks[i], Vector.getElem_mem hi, hused⟩

/-- Writing a place changes the number of ticks in use by the old and the new tick. -/
theorem usedCount_setSlot {a : TickArray} {offset : Nat} (h : offset < arraySize) (k : Tick) :
    (a.setSlot offset k).usedCount + a.ticks[offset].isInitialized.toNat =
      a.usedCount + k.isInitialized.toNat := by
  have hset : a.ticks.setIfInBounds offset k = a.ticks.set offset k := by
    ext i hi
    rw [Vector.getElem_setIfInBounds, Vector.getElem_set]
  have hbool : ∀ b : Bool, (if b = true then 1 else 0) = b.toNat := by decide
  have hle : (if a.ticks[offset].isInitialized = true then 1 else 0) ≤
      a.ticks.countP (·.isInitialized) := Vector.boole_getElem_le_countP h
  simp only [usedCount, setSlot]
  rw [hset, Vector.countP_set, hbool, hbool]
  rw [hbool] at hle
  omega

end TickArray

namespace Market

/-- The whole bitmap of the market. -/
def bitmap (m : Market) : BitmapView :=
  BitmapView.whole m.pool.bitmap m.extension m.pool.spacing

/-- The state of tick `t`. -/
def tickState (m : Market) (t : Int) : Tick := lookup m.arrays t

/-- What holds of a market between operations. -/
structure WellFormed (m : Market) : Prop where
  spacing_pos : 0 < m.pool.spacing
  laid : Laid m.arrays m.pool.spacing
  counted : ∀ a ∈ m.arrays, a.count = a.usedCount
  marked : ∀ s, m.bitmap.Marks s ↔ ∃ a ∈ m.arrays, a.start = s ∧ a.count ≠ 0
  gross : ∀ t, (lookup m.arrays t).gross = grossAt m.positions t
  net : ∀ t, (lookup m.arrays t).net = netAt m.positions t
  ranged : Ranged m.positions
  liquidity : m.pool.liquidity = liquidityAt m.positions m.pool.tick
  price : Agrees m.pool.sqrtPrice m.pool.tick
  oracle : m.oracle.newest < 32

/-- What a market keeps even if a swap overlooks a tick, after which the liquidity in range is not that
of the positions. -/
structure Orderly (m : Market) : Prop where
  spacing_pos : 0 < m.pool.spacing
  laid : Laid m.arrays m.pool.spacing
  counted : ∀ a ∈ m.arrays, a.count = a.usedCount
  marked : ∀ s, m.bitmap.Marks s ↔ ∃ a ∈ m.arrays, a.start = s ∧ a.count ≠ 0
  price : Agrees m.pool.sqrtPrice m.pool.tick
  oracle : m.oracle.newest < 32

variable {m m' : Market}

theorem WellFormed.orderly (h : m.WellFormed) : m.Orderly :=
  ⟨h.spacing_pos, h.laid, h.counted, h.marked, h.price, h.oracle⟩

/-- Some liquidity begins or ends at tick `t`. -/
def InUse (m : Market) (t : Int) : Prop := grossAt m.positions t ≠ 0

theorem WellFormed.inUse_iff (h : m.WellFormed) {t : Int} :
    m.InUse t ↔ (lookup m.arrays t).isInitialized = true := by
  simp only [InUse, Tick.isInitialized]
  rw [h.gross]
  simp

theorem WellFormed.inUse_iff_uses (h : m.WellFormed) {t : Int} :
    m.InUse t ↔ ∃ a ∈ m.arrays, a.Uses t := by
  rw [h.inUse_iff, isInitialized_lookup h.laid]

/-- Every array that holds a tick in use is marked. -/
theorem WellFormed.marks_of_uses (h : m.WellFormed) {a : TickArray} {t : Int} (ha : a ∈ m.arrays)
    (ht : a.Uses t) : m.bitmap.Marks a.start := by
  refine (h.marked a.start).2 ⟨a, ha, rfl, ?_⟩
  rw [h.counted a ha]
  exact TickArray.usedCount_ne_zero.2 ⟨t, ht⟩

/-! ### Creation -/

theorem not_holds_replicate {n b : Nat} :
    ¬ Bits.Holds ((Vector.replicate n (0 : Word))[·]?) b := by
  intro hholds
  obtain ⟨w, hw, hbit⟩ := hholds
  obtain ⟨hb, rfl⟩ := Vector.getElem?_eq_some_iff.1 hw
  rw [Vector.getElem_replicate] at hbit
  exact absurd hbit (by simp)

theorem not_marks_empty {spacing : Nat} {key : Key} {s : Int} :
    ¬ (BitmapView.whole (Vector.replicate _ 0) (BitmapExtension.empty key) spacing).Marks s := by
  intro hmarks
  obtain ⟨b, -, hholds⟩ := hmarks
  rw [BitmapView.holds_whole] at hholds
  split at hholds
  · exact not_holds_replicate hholds
  · split at hholds
    · exact not_holds_replicate hholds
    · exact not_holds_replicate hholds

/-- A new market has a price and the tick below it, and nothing else yet. -/
theorem create_eq_ok {config : FeeConfig} {key : Key} {binding : Pool.Binding}
    {bump sqrtPrice openTime : Nat}
    (h : create key config binding bump sqrtPrice openTime = .ok m) :
    ∃ tick, tickAt sqrtPrice = .ok tick ∧ m = {
      key, config
      pool := { Pool.zeroed with
        bump, config := binding.config, owner := binding.owner, mints := binding.mints
        vaults := binding.vaults, observation := binding.observation, decimals := binding.decimals
        spacing := config.spacing, sqrtPrice, tick, openTime }
      arrays := []
      extension := BitmapExtension.empty key
      positions := []
      oracle := Oracle.fresh key } := by
  simp only [create, Pool.fresh] at h
  simp only [Outcome.bind_eq_ok] at h
  obtain ⟨pool, ⟨_, -, tick, htick, hpool⟩, hm⟩ := h
  obtain rfl := Except.ok.inj hpool
  exact ⟨tick, htick, (Except.ok.inj hm).symm⟩

theorem wellFormed_create {config : FeeConfig} {key : Key} {binding : Pool.Binding}
    {bump sqrtPrice openTime : Nat} (hspacing : 0 < config.spacing)
    (h : create key config binding bump sqrtPrice openTime = .ok m) : m.WellFormed := by
  obtain ⟨tick, htick, rfl⟩ := create_eq_ok h
  exact {
    spacing_pos := hspacing
    laid := ⟨List.Pairwise.nil, fun _ ha => absurd ha List.not_mem_nil⟩
    counted := fun _ ha => absurd ha List.not_mem_nil
    marked := fun s => by
      constructor
      · intro hs
        exact absurd hs not_marks_empty
      · intro hcounted
        obtain ⟨_, ha, -⟩ := hcounted
        exact absurd ha List.not_mem_nil
    gross := fun _ => rfl
    net := fun _ => rfl
    ranged := fun _ hp => absurd hp List.not_mem_nil
    liquidity := rfl
    price := (isTickBelow_of_tickAt htick).agrees
    oracle := Nat.zero_lt_succ 31 }

/-! ### Operations that move neither price nor liquidity -/

theorem addArray_eq_ok {start : Int} {bump : Nat} (h : m.addArray start bump = .ok m') :
    ∃ a, TickArray.fresh m.key start m.pool.spacing bump = .ok a ∧
      m' = { m with arrays := insertArray a m.arrays } := by
  simp only [Market.addArray] at h
  rw [Outcome.bind_eq_ok] at h
  obtain ⟨a, ha, h⟩ := h
  exact ⟨a, ha, (Except.ok.inj h).symm⟩

theorem Orderly.addArray (h : m.Orderly) {start : Int} {bump : Nat}
    (hnew : start ∉ m.arrays.map (·.start)) (hadd : m.addArray start bump = .ok m') :
    m'.Orderly := by
  obtain ⟨a, ha, rfl⟩ := addArray_eq_ok hadd
  obtain ⟨-, rfl, hcount, hempty⟩ := aligned_fresh ha
  obtain ⟨hlaid, -⟩ := lookup_insertArray h.laid ha hnew
  have hunused : a.usedCount = 0 := by
    by_contra hne
    obtain ⟨_, i, hi, hused, -⟩ := TickArray.usedCount_ne_zero.1 hne
    rw [hempty i hi] at hused
    exact absurd hused (by simp [Tick.isInitialized, Tick.empty])
  exact { h with
    laid := hlaid
    counted := fun b hb => by
      rcases (mem_insertArray hnew).1 hb with rfl | hb
      · rw [hcount, hunused]
      · exact h.counted b hb
    marked := fun s => by
      refine (h.marked s).trans ⟨?_, ?_⟩
      · intro hcounted
        obtain ⟨b, hb, hs, hne⟩ := hcounted
        exact ⟨b, (mem_insertArray hnew).2 (Or.inr hb), hs, hne⟩
      · intro hcounted
        obtain ⟨b, hb, hs, hne⟩ := hcounted
        rcases (mem_insertArray hnew).1 hb with rfl | hb
        · exact absurd hcount hne
        · exact ⟨b, hb, hs, hne⟩ }

theorem WellFormed.addArray (h : m.WellFormed) {start : Int} {bump : Nat}
    (hnew : start ∉ m.arrays.map (·.start)) (hadd : m.addArray start bump = .ok m') :
    m'.WellFormed := by
  have horderly := h.orderly.addArray hnew hadd
  obtain ⟨a, ha, rfl⟩ := addArray_eq_ok hadd
  obtain ⟨-, rfl, -, -⟩ := aligned_fresh ha
  obtain ⟨-, hlookup⟩ := lookup_insertArray h.laid ha hnew
  exact { horderly with
    gross := fun t => by
      rw [hlookup]
      exact h.gross t
    net := fun t => by
      rw [hlookup]
      exact h.net t
    ranged := h.ranged
    liquidity := h.liquidity }

theorem Orderly.setUpPosition (h : m.Orderly) (lower upper : Int) :
    (m.setUpPosition lower upper).Orderly :=
  ⟨h.spacing_pos, h.laid, h.counted, h.marked, h.price, h.oracle⟩

theorem WellFormed.setUpPosition (h : m.WellFormed) (lower upper : Int) :
    (m.setUpPosition lower upper).WellFormed := by
  have hempty : (m.freshPosition lower upper).liquidity = 0 := rfl
  exact { h with
    gross := fun t => (h.gross t).trans (grossAt_append_empty hempty).symm
    net := fun t => (h.net t).trans (netAt_append_empty hempty).symm
    ranged := fun p hp hne => by
      rcases List.mem_append.1 hp with hp | hp
      · exact h.ranged p hp hne
      · rw [List.mem_singleton.1 hp] at hne
        exact absurd hempty hne
    liquidity := h.liquidity.trans (liquidityAt_append_empty hempty).symm }

/-- What is accrued for the protocol and the fund plays no part in it. -/
theorem Orderly.withShares (h : m.Orderly) (protocolFees fundFees : Pair Nat) :
    Orderly { m with pool := { m.pool with protocolFees, fundFees } } :=
  ⟨h.spacing_pos, h.laid, h.counted, h.marked, h.price, h.oracle⟩

theorem WellFormed.withShares (h : m.WellFormed) (protocolFees fundFees : Pair Nat) :
    WellFormed { m with pool := { m.pool with protocolFees, fundFees } } :=
  { h.orderly.withShares protocolFees fundFees with
    gross := h.gross
    net := h.net
    ranged := h.ranged
    liquidity := h.liquidity }

end Market

end Clmm
