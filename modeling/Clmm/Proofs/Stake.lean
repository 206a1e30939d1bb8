import Clmm.Proofs.ExactAmount
import Clmm.Proofs.WellFormed
import Mathlib.Data.BitVec

/-!
# Clmm.Proofs.Stake

**What the positions can claim, exactly.** The stake of a position in a token is what its liquidity
holds at the current price together with the fees that grew since its last settlement, unrounded.

Three things move the stakes of all positions at once, and the three main results say by how much:

* the price, as long as it passes no tick in use, and the fee growth, by what they are to the liquidity
  in range (`stakes_move`);
* the current tick, as long as it passes no tick in use: not at all (`sides_drift`);
* crossing a tick: not at all, since the tick turns its growth round (`sides_cross`).

Growth counters wrap around, so a fee that grew is read off a difference modulo `2 ^ 128`. The bound
survives this: the reading of a sum is at most the sum of the readings.
-/

namespace Clmm

/-! ### What liquidity holds -/

namespace Position

/-- The price, moved into the range of the position. -/
def clamp (p : Position) (price : Nat) : Nat :=
  max (priceAt p.lower) (min price (priceAt p.upper))

/-- The end of the range at which the position holds nothing of a token. -/
def emptyPrice (p : Position) (x : Token) : Nat :=
  match x with
  | .zero => priceAt p.upper
  | .one => priceAt p.lower

/-- What one unit of the position's liquidity holds of a token. -/
def unitWorth (p : Position) (price : Nat) (x : Token) : ℚ :=
  holding x (p.clamp price) - holding x (p.emptyPrice x)

variable {p : Position} {price : Nat}

theorem unitWorth_of_empty {x : Token} (h : p.clamp price = p.emptyPrice x) :
    p.unitWorth price x = 0 := by
  simp only [unitWorth]
  rw [h, sub_self]

theorem clamp_inside (hlower : priceAt p.lower ≤ price) (hupper : price ≤ priceAt p.upper) :
    p.clamp price = price := by
  simp only [clamp]
  rw [Nat.min_eq_left hupper, Nat.max_eq_right hlower]

theorem clamp_below (hrange : priceAt p.lower ≤ priceAt p.upper) (h : price ≤ priceAt p.lower) :
    p.clamp price = priceAt p.lower := by
  simp only [clamp]
  rw [Nat.min_eq_left (h.trans hrange), Nat.max_eq_left h]

theorem clamp_above (hrange : priceAt p.lower ≤ priceAt p.upper) (h : priceAt p.upper ≤ price) :
    p.clamp price = priceAt p.upper := by
  simp only [clamp]
  rw [Nat.min_eq_right h, Nat.max_eq_right hrange]

end Position

/-- A tick price lies on the same side of the price as its tick does of the current tick. -/
def SameSide (tick : Int) (price : Nat) (u : Int) : Prop :=
  (u ≤ tick → priceAt u ≤ price) ∧ (tick < u → price ≤ priceAt u)

/-- No price of a tick in use lies between the price and the tick. -/
def Within (positions : List Position) (tick : Int) (price : Nat) : Prop :=
  ∀ u, grossAt positions u ≠ 0 → SameSide tick price u

section Worth

variable {positions : List Position} {tick : Int} {price price' : Nat} {p : Position}

theorem Agrees.sameSide (h : Agrees price tick) {u : Int} (hmin : minTick ≤ u) (hmax : u ≤ maxTick) :
    SameSide tick price u := by
  constructor
  · intro hle
    exact (priceAt_le hmin hle h.le_max).trans h.price_le
  · intro hlt
    have hnext := h.le_next (lt_of_lt_of_le hlt hmax)
    exact hnext.trans (priceAt_le (by have := h.min_le; omega) (by omega) hmax)

theorem Agrees.within (h : Agrees price tick) (hr : Ranged positions) :
    Within positions tick price := by
  intro u hu
  obtain ⟨hmin, hmax⟩ := hr.bounds hu
  exact h.sameSide hmin hmax

theorem grossAt_bounds (hp : p ∈ positions) (hne : p.liquidity ≠ 0) :
    grossAt positions p.lower ≠ 0 ∧ grossAt positions p.upper ≠ 0 :=
  ⟨fun hzero => hne (liquidity_eq_zero_of_grossAt hzero hp (Or.inl rfl)),
    fun hzero => hne (liquidity_eq_zero_of_grossAt hzero hp (Or.inr rfl))⟩

theorem Ranged.priceAt_le (hr : Ranged positions) (hp : p ∈ positions) (hne : p.liquidity ≠ 0) :
    priceAt p.lower ≤ priceAt p.upper := by
  obtain ⟨hmin, hlt, hmax⟩ := hr p hp hne
  exact Clmm.priceAt_le hmin hlt.le hmax

/-- Where the price lies for a position is told by its range and the current tick. -/
theorem Position.clamp_eq (hrange : priceAt p.lower ≤ priceAt p.upper)
    (hlower : SameSide tick price p.lower) (hupper : SameSide tick price p.upper) :
    p.clamp price =
      if tick < p.lower then priceAt p.lower
      else if tick < p.upper then price else priceAt p.upper := by
  by_cases hbelow : tick < p.lower
  · rw [if_pos hbelow]
    exact Position.clamp_below hrange (hlower.2 hbelow)
  · rw [if_neg hbelow]
    by_cases hinside : tick < p.upper
    · rw [if_pos hinside]
      exact Position.clamp_inside (hlower.1 (Int.not_lt.1 hbelow)) (hupper.2 hinside)
    · rw [if_neg hinside]
      exact Position.clamp_above hrange (hupper.1 (Int.not_lt.1 hinside))

/-- A price that passes no tick in use moves the worth of the liquidity in range only. -/
theorem unitWorth_move (hw : Within positions tick price) (hw' : Within positions tick price')
    (hr : Ranged positions) (hp : p ∈ positions) (hne : p.liquidity ≠ 0) (x : Token) :
    p.unitWorth price' x = p.unitWorth price x +
      if p.Covers tick then holding x price' - holding x price else 0 := by
  obtain ⟨hlower, hupper⟩ := grossAt_bounds hp hne
  have hrange := hr.priceAt_le hp hne
  simp only [Position.unitWorth]
  rw [Position.clamp_eq hrange (hw _ hlower) (hw _ hupper),
    Position.clamp_eq hrange (hw' _ hlower) (hw' _ hupper)]
  by_cases hbelow : tick < p.lower
  · have hnot : ¬ p.Covers tick := fun hcovers => Int.not_lt.2 hcovers.1 hbelow
    rw [if_pos hbelow, if_pos hbelow, if_neg hnot]
    ring
  · by_cases hinside : tick < p.upper
    · have hcovers : p.Covers tick := ⟨Int.not_lt.1 hbelow, hinside⟩
      rw [if_neg hbelow, if_neg hbelow, if_pos hinside, if_pos hinside, if_pos hcovers]
      ring
    · have hnot : ¬ p.Covers tick := fun hcovers => hinside hcovers.2
      rw [if_neg hbelow, if_neg hbelow, if_neg hinside, if_neg hinside, if_neg hnot]
      ring

end Worth

/-! ### The stakes -/

/-- What the claims of positions depend on. -/
structure Scene where
  sqrtPrice : Nat
  tick : Int
  growth : Pair Growth
  table : Int → Tick
  /-- The table keeps each tick at its index. -/
  index_table : ∀ t, (table t).index = t

namespace Scene

/-- The fee growth inside the range of a position since its last settlement. -/
def unsettled (v : Scene) (p : Position) (x : Token) : Growth :=
  (Tick.growthInside (v.table p.lower) (v.table p.upper) v.tick v.growth).get x - p.growthLast.get x

/-- The fee growth inside the range of a position. -/
def inside (v : Scene) (p : Position) : Pair Growth :=
  Tick.growthInside (v.table p.lower) (v.table p.upper) v.tick v.growth

theorem unsettled_eq_inside (v : Scene) (p : Position) (x : Token) :
    v.unsettled p x = (v.inside p).get x - p.growthLast.get x := rfl

/-- What one unit of a position's liquidity can claim. -/
def share (v : Scene) (p : Position) (x : Token) : ℚ :=
  p.unitWorth v.sqrtPrice x + (v.unsettled p x).toNat / 2 ^ 64

/-- What all positions can claim. -/
def stakes (v : Scene) (positions : List Position) (x : Token) : ℚ :=
  (positions.map fun p => p.liquidity * v.share p x).sum

variable {v v' : Scene} {positions : List Position} {t : Int} {x : Token} {p : Position}

/-- If each share in range rises by at most `a`, all stakes rise by at most the liquidity times `a`. -/
theorem stakes_le {a : ℚ} (h : ∀ p ∈ positions, p.liquidity ≠ 0 →
    v'.share p x ≤ v.share p x + if p.Covers t then a else 0) :
    v'.stakes positions x ≤ v.stakes positions x + liquidityAt positions t * a := by
  simp only [stakes, liquidityAt]
  induction positions with
  | nil => simp
  | cons p rest ih =>
      have hrest := ih fun q hq => h q (List.mem_cons_of_mem _ hq)
      simp only [List.map_cons, List.sum_cons, Nat.cast_add]
      -- the head counts once; the rest is the induction
      have hone : (p.liquidity : ℚ) * v'.share p x ≤ p.liquidity * v.share p x +
          ((if p.Covers t then p.liquidity else 0 : Nat) : ℚ) * a := by
        by_cases hzero : p.liquidity = 0
        · simp [hzero]
        · have hshare := h p List.mem_cons_self hzero
          have hmul := mul_le_mul_of_nonneg_left hshare (Nat.cast_nonneg (α := ℚ) p.liquidity)
          by_cases hcovers : p.Covers t
          · rw [if_pos hcovers] at hmul ⊢
            linarith
          · rw [if_neg hcovers] at hmul ⊢
            rw [Nat.cast_zero, zero_mul]
            linarith
      linarith

theorem stakes_congr (h : ∀ p ∈ positions, p.liquidity ≠ 0 → v'.share p x = v.share p x) :
    v'.stakes positions x = v.stakes positions x := by
  simp only [stakes]
  congr 1
  apply List.map_congr_left
  intro p hp
  by_cases hzero : p.liquidity = 0
  · simp [hzero]
  · rw [h p hp hzero]

/-! ### The price and the growth move -/

/-- The growth inside a range is read off the outside growth of its bounds. -/
theorem growthInside_eq (v : Scene) (hlt : p.lower < p.upper) (x : Token) :
    (Tick.growthInside (v.table p.lower) (v.table p.upper) v.tick v.growth).get x =
      if v.tick < p.lower then (v.table p.lower).outside.get x - (v.table p.upper).outside.get x
      else if v.tick < p.upper then
        v.growth.get x - (v.table p.lower).outside.get x - (v.table p.upper).outside.get x
      else (v.table p.upper).outside.get x - (v.table p.lower).outside.get x := by
  simp only [Tick.growthInside, Tick.growthBelow, Tick.growthAbove]
  rw [Pair.get_ofFn, v.index_table, v.index_table]
  by_cases hbelow : v.tick < p.lower
  · rw [if_pos hbelow, if_neg (Int.not_le.2 hbelow), if_pos (hbelow.trans hlt)]
    ring
  · rw [if_neg hbelow, if_pos (Int.not_lt.1 hbelow)]
    by_cases hinside : v.tick < p.upper
    · rw [if_pos hinside, if_pos hinside]
    · rw [if_neg hinside, if_neg hinside]
      ring

/-- The scene after the price moved and the fee growth of token `y` rose by `g`. -/
def moved (v : Scene) (price : Nat) (y : Token) (g : Growth) : Scene :=
  { v with sqrtPrice := price, growth := v.growth.set y (v.growth.get y + g) }

theorem unsettled_moved (v : Scene) (hlt : p.lower < p.upper) (price : Nat) (x : Token) (g : Growth) :
    (v.moved price x g).unsettled p x =
      v.unsettled p x + if p.Covers v.tick then g else 0 := by
  have hinside := v.growthInside_eq hlt x
  have hinside' := (v.moved price x g).growthInside_eq hlt x
  have htable : (v.moved price x g).table = v.table := rfl
  have htick : (v.moved price x g).tick = v.tick := rfl
  have hgrowth : (v.moved price x g).growth.get x = v.growth.get x + g := by
    simp only [moved]
    rw [Pair.get_set_same]
  simp only [unsettled]
  rw [hinside, hinside', htable, htick, hgrowth]
  by_cases hbelow : v.tick < p.lower
  · have hnot : ¬ p.Covers v.tick := fun hcovers => Int.not_lt.2 hcovers.1 hbelow
    rw [if_pos hbelow, if_pos hbelow, if_neg hnot]
    ring
  · by_cases hin : v.tick < p.upper
    · have hcovers : p.Covers v.tick := ⟨Int.not_lt.1 hbelow, hin⟩
      rw [if_neg hbelow, if_neg hbelow, if_pos hin, if_pos hin, if_pos hcovers]
      ring
    · have hnot : ¬ p.Covers v.tick := fun hcovers => hin hcovers.2
      rw [if_neg hbelow, if_neg hbelow, if_neg hin, if_neg hin, if_neg hnot]
      ring

theorem unsettled_moved_other (v : Scene) (price : Nat) (x : Token) (g : Growth) :
    (v.moved price x.other g).unsettled p x = v.unsettled p x := by
  have hgrowth : (v.moved price x.other g).growth.get x = v.growth.get x := by
    simp only [moved]
    rw [Pair.get_set_other]
  simp only [unsettled, Tick.growthInside, Tick.growthBelow, Tick.growthAbove]
  simp only [Pair.get_ofFn, hgrowth]
  rfl

/-- A wrapped sum reads as at most the sum of what its parts read as. -/
theorem toNat_add_le (a b : Growth) : (a + b).toNat ≤ a.toNat + b.toNat := by
  rw [BitVec.toNat_add]
  exact Nat.mod_le _ _

/-- **The stakes in the token whose fees grow** rise by at most what the move and the growth are to the
liquidity in range. -/
theorem stakes_move (v : Scene) {price : Nat} (hr : Ranged positions)
    (hw : Within positions v.tick v.sqrtPrice) (hw' : Within positions v.tick price) (x : Token)
    (g : Growth) :
    (v.moved price x g).stakes positions x ≤ v.stakes positions x +
      liquidityAt positions v.tick * (holding x price - holding x v.sqrtPrice + g.toNat / 2 ^ 64) := by
  apply stakes_le
  intro p hp hne
  obtain ⟨-, hlt, -⟩ := hr p hp hne
  simp only [share]
  rw [unsettled_moved v hlt, show (v.moved price x g).sqrtPrice = price from rfl,
    unitWorth_move hw hw' hr hp hne]
  by_cases hcovers : p.Covers v.tick
  · rw [if_pos hcovers, if_pos hcovers, if_pos hcovers]
    -- counters wrap, but only downward
    have hadd : ((v.unsettled p x + g).toNat : ℚ) ≤ (v.unsettled p x).toNat + g.toNat := by
      exact_mod_cast toNat_add_le _ _
    have hdiv := div_le_div_of_nonneg_right hadd (by positivity : (0 : ℚ) ≤ 2 ^ 64)
    rw [add_div] at hdiv
    linarith
  · rw [if_neg hcovers, if_neg hcovers, if_neg hcovers, add_zero, add_zero, add_zero]

/-- The stakes in the other token rise by at most what the move is to the liquidity in range. -/
theorem stakes_move_other (v : Scene) {price : Nat} (hr : Ranged positions)
    (hw : Within positions v.tick v.sqrtPrice) (hw' : Within positions v.tick price) (x : Token)
    (g : Growth) :
    (v.moved price x.other g).stakes positions x ≤ v.stakes positions x +
      liquidityAt positions v.tick * (holding x price - holding x v.sqrtPrice) := by
  apply stakes_le
  intro p hp hne
  simp only [share]
  rw [unsettled_moved_other, show (v.moved price x.other g).sqrtPrice = price from rfl,
    unitWorth_move hw hw' hr hp hne]
  linarith

/-! ### The tick moves -/

/-- Both scenes read the same growth on either side of each tick in use. -/
structure SameSides (v v' : Scene) (positions : List Position) (x : Token) : Prop where
  growth : v'.growth = v.growth
  below : ∀ u, grossAt positions u ≠ 0 →
    (v'.table u).growthBelow v'.tick v'.growth x = (v.table u).growthBelow v.tick v.growth x
  above : ∀ u, grossAt positions u ≠ 0 →
    (v'.table u).growthAbove v'.tick v'.growth x = (v.table u).growthAbove v.tick v.growth x

theorem SameSides.unsettled_eq (h : SameSides v v' positions x) (hp : p ∈ positions)
    (hne : p.liquidity ≠ 0) : v'.unsettled p x = v.unsettled p x := by
  obtain ⟨hlower, hupper⟩ := grossAt_bounds hp hne
  simp only [unsettled, Tick.growthInside]
  rw [Pair.get_ofFn, Pair.get_ofFn, h.below _ hlower, h.above _ hupper, h.growth]

/-- A change that moves neither the price nor the growth on any side changes no stake. -/
theorem SameSides.stakes_eq (h : SameSides v v' positions x) (hprice : v'.sqrtPrice = v.sqrtPrice) :
    v'.stakes positions x = v.stakes positions x := by
  apply stakes_congr
  intro p hp hne
  simp only [share]
  rw [h.unsettled_eq hp hne, hprice]

/-- **The current tick moves** past no tick in use: the growth on every side stays. -/
theorem sides_drift (hgrowth : v'.growth = v.growth) (htable : v'.table = v.table)
    (hsame : ∀ u, grossAt positions u ≠ 0 → (u ≤ v'.tick ↔ u ≤ v.tick)) (x : Token) :
    SameSides v v' positions x := by
  have hflip : ∀ u, grossAt positions u ≠ 0 → (v'.tick < u ↔ v.tick < u) := by
    intro u hu
    rw [← Int.not_le, ← Int.not_le, hsame u hu]
  refine ⟨hgrowth, fun u hu => ?_, fun u hu => ?_⟩
  · simp only [Tick.growthBelow]
    rw [htable, hgrowth, v.index_table]
    simp only [hsame u hu]
  · simp only [Tick.growthAbove]
    rw [htable, hgrowth, v.index_table]
    simp only [hflip u hu]

/-- **A tick is crossed** on the way of the current tick: its growth is turned round, and the growth on
every side stays. -/
theorem sides_cross (hgrowth : v'.growth = v.growth)
    (htable : v'.table = Function.update v.table t ((v.table t).cross v.growth))
    (hsame : ∀ u, grossAt positions u ≠ 0 → u ≠ t → (u ≤ v'.tick ↔ u ≤ v.tick))
    (hturn : t ≤ v'.tick ↔ ¬ t ≤ v.tick) (x : Token) : SameSides v v' positions x := by
  -- the growth outside is turned round, and below and above change places with it
  have hcross : ((v.table t).cross v.growth).outside.get x =
      v.growth.get x - (v.table t).outside.get x := by
    simp only [Tick.cross]
    rw [Pair.get_ofFn]
  have hback : v.growth.get x - (v.growth.get x - (v.table t).outside.get x) =
      (v.table t).outside.get x := by ring
  refine ⟨hgrowth, fun u hu => ?_, fun u hu => ?_⟩
  · simp only [Tick.growthBelow]
    rw [v'.index_table, v.index_table, htable, hgrowth]
    by_cases hut : u = t
    · subst hut
      rw [Function.update_self, hcross, hback]
      by_cases hbefore : u ≤ v.tick
      · rw [if_neg fun h => hturn.1 h hbefore, if_pos hbefore]
      · rw [if_pos (hturn.2 hbefore), if_neg hbefore]
    · rw [Function.update_of_ne hut]
      simp only [hsame u hu hut]
  · simp only [Tick.growthAbove]
    rw [v'.index_table, v.index_table, htable, hgrowth]
    by_cases hut : u = t
    · subst hut
      rw [Function.update_self, hcross, hback]
      by_cases hbefore : u ≤ v.tick
      · rw [if_pos (Int.not_le.1 fun h => hturn.1 h hbefore), if_neg (Int.not_lt.2 hbefore)]
      · rw [if_neg (Int.not_lt.2 (hturn.2 hbefore)), if_pos (Int.not_le.1 hbefore)]
    · have hiff : v'.tick < u ↔ v.tick < u := by rw [← Int.not_le, ← Int.not_le, hsame u hu hut]
      rw [Function.update_of_ne hut]
      simp only [hiff]

end Scene

namespace Market

/-- The claims of a market's positions depend on this. -/
def scene (m : Market) : Scene :=
  ⟨m.pool.sqrtPrice, m.pool.tick, m.pool.growth, TickTable.lookup m.arrays,
    fun _ => TickTable.index_lookup⟩

/-- What all positions can claim and what is owed to them already. -/
def claims (m : Market) (x : Token) : ℚ :=
  (m.positions.map fun p => p.liquidity * m.scene.share p x + (p.owed.get x : ℚ)).sum

theorem claims_eq (m : Market) (x : Token) : m.claims x =
    m.scene.stakes m.positions x + (m.positions.map fun p => (p.owed.get x : ℚ)).sum := by
  simp only [claims, Scene.stakes]
  rw [← List.sum_map_add]

end Market

end Clmm
