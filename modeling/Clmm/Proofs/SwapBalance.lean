import Clmm.Proofs.Stake
import Clmm.Proofs.SwapEffect

/-!
# Clmm.Proofs.SwapBalance

**A swap never gives the positions more than it takes in** (`Swapped.balanced`). At every place of a walk,
what the positions can claim of the input token, together with the protocol's and the fund's fees, has
risen by at most what was paid in; and what they can claim of the output token has fallen by at least
what was paid out.

A step moves the price and books a fee while liquidity and tick stand still. Its amounts are rounded in
favour of the pool (`SwapStep.Sound`) and its fee is split without a rest. After that the tick moves,
past no tick in use or over one that is crossed, and this changes no claim.
-/

namespace Clmm

open TickTable

/-! ### Fees -/

theorem splitFee_eq_ok {fee protocolRate fundRate : Nat} {split : FeeSplit}
    (h : splitFee fee protocolRate fundRate = .ok split) :
    split.protocol + split.fund + split.providers = fee := by
  simp only [splitFee] at h
  simp only [Outcome.bind_eq_ok, subOrRefuse_eq_ok] at h
  obtain ⟨protocol, -, fund, -, _, ⟨hprotocol, rfl⟩, _, ⟨hfund, rfl⟩, h⟩ := h
  obtain rfl := Except.ok.inj h
  change protocol + fund + (fee - protocol - fund) = fee
  omega

/-- The growth that a fee is to the liquidity gives back at most the fee. -/
theorem feeGrowth_le {fee liquidity : Nat} {g : Growth} (h : feeGrowth fee liquidity = .ok g) :
    (liquidity : ℚ) * (g.toNat / 2 ^ 64) ≤ fee := by
  simp only [feeGrowth] at h
  by_cases hzero : liquidity = 0 ∨ fee = 0
  · rw [if_pos hzero] at h
    obtain rfl := Except.ok.inj h
    simp
  · rw [if_neg hzero, Outcome.bind_eq_ok] at h
    obtain ⟨n, hn, h⟩ := h
    obtain rfl := Except.ok.inj h
    obtain ⟨-, hdiv⟩ := mulDiv_eq_ok hn
    -- what does not fit the counter is lost, in favour of the pool
    have hmod : (BitVec.ofNat 128 n).toNat ≤ fee * 2 ^ 64 / liquidity := by
      rw [BitVec.toNat_ofNat, ← hdiv]
      exact Nat.mod_le _ _
    have hmul : liquidity * (BitVec.ofNat 128 n).toNat ≤ fee * 2 ^ 64 :=
      (Nat.mul_le_mul_left _ hmod).trans (Nat.mul_div_le _ _)
    have hcast : (liquidity : ℚ) * (BitVec.ofNat 128 n).toNat ≤ fee * 2 ^ 64 := by
      exact_mod_cast hmul
    rw [← mul_div_assoc]
    exact div_le_of_le_mul₀ (by positivity) (Nat.cast_nonneg _) hcast

namespace Swap

theorem index_crossedTable {table : Int → Tick} (h : ∀ t, (table t).index = t) (xs : List Crossing)
    (t : Int) : (crossedTable table xs t).index = t := by
  induction xs using List.reverseRecOn with
  | nil => exact h t
  | append_singleton xs x ih =>
      rw [crossedTable_concat]
      by_cases ht : t = x.tick.index
      · rw [ht, Function.update_self]
      · rw [Function.update_of_ne ht]
        exact ih

/-- The claims of the positions at a place of a walk depend on this. Crossings count as written. -/
def Walk.scene (w : Walk) (m : Market) (c : Course) : Scene :=
  ⟨w.sqrtPrice, w.tick, c.growth.set c.direction.input w.growth,
    crossedTable (lookup m.arrays) w.crossings, index_crossedTable (fun _ => index_lookup) _⟩

/-- What was paid in so far, fees included. -/
def Walk.paidIn (w : Walk) (c : Course) (amount : Nat) : ℚ :=
  match c.mode with
  | .exactIn => amount - w.remaining
  | .exactOut => w.calculated

/-- What was paid out so far. -/
def Walk.paidOut (w : Walk) (c : Course) (amount : Nat) : ℚ :=
  match c.mode with
  | .exactIn => w.calculated
  | .exactOut => amount - w.remaining

/-- The positions have not gained more than was paid in, nor lost less than was paid out. -/
structure Balanced (m : Market) (c : Course) (amount : Nat) (w : Walk) : Prop where
  input : (w.scene m c).stakes m.positions c.direction.input + w.protocolFee + w.fundFee ≤
    m.scene.stakes m.positions c.direction.input + w.paidIn c amount
  output : (w.scene m c).stakes m.positions c.direction.output + w.paidOut c amount ≤
    m.scene.stakes m.positions c.direction.output

section Invariant

variable {m : Market} {c : Course} {supplied : List TickArray} {w w' moved : Walk} {t : Int}
  {s : SwapStep} {split : FeeSplit} {growth : Growth} {found : Option (Cursor × Nat)} {amount : Nat}

/-! ### One step -/

/-- No tick in use lies between the tick of the walk and the price at the end of a step. -/
theorem Leg.within (hl : Leg c w found t s split growth moved) (hs : Setting m c supplied)
    (hw : Walking m c supplied w) : Within m.positions w.tick s.sqrtPrice := by
  have hsound := hl.sound hs.low hw.afoot.underway
  have hbound := hsound.stays.trans nearer_leads.1
  have hleads := hsound.leads
  have hold := hw.price.within hs.wellFormed.ranged
  intro u hu
  obtain ⟨hmin, hmax⟩ := hs.wellFormed.ranged.bounds hu
  have hnext := hl.heads.eq_or_beyond hs hw hu
  cases hd : c.direction with
  | down =>
      rw [hd] at hbound hleads hnext
      refine ⟨?_, fun hlt => Nat.le_trans hleads ((hold u hu).2 hlt)⟩
      intro hle
      have hut : u ≤ t := (hnext hle).elim Int.le_of_eq Int.le_of_lt
      exact (priceAt_le hmin hut hl.high).trans hbound
  | up =>
      rw [hd] at hbound hleads hnext
      refine ⟨fun hle => ((hold u hu).1 hle).trans hleads, ?_⟩
      intro hlt
      have htu : t ≤ u := (hnext hlt).elim (fun heq => Int.le_of_eq heq.symm) Int.le_of_lt
      exact Nat.le_trans hbound (priceAt_le hl.low htu hmax)

/-- The move of a step, seen from the positions. -/
theorem Leg.scene_moved (hl : Leg c w found t s split growth moved) :
    moved.scene m c = (w.scene m c).moved s.sqrtPrice c.direction.input growth := by
  have hsqrt : moved.sqrtPrice = s.sqrtPrice := hl.settled.sqrtPrice_eq
  have htick : moved.tick = w.tick := by rw [hl.settled.rest]
  have hgrowth : moved.growth = w.growth + growth := by rw [hl.settled.rest]
  have hcrossings : moved.crossings = w.crossings := by rw [hl.settled.rest]
  simp only [Walk.scene, Scene.moved]
  simp only [hsqrt, htick, hgrowth, hcrossings, Pair.get_set_same, Pair.set_set]

/-- A step is paid with its input and its fee, and it pays its output. -/
theorem Leg.paid (hl : Leg c w found t s split growth moved) (amount : Nat) :
    moved.paidIn c amount = w.paidIn c amount + (s.amountIn + s.fee) ∧
      moved.paidOut c amount = w.paidOut c amount + s.amountOut := by
  have hamounts := hl.settled.amounts
  simp only [Walk.paidIn, Walk.paidOut]
  cases hmode : c.mode with
  | exactIn =>
      rw [hmode] at hamounts
      obtain ⟨hremaining, hcalculated⟩ := hamounts
      have hremaining' : (moved.remaining : ℚ) + (s.amountIn + s.fee) = w.remaining := by
        exact_mod_cast hremaining
      dsimp only
      constructor
      · linarith
      · exact_mod_cast hcalculated
  | exactOut =>
      rw [hmode] at hamounts
      obtain ⟨hremaining, hcalculated⟩ := hamounts
      have hremaining' : (moved.remaining : ℚ) + s.amountOut = w.remaining := by
        exact_mod_cast hremaining
      dsimp only
      constructor
      · exact_mod_cast hcalculated
      · linarith

/-- **The move of a step keeps the balance.** -/
theorem Leg.balanced (hl : Leg c w found t s split growth moved) (hs : Setting m c supplied)
    (hw : Walking m c supplied w) (hb : Balanced m c amount w) : Balanced m c amount moved := by
  have hsound := hl.sound hs.low hw.afoot.underway
  have hranged := hs.wellFormed.ranged
  have hold : Within m.positions (w.scene m c).tick (w.scene m c).sqrtPrice := hw.price.within hranged
  have hnew : Within m.positions (w.scene m c).tick s.sqrtPrice := hl.within hs hw
  have hgrowth := feeGrowth_le hl.settled.growth_eq
  -- the fee goes to protocol, fund and the liquidity in range without a rest
  have hsplit : (split.protocol : ℚ) + split.fund + split.providers = s.fee := by
    exact_mod_cast splitFee_eq_ok hl.settled.split_eq
  -- the input token gets the growth; in the output token there is only the move
  have hin := Scene.stakes_move (w.scene m c) hranged hold hnew c.direction.input growth
  have hout := Scene.stakes_move_other (w.scene m c) hranged hold hnew c.direction.output growth
  rw [show c.direction.output.other = c.direction.input from Token.other_other _] at hout
  rw [← hl.scene_moved] at hin hout
  have htick : (w.scene m c).tick = w.tick := rfl
  have hsqrt : (w.scene m c).sqrtPrice = w.sqrtPrice := rfl
  rw [htick, hsqrt, ← hw.liquidity] at hin hout
  have hpays := hsound.pays
  have hgives := hsound.gives
  have hprotocol : (moved.protocolFee : ℚ) = w.protocolFee + split.protocol := by
    rw [hl.settled.rest]
    exact Nat.cast_add _ _
  have hfund : (moved.fundFee : ℚ) = w.fundFee + split.fund := by
    rw [hl.settled.rest]
    exact Nat.cast_add _ _
  have hpaid := hl.paid amount
  have hinput := hb.input
  have houtput := hb.output
  constructor
  · rw [hpaid.1, hprotocol, hfund]
    rw [mul_add] at hin
    linarith
  · rw [hpaid.2]
    linarith

/-- A change of the walk that no claim depends on keeps the balance. -/
theorem Balanced.congr (hb : Balanced m c amount moved)
    (hstakes : ∀ x, (w'.scene m c).stakes m.positions x = (moved.scene m c).stakes m.positions x)
    (hprotocol : w'.protocolFee = moved.protocolFee) (hfund : w'.fundFee = moved.fundFee)
    (hremaining : w'.remaining = moved.remaining) (hcalculated : w'.calculated = moved.calculated) :
    Balanced m c amount w' := by
  have hinput := hb.input
  have houtput := hb.output
  simp only [Walk.paidIn] at hinput
  simp only [Walk.paidOut] at houtput
  rw [← hstakes] at hinput houtput
  constructor
  · simp only [Walk.paidIn]
    rwa [hprotocol, hfund, hremaining, hcalculated]
  · simp only [Walk.paidOut]
    rwa [hremaining, hcalculated]

/-- Past no tick in use, a step leaves the growth on every side where its move left it. -/
theorem Drifts.sides (hd : Drifts m w moved w') (htick : moved.tick = w.tick) (x : Token) :
    Scene.SameSides (moved.scene m c) (w'.scene m c) m.positions x := by
  refine Scene.sides_drift ?_ ?_ ?_ x
  · rw [hd.rest]
    rfl
  · rw [hd.rest]
    rfl
  · intro u hu
    change u ≤ w'.tick ↔ u ≤ moved.tick
    rw [htick]
    exact hd.same u hu

theorem Balanced.drifts (hb : Balanced m c amount moved) (htick : moved.tick = w.tick)
    (hd : Drifts m w moved w') : Balanced m c amount w' := by
  refine hb.congr (fun x => (hd.sides htick x).stakes_eq ?_) ?_ ?_ ?_ ?_
  · rw [hd.rest]
    rfl
  · rw [hd.rest]
  · rw [hd.rest]
  · rw [hd.rest]
  · rw [hd.rest]

/-- A crossing leaves the growth on every side where the move before it left it. -/
theorem Crosses.sides {k : Cursor} {offset : Nat} (hx : Crosses m c supplied w t moved w' k offset)
    (hs : Setting m c supplied) (hw : Walking m c supplied w)
    (hl : Leg c w found t s split growth moved) (x : Token) :
    Scene.SameSides (moved.scene m c) (w'.scene m c) m.positions x := by
  have hahead := hl.heads.ahead
  have hcrossings : moved.crossings = w.crossings := by rw [hl.settled.rest]
  have htick : moved.tick = w.tick := by rw [hl.settled.rest]
  have htick' : w'.tick = c.direction.arrive t := by rw [hx.rest]
  -- a tick ahead was not crossed before
  have hfresh : t ∉ w.crossed := fun hmem => ((hw.crossed t).1 hmem).2.2 hahead
  have hlookup : crossedTable (lookup m.arrays) moved.crossings t = lookup m.arrays t := by
    rw [hcrossings]
    exact crossedTable_of_not_mem hfresh
  refine Scene.sides_cross (t := t) ?_ ?_ ?_ ?_ x
  · rw [hx.rest]
    rfl
  · change crossedTable (lookup m.arrays) w'.crossings =
      Function.update (crossedTable (lookup m.arrays) moved.crossings) t
        ((crossedTable (lookup m.arrays) moved.crossings t).cross
          (c.growth.set c.direction.input moved.growth))
    rw [hx.rest, crossedTable_concat, hlookup, hcrossings]
    congr 1
    exact index_lookup
  · intro u hu hne
    change u ≤ w'.tick ↔ u ≤ moved.tick
    rw [htick, htick', ← Direction.ahead_iff_ahead c.direction, hl.ahead_arrive_iff hs hw hu]
    exact ⟨fun h => h.1, fun h => ⟨h, hne⟩⟩
  · change t ≤ w'.tick ↔ ¬ t ≤ moved.tick
    rw [htick, htick']
    cases hd : c.direction with
    | down =>
        rw [hd] at hahead
        have hle : t ≤ w.tick := hahead
        constructor
        · intro h
          exact absurd h (Int.not_le.2 (Int.sub_one_lt_of_le (Int.le_refl t)))
        · intro h
          exact absurd hle h
    | up =>
        rw [hd] at hahead
        have hlt : w.tick < t := hahead
        exact ⟨fun _ => Int.not_le.2 hlt, fun _ => Int.le_refl t⟩

theorem Balanced.crosses (hb : Balanced m c amount moved) (hs : Setting m c supplied)
    (hw : Walking m c supplied w) (hl : Leg c w found t s split growth moved) {k : Cursor}
    {offset : Nat} (hx : Crosses m c supplied w t moved w' k offset) : Balanced m c amount w' := by
  refine hb.congr (fun x => (hx.sides hs hw hl x).stakes_eq ?_) ?_ ?_ ?_ ?_
  · rw [hx.rest]
    rfl
  · rw [hx.rest]
  · rw [hx.rest]
  · rw [hx.rest]
  · rw [hx.rest]

/-- **A step keeps the balance.** -/
theorem Balanced.step (hb : Balanced m c amount w) (hs : Setting m c supplied)
    (hw : Walking m c supplied w) (hl : Leg c w found t s split growth moved)
    (hmoves : Drifts m w moved w' ∨ ∃ k offset, Crosses m c supplied w t moved w' k offset) :
    Balanced m c amount w' := by
  rcases hmoves with hd | ⟨k, offset, hx⟩
  · have htick : moved.tick = w.tick := by rw [hl.settled.rest]
    exact (hl.balanced hs hw hb).drifts htick hd
  · exact (hl.balanced hs hw hb).crosses hs hw hl hx

end Invariant

/-! ### The whole swap -/

theorem Settles.paid {r : SwapRequest} {w : Walk} {result : SwapResult} {c : Course}
    (h : Settles r w result) (hmode : c.mode = r.mode) :
    w.paidIn c r.amount = result.amountIn ∧ w.paidOut c r.amount = result.amountOut := by
  have hamounts := h.amounts
  have hrest : ((r.amount - w.remaining : Nat) : ℚ) = r.amount - w.remaining :=
    Nat.cast_sub h.remaining
  simp only [Walk.paidIn, Walk.paidOut]
  rw [hmode]
  cases hr : r.mode with
  | exactIn =>
      rw [hr] at hamounts
      rw [hamounts.1, hamounts.2]
      exact ⟨hrest.symm, rfl⟩
  | exactOut =>
      rw [hr] at hamounts
      rw [hamounts.1, hamounts.2]
      exact ⟨rfl, hrest.symm⟩

/-- Before its first step a walk has paid nothing. -/
theorem paid_start (pool : Pool) (r : SwapRequest) (cursor : Option Cursor) (c : Course) :
    (start pool r cursor).paidIn c r.amount = 0 ∧ (start pool r cursor).paidOut c r.amount = 0 := by
  simp only [Walk.paidIn, Walk.paidOut, start]
  cases c.mode with
  | exactIn => exact ⟨sub_self _, Nat.cast_zero⟩
  | exactOut => exact ⟨Nat.cast_zero, sub_self _⟩

section Whole

variable {m : Market} {s : Supply} {r : SwapRequest} {b' : SwapBook} {result : SwapResult}
  {c : Course} {cursor : Option Cursor} {w : Walk}

/-- A walk begins with the market as it stands. -/
theorem Swapped.scene_start
    (h : Swapped m.config (m.supplied s) r ⟨m.pool, m.pick s.starts⟩ b' result c cursor w) :
    (start m.pool r cursor).scene m c = m.scene := by
  obtain ⟨edges, -, hc⟩ := course_eq_ok h.course_eq
  have hgrowth : c.growth.set c.direction.input (m.pool.growth.get r.direction.input) =
      m.pool.growth := by
    rw [hc]
    exact Pair.set_get _ _
  simp only [Walk.scene, Market.scene, start]
  simp only [hgrowth]
  rfl

/-- **The balance of a swap.** -/
theorem Swapped.balanced (hm : m.WellFormed)
    (h : Swapped m.config (m.supplied s) r ⟨m.pool, m.pick s.starts⟩ b' result c cursor w)
    (hamount : r.amount < 2 ^ 64) (hclear : Clear m s w) : Balanced m c r.amount w := by
  have hbalanced : Balanced m c r.amount (start m.pool r cursor) := by
    obtain ⟨hnoneIn, hnoneOut⟩ := paid_start m.pool r cursor c
    constructor
    · rw [h.scene_start, hnoneIn]
      simp [start]
    · rw [h.scene_start, hnoneOut, add_zero]
  have hends := walking_induct (h.setting hm)
    (fun hw hb hl hmoves => hb.step (h.setting hm) hw hl hmoves) (h.walking_start hm hamount)
    hbalanced h.walk_eq
  exact (hends.resolve_right (h.not_stuck hm hclear)).2

end Whole

end Swap

end Clmm
