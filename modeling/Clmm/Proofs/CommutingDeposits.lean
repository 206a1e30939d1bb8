import Clmm.Proofs.UndoneChange

/-!
# Clmm.Proofs.CommutingDeposits

**Deposits into two positions commute** (`deposits_commute`): in either order they take the same amounts and
lead to the same market.

A deposit sees of the other one no more than the ticks that they share. There gross and net add up in either
order. The growth outside a tick is set once, when the tick gets into use, and both deposits would set it to
the same: so whichever comes first sets it, and the one that follows finds it (`Tick.gain_comm`). Each
position thus settles the same growth in both orders (`Changed.alike_after`). Counts, bitmap and extension
follow from the ticks (`Market.Orderly.eq_of_lookup_eq`), so it does not matter either which of the deposits
is the first in an array.
-/

namespace Clmm

open TickTable

/-! ### One tick -/

/-- Which end of the position's range tick `t` is, if any. -/
def Position.boundAt (p : Position) (t : Int) : Option Tick.Bound :=
  if t = p.lower then some .lower else if t = p.upper then some .upper else none

namespace Tick

variable {k u k' : Tick} {current : Int} {globals : Pair Growth} {bound : Bound} {n l : Nat}

/-- A tick after a position with that end on it gained liquidity `n`. -/
def gain (k : Tick) (current : Int) (globals : Pair Growth) (bound : Bound) (n : Nat) : Tick :=
  { k with
    net := k.net + bound.signed n, gross := k.gross + n, outside := k.outsideInUse current globals }

/-- A tick after a position gained liquidity `n`, which has no end or some end on it. -/
def gainAt (k : Tick) (current : Int) (globals : Pair Growth) (n : Nat) : Option Bound → Tick
  | none => k
  | some bound => k.gain current globals bound n

/-- A tick that is in use keeps its growth. -/
theorem outsideInUse_gain (hn : 0 < n) (current : Int) (globals : Pair Growth) (bound : Bound) :
    (k.gain current globals bound n).outsideInUse current globals = k.outsideInUse current globals :=
  if_neg fun h => Nat.ne_of_gt (Nat.add_pos_right k.gross hn) h.1

theorem outsideInUse_gainAt (hn : 0 < n) (bound : Option Bound) :
    (k.gainAt current globals n bound).outsideInUse current globals = k.outsideInUse current globals := by
  cases bound with
  | none => rfl
  | some bound => exact outsideInUse_gain hn current globals bound

/-- **The gains of one tick commute**, whichever puts it in use. -/
theorem gain_comm (hn : 0 < n) (hl : 0 < l) (bound bound' : Bound) :
    (k.gain current globals bound n).gain current globals bound' l =
      (k.gain current globals bound' l).gain current globals bound n := by
  have hfirst := outsideInUse_gain (k := k) hn current globals bound
  have hsecond := outsideInUse_gain (k := k) hl current globals bound'
  simp only [gain] at hfirst hsecond ⊢
  rw [hfirst, hsecond, Nat.add_right_comm, Int.add_right_comm]

theorem gainAt_comm (hn : 0 < n) (hl : 0 < l) (bound bound' : Option Bound) :
    (k.gainAt current globals n bound).gainAt current globals l bound' =
      (k.gainAt current globals l bound').gainAt current globals n bound := by
  cases bound with
  | none => rfl
  | some bound =>
      cases bound' with
      | none => rfl
      | some bound' => exact gain_comm hn hl bound bound'

/-- A boundary tick that changed by a positive amount gained it. -/
theorem Changed.eq_gain (h : Changed k u k' bound n) (hn : 0 < n)
    (houtside : u.outside = k.outsideInUse current globals) : k' = k.gain current globals bound n := by
  have hgross : k'.gross = k.gross + n := by exact_mod_cast h.gross
  have hused : k'.gross ≠ 0 := by omega
  have hindex := h.index
  have hnet := h.net hused
  have hgrowth : k'.outside = k.outsideInUse current globals := h.kept hused ▸ houtside
  cases k'
  simp only at hindex hgross hnet hgrowth
  subst hindex hgross hnet hgrowth
  rfl

end Tick

/-! ### One deposit -/

namespace Changed

variable {m m' : Market} {p p' : Position} {n : Nat} {amounts : Pair Nat}
  {lowerMade lower upperMade upper : Tick}

/-- **What a deposit does to the ticks**: those that the position ends at gain the liquidity. -/
theorem lookup_gain (h : Changed m m' p p' n amounts lowerMade lower upperMade upper) (hn : 0 < n)
    (t : Int) : TickTable.lookup m'.arrays t =
      (TickTable.lookup m.arrays t).gainAt m.pool.tick m.pool.growth n (p.boundAt t) := by
  have hne : (n : Int) ≠ 0 := by omega
  simp only [Position.boundAt]
  by_cases hl : t = p.lower
  · subst hl
    rw [h.lookup_lower, if_pos rfl]
    exact h.lowerChanged.eq_gain hn (h.lowerOutside hne)
  · rw [if_neg hl]
    by_cases hu : t = p.upper
    · subst hu
      rw [h.lookup_upper, if_pos rfl]
      exact h.upperChanged.eq_gain hn (h.upperOutside hne)
    · rw [if_neg hu]
      exact h.lookup_other hl hu

/-- What a deposit makes of a position and takes for it depends on the price, the growth and how much
growth was outside the two ends of the range: a market that agrees in these makes the same and takes the
same. -/
theorem alike {m₁ m₁' : Market} {p₁' : Position} {amounts₁ : Pair Nat}
    {lowerMade₁ lower₁ upperMade₁ upper₁ : Tick} (hn : 0 < n)
    (h : Changed m m' p p' n amounts lowerMade lower upperMade upper)
    (h₁ : Changed m₁ m₁' p p₁' n amounts₁ lowerMade₁ lower₁ upperMade₁ upper₁)
    (hprice : m₁.pool.sqrtPrice = m.pool.sqrtPrice) (htick : m₁.pool.tick = m.pool.tick)
    (hgrowth : m₁.pool.growth = m.pool.growth)
    (houtside : ∀ t, (TickTable.lookup m₁.arrays t).outsideInUse m.pool.tick m.pool.growth =
      (TickTable.lookup m.arrays t).outsideInUse m.pool.tick m.pool.growth) :
    p₁' = p' ∧ amounts₁ = amounts := by
  have hne : (n : Int) ≠ 0 := by omega
  have hinside : Tick.growthInside lowerMade₁ upperMade₁ m.pool.tick m.pool.growth =
      Tick.growthInside lowerMade upperMade m.pool.tick m.pool.growth := by
    apply growthInside_congr
    · rw [h₁.lowerChanged.index_made, h.lowerChanged.index_made, index_lookup, index_lookup]
    · rw [h₁.upperChanged.index_made, h.upperChanged.index_made, index_lookup, index_lookup]
    · rw [h₁.lowerOutside hne, h.lowerOutside hne, htick, hgrowth, houtside]
    · rw [h₁.upperOutside hne, h.upperOutside hne, htick, hgrowth, houtside]
  constructor
  · obtain ⟨settled, hsettle, held, hheld, rfl⟩ := h.position
    obtain ⟨settled₁, hsettle₁, held₁, hheld₁, rfl⟩ := h₁.position
    rw [htick, hgrowth, hinside, hsettle] at hsettle₁
    obtain rfl := Except.ok.inj hsettle₁
    have hsame : held₁ = held := by omega
    rw [hsame]
  · have hamounts := h₁.amounts
    rw [hprice, htick, h.amounts] at hamounts
    exact (Except.ok.inj hamounts).symm

end Changed

/-! ### Two deposits -/

namespace Changed

variable {m m₁ m₂ m₁₂ m₂₁ : Market} {p p' p₁ q q' q₁ : Position} {positions positions' : List Position}
  {n k : Nat} {amounts amounts₁ taken taken₁ : Pair Nat} {l₁ l₁' u₁ u₁' l₂ l₂' u₂ u₂' l₃ l₃' u₃ u₃' : Tick}
  {l₄ l₄' u₄ u₄' : Tick}

/-- **A deposit after another one** makes of its position and takes for it what it would have without. -/
theorem alike_after (hn : 0 < n) (hk : 0 < k) (hp : Changed m m₁ p p' n amounts l₁ l₁' u₁ u₁')
    (hq : Changed m m₂ q q' k taken l₂ l₂' u₂ u₂')
    (hpq : Changed { m₁ with positions } m₁₂ q q₁ k taken₁ l₃ l₃' u₃ u₃') :
    q₁ = q' ∧ taken₁ = taken := by
  obtain ⟨hprice, htick, hgrowth⟩ := hp.scene_eq
  refine hq.alike hk hpq hprice htick hgrowth fun t => ?_
  change (TickTable.lookup m₁.arrays t).outsideInUse _ _ = _
  rw [hp.lookup_gain hn, Tick.outsideInUse_gainAt hn]

/-- The liquidity in range after two deposits is a sum that does not know their order. -/
theorem liquidity_after (hp : Changed m m₁ p p' n amounts l₁ l₁' u₁ u₁')
    (hpq : Changed { m₁ with positions } m₁₂ q q' k taken l₂ l₂' u₂ u₂') :
    (m₁₂.pool.liquidity : Int) = m.pool.liquidity + (if p.Covers m.pool.tick then (n : Int) else 0) +
      if q.Covers m.pool.tick then (k : Int) else 0 := by
  have hfirst := hp.liquidity
  have hsecond := hpq.liquidity
  obtain ⟨-, htick, -⟩ := hp.scene_eq
  change m₁.pool.tick = m.pool.tick at htick
  change (m₁₂.pool.liquidity : Int) = m₁.pool.liquidity +
    if q.Covers m₁.pool.tick then (k : Int) else 0 at hsecond
  rw [htick, hfirst] at hsecond
  exact hsecond

/-- **Deposits in either order lead to the same market**, apart from the positions. -/
theorem comm (hm : m.Orderly) (hn : 0 < n) (hk : 0 < k)
    (hp : Changed m m₁ p p' n amounts l₁ l₁' u₁ u₁')
    (hpq : Changed { m₁ with positions } m₁₂ q q₁ k taken₁ l₂ l₂' u₂ u₂')
    (hq : Changed m m₂ q q' k taken l₃ l₃' u₃ u₃')
    (hqp : Changed { m₂ with positions := positions' } m₂₁ p p₁ n amounts₁ l₄ l₄' u₄ u₄')
    (after : List Position) : { m₁₂ with positions := after } = { m₂₁ with positions := after } := by
  have hafter := hpq.orderly (hp.orderly hm positions) after
  have hafter' := hqp.orderly (hq.orderly hm positions') after
  have hlookup : TickTable.lookup m₁₂.arrays = TickTable.lookup m₂₁.arrays := by
    obtain ⟨-, htick, hgrowth⟩ := hp.scene_eq
    obtain ⟨-, htick', hgrowth'⟩ := hq.scene_eq
    funext t
    rw [hpq.lookup_gain hk, hqp.lookup_gain hn]
    change (TickTable.lookup m₁.arrays t).gainAt m₁.scene.tick m₁.scene.growth k (q.boundAt t) =
      (TickTable.lookup m₂.arrays t).gainAt m₂.scene.tick m₂.scene.growth n (p.boundAt t)
    rw [htick, hgrowth, htick', hgrowth', hp.lookup_gain hn, hq.lookup_gain hk]
    exact Tick.gainAt_comm hn hk _ _
  have hliquidity : m₁₂.pool.liquidity = m₂₁.pool.liquidity := by
    have hpath := liquidity_after hp hpq
    have hpath' := liquidity_after hq hqp
    omega
  have hpool : m₁₂.pool = { m₂₁.pool with bitmap := m₁₂.pool.bitmap } := by
    have hpath := hpq.pool
    have hpath' := hqp.pool
    change m₁₂.pool = { m₁.pool with
      liquidity := m₁₂.pool.liquidity, bitmap := m₁₂.pool.bitmap } at hpath
    change m₂₁.pool = { m₂.pool with
      liquidity := m₂₁.pool.liquidity, bitmap := m₂₁.pool.bitmap } at hpath'
    rw [hp.pool] at hpath
    rw [hq.pool] at hpath'
    rw [hpath, hpath', hliquidity]
  have hlabels : m₁₂.arrays.map (·.label) = m₂₁.arrays.map (·.label) :=
    (hpq.labels.trans hp.labels).trans (hqp.labels.trans hq.labels).symm
  have hextension : m₁₂.extension.pool = m₂₁.extension.pool :=
    (hpq.extension.trans hp.extension).trans (hqp.extension.trans hq.extension).symm
  refine hafter'.eq_of_lookup_eq hafter hlookup hlabels hpool hextension ?_
  rw [hpq.rest, hp.rest, hqp.rest, hq.rest]

end Changed

namespace Market

variable {m : Market} {i : Nat} {d : Deposit} {derived : Bool} {s : Supply}

/-- The liquidity that a deposit adds. -/
theorem derive_of_increase {m' : Market} {n : Nat} {change : LiquidityChange}
    (h : m.increase i d derived s = .ok (m', n, change)) :
    if derived then m.derive i d = .ok n else n = d.liquidity := by
  simp only [increase] at h
  obtain ⟨p, b, hi, hu, rfl⟩ := runAt_eq_ok h
  have hderive : m.derive i d = depositLiquidity m.pool p d.liquidity d.maxima d.only := by
    simp only [derive, position]
    rw [hi]
    rfl
  rw [hderive]
  exact (deposit_eq_ok hu).1

/-- A derivation reads the price and the position. -/
theorem derive_congr {m' : Market} (hprice : m'.pool.sqrtPrice = m.pool.sqrtPrice)
    (hi : m'.positions[i]? = m.positions[i]?) : m'.derive i d = m.derive i d := by
  simp only [derive, position, depositLiquidity]
  rw [hprice, hi]

/-- The liquidity of a deposit is the same in markets with the same price. -/
theorem liquidity_of_increase {m' m₁ m₁' : Market} {n n₁ : Nat} {change change₁ : LiquidityChange}
    {s₁ : Supply} (h : m.increase i d derived s = .ok (m', n, change))
    (h₁ : m₁.increase i d derived s₁ = .ok (m₁', n₁, change₁))
    (hprice : m₁.pool.sqrtPrice = m.pool.sqrtPrice) (hi : m₁.positions[i]? = m.positions[i]?) :
    n₁ = n := by
  have hn := derive_of_increase h
  have hn₁ := derive_of_increase h₁
  cases derived with
  | true =>
      rw [if_pos rfl] at hn hn₁
      rw [derive_congr hprice hi, hn] at hn₁
      exact (Except.ok.inj hn₁).symm
  | false => exact hn₁.trans hn.symm

/-- **Deposits commute.** In every market that a run leads to: if a deposit into one position and then one
into another position succeed, and they also succeed the other way round, then both orders add the same
liquidities for the same amounts and lead to the same market, with its pool, its bitmap, its extension, all
its tick arrays and positions. The ranges may share ticks, arrays and bits or not, and the liquidities may
be given or derived. -/
theorem deposits_commute (h : Attained m) {j : Nat} (hne : i ≠ j) {e : Deposit} {derived' : Bool}
    {t : Supply} {m₁ m₁₂ m₂ m₂₁ : Market} {n n' k k' : Nat} {paid paid' taken taken' : LiquidityChange}
    (h₁ : m.increase i d derived s = .ok (m₁, n, paid))
    (h₁₂ : m₁.increase j e derived' t = .ok (m₁₂, k, taken))
    (h₂ : m.increase j e derived' t = .ok (m₂, k', taken'))
    (h₂₁ : m₂.increase i d derived s = .ok (m₂₁, n', paid')) :
    m₁₂ = m₂₁ ∧ (n = n' ∧ paid.amounts = paid'.amounts) ∧ k = k' ∧ taken.amounts = taken'.amounts := by
  have hm := h.orderly
  obtain ⟨p, p', mp, _, _, _, _, hi, hn, hp, rfl⟩ := increase_eq_ok hm h₁
  obtain ⟨q, q', mq, _, _, _, _, hj, hk, hq, rfl⟩ := increase_eq_ok hm h₂
  -- neither deposit touches the other position or the price, so the liquidities stay
  have hj' : (m.positions.set i p')[j]? = m.positions[j]? := List.getElem?_set_ne hne
  have hi' : (m.positions.set j q')[i]? = m.positions[i]? := List.getElem?_set_ne hne.symm
  obtain rfl := liquidity_of_increase h₂ h₁₂ hp.scene_eq.1 hj'
  obtain rfl := liquidity_of_increase h₁ h₂₁ hq.scene_eq.1 hi'
  obtain ⟨_, q₁, mpq, _, _, _, _, hsame, -, hpq, rfl⟩ := increase_eq_ok (hp.orderly hm _) h₁₂
  obtain rfl := Option.some.inj (hsame.symm.trans (hj'.trans hj))
  obtain ⟨_, p₁, mqp, _, _, _, _, hsame, -, hqp, rfl⟩ := increase_eq_ok (hq.orderly hm _) h₂₁
  obtain rfl := Option.some.inj (hsame.symm.trans (hi'.trans hi))
  -- each position comes out of its deposit as it would without the other one
  obtain ⟨rfl, htaken⟩ := Changed.alike_after hn hk hp hq hpq
  obtain ⟨rfl, hpaid⟩ := Changed.alike_after hk hn hq hp hqp
  refine ⟨?_, ⟨rfl, hpaid.symm⟩, rfl, htaken⟩
  change { mpq with positions := (m.positions.set i p₁).set j q₁ } =
    { mqp with positions := (m.positions.set j q₁).set i p₁ }
  rw [List.set_comm _ _ hne]
  exact Changed.comm hm hn hk hp hpq hq hqp _

/-- After a swap, two positions that meet at a tick of an unused array. -/
def meeting : List Operation :=
  openings ++ [.swap ⟨1000, 1, 0, .exactIn, .down⟩ 0 ⟨[0, -600], true⟩, .setUpArray (-1200) 0,
    .setUpPosition (-700) (-610), .setUpPosition (-610) 10]

/-- Whichever position is paid into first puts the tick where they meet in use, with all growth so far, and
marks the array. -/
theorem deposits_commute_meeting : ∃ m total m₁ m₁₂ m₂ m₂₁ n n' k k' paid paid' taken taken',
    sample 10 5 meeting = .ok (m, total) ∧
    m.increase 2 ⟨0, ⟨1000, 1000⟩, none⟩ true ⟨[-1200], true⟩ = .ok (m₁, n, paid) ∧
    m₁.increase 3 ⟨300000, ⟨1000, 9000⟩, none⟩ false ⟨[-1200, 0], true⟩ = .ok (m₁₂, k, taken) ∧
    m.increase 3 ⟨300000, ⟨1000, 9000⟩, none⟩ false ⟨[-1200, 0], true⟩ = .ok (m₂, k', taken') ∧
    m₂.increase 2 ⟨0, ⟨1000, 1000⟩, none⟩ true ⟨[-1200], true⟩ = .ok (m₂₁, n', paid') ∧
    (paid.amounts = ⟨0, 1000⟩ ∧ taken.amounts = ⟨337, 8825⟩) ∧
    m₁₂ = m₂₁ ∧ (n = n' ∧ paid.amounts = paid'.amounts) ∧ k = k' ∧ taken.amounts = taken'.amounts := by
  obtain ⟨m, total, hsample, hrun⟩ := exists_of_sample (P := fun x =>
      (x.1.increase 2 ⟨0, ⟨1000, 1000⟩, none⟩ true ⟨[-1200], true⟩).toOption.any
          (fun (y : Market × Nat × LiquidityChange) =>
        (y.1.increase 3 ⟨300000, ⟨1000, 9000⟩, none⟩ false ⟨[-1200, 0], true⟩).toOption.any
          fun (z : Market × Nat × LiquidityChange) =>
            decide (y.2.2.amounts = ⟨0, 1000⟩ ∧ z.2.2.amounts = ⟨337, 8825⟩)) &&
      (x.1.increase 3 ⟨300000, ⟨1000, 9000⟩, none⟩ false ⟨[-1200, 0], true⟩).toOption.any
          (fun (y : Market × Nat × LiquidityChange) =>
        (y.1.increase 2 ⟨0, ⟨1000, 1000⟩, none⟩ true ⟨[-1200], true⟩).toOption.isSome))
    (show (sample 10 5 meeting).toOption.any _ = true by decide +kernel)
  obtain ⟨hthere, hback⟩ := Bool.and_eq_true_iff.1 hrun
  obtain ⟨⟨m₁, n, paid⟩, h₁, hthere⟩ := exists_ok_of_any hthere
  obtain ⟨⟨m₁₂, k, taken⟩, h₁₂, hamounts⟩ := exists_ok_of_any hthere
  obtain ⟨⟨m₂, k', taken'⟩, h₂, hback⟩ := exists_ok_of_any hback
  obtain ⟨⟨m₂₁, n', paid'⟩, h₂₁, -⟩ := exists_ok_of_any (P := fun _ => true) (by simpa using hback)
  exact ⟨m, total, m₁, m₁₂, m₂, m₂₁, n, n', k, k', paid, paid', taken, taken', hsample, h₁, h₁₂, h₂, h₂₁,
    of_decide_eq_true hamounts,
    deposits_commute (reached_of_sample hsample).attained (by decide) h₁ h₁₂ h₂ h₂₁⟩

end Market

end Clmm
