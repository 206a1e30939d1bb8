import Clmm.Proofs.Reachable

/-!
# Clmm.Proofs.LiquidityLedger

**The ledger of liquidity** (`liquidity_ledger`). In every market that a run leads to, each tick
records the liquidity that begins and ends there, and the pool's liquidity is that of the positions
whose range covers the current tick, which is also what the nets of all ticks in use up to the current
one add up to.
-/

namespace Clmm

open TickTable

/-- The nets of the ticks in use up to tick `t`, added up. -/
def TickTable.netUpTo (arrays : List TickArray) (t : Int) : Int :=
  (((ticks arrays).filter fun k => k.isInitialized && k.index ≤ t).map (·.net)).sum

/-- What the ticks record up to tick `t` is the liquidity of the positions that cover it. -/
theorem netUpTo_eq_liquidityAt {arrays : List TickArray} {spacing : Nat} {positions : List Position}
    (hl : Laid arrays spacing) (hr : Ranged positions)
    (hgross : ∀ t, (lookup arrays t).gross = grossAt positions t)
    (hnet : ∀ t, (lookup arrays t).net = netAt positions t) (t : Int) :
    netUpTo arrays t = liquidityAt positions t := by
  -- the ticks in use have different indices
  have hnodup : (((ticks arrays).filter (·.isInitialized)).map (·.index)).Nodup := by
    apply List.Nodup.sublist (List.filter_sublist.map _)
    exact List.pairwise_map.2 ((pairwise_index hl).imp fun h => Int.ne_of_lt h)
  -- a bound of a position with liquidity is a tick in use
  have hused : ∀ u, grossAt positions u ≠ 0 →
      u ∈ ((ticks arrays).filter (·.isInitialized)).map (·.index) := by
    intro u hu
    rw [← hgross] at hu
    have hinit : (lookup arrays u).isInitialized = true := decide_eq_true hu
    exact List.mem_map.2
      ⟨_, List.mem_filter.2 ⟨lookup_mem_of_isInitialized hinit, hinit⟩, index_lookup⟩
  have hbounds : ∀ p ∈ positions, p.liquidity ≠ 0 →
      p.lower ∈ ((ticks arrays).filter (·.isInitialized)).map (·.index) ∧
        p.upper ∈ ((ticks arrays).filter (·.isInitialized)).map (·.index) := by
    intro p hp hne
    constructor
    · exact hused _ fun hzero => hne (liquidity_eq_zero_of_grossAt hzero hp (Or.inl rfl))
    · exact hused _ fun hzero => hne (liquidity_eq_zero_of_grossAt hzero hp (Or.inr rfl))
  rw [← sum_netAt hnodup hr hbounds t]
  simp only [netUpTo]
  rw [List.filter_map, List.filter_filter, List.map_map]
  -- filtering by use and by index can be done in either order
  have hfilter : (ticks arrays).filter (fun k => k.isInitialized && decide (k.index ≤ t)) =
      (ticks arrays).filter fun k =>
        ((fun u : Int => decide (u ≤ t)) ∘ fun k : Tick => k.index) k && k.isInitialized := by
    apply List.filter_congr
    intro k _
    exact Bool.and_comm _ _
  rw [hfilter]
  congr 1
  apply List.map_congr_left
  intro k hk
  change k.net = netAt positions k.index
  rw [← hnet, lookup_of_mem hl (List.mem_filter.1 hk).1]

namespace Market

/-- **The ledger of liquidity.** Whatever deposits, withdrawals and swaps led to the market, every tick
records what the positions contribute to it, and the pool holds the liquidity in range. -/
theorem liquidity_ledger {m : Market} {total : Payment} (h : Reached m total) :
    (∀ t, (m.tickState t).gross = grossAt m.positions t ∧
      (m.tickState t).net = netAt m.positions t) ∧
    m.pool.liquidity = liquidityAt m.positions m.pool.tick ∧
    (m.pool.liquidity : Int) = netUpTo m.arrays m.pool.tick := by
  have hm := h.wellFormed
  refine ⟨fun t => ⟨hm.gross t, hm.net t⟩, hm.liquidity, ?_⟩
  rw [netUpTo_eq_liquidityAt hm.laid hm.ranged hm.gross hm.net]
  exact congrArg _ hm.liquidity

theorem liquidity_ledger_openings : ∃ m total,
    sample 10 5 (openings ++ [.swap ⟨900, 0, 0, .exactIn, .down⟩ 0 ⟨[0, -600], true⟩]) =
      .ok (m, total) ∧
    m.pool.tick < 0 ∧
    (∀ t, (m.tickState t).gross = grossAt m.positions t ∧
      (m.tickState t).net = netAt m.positions t) ∧
    m.pool.liquidity = liquidityAt m.positions m.pool.tick ∧
    (m.pool.liquidity : Int) = netUpTo m.arrays m.pool.tick := by
  obtain ⟨m, total, hsample, htick⟩ := exists_of_sample (P := fun x => decide (x.1.pool.tick < 0))
    (show (sample 10 5 (openings ++ [.swap ⟨900, 0, 0, .exactIn, .down⟩ 0 ⟨[0, -600], true⟩])
      ).toOption.any _ = true by decide +kernel)
  exact ⟨m, total, hsample, of_decide_eq_true htick, liquidity_ledger (reached_of_sample hsample)⟩

end Market

end Clmm
