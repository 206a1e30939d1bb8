import Clmm.Proofs.Reachable

/-!
# Clmm.Proofs.Tally

**Every tick records the liquidity that refers to it**, in every market that a run leads to
(`Attained.tallied`). A swap that overlooks a tick does not disturb this, for it moves growth only. Nor does
any run make a net too wide: a net is written together with a check of its width.
-/

namespace Clmm.Market

open TickTable

variable {m m₁ m' : Market} {paid : Payment} {p p' q : Position} {i n : Nat} {s : Supply}

/-- Every tick records the liquidity that refers to it, and its net keeps its width. -/
structure Tallied (m : Market) : Prop where
  gross : ∀ t, (lookup m.arrays t).gross = grossAt m.positions t
  net : ∀ t, -2 ^ 127 ≤ (lookup m.arrays t).net ∧ (lookup m.arrays t).net < 2 ^ 127

theorem Tallied.congr (ht : m.Tallied) (hlookup : lookup m'.arrays = lookup m.arrays)
    (hpositions : m'.positions = m.positions) : m'.Tallied := by
  refine ⟨fun t => ?_, fun t => ?_⟩
  · rw [hlookup, hpositions]
    exact ht.gross t
  · rw [hlookup]
    exact ht.net t

theorem Tallied.setUpPosition (ht : m.Tallied) (lower upper : Int) :
    (m.setUpPosition lower upper).Tallied :=
  ⟨fun t => (ht.gross t).trans (grossAt_append_empty rfl).symm, ht.net⟩

theorem Tallied.change (ht : m.Tallied) {delta : Int} {amounts : Pair Nat}
    {lowerMade lower upperMade upper : Tick}
    (hc : Changed m m₁ p p' delta amounts lowerMade lower upperMade upper)
    (hi : m.positions[i]? = some p) (hlower : q.lower = p.lower) (hupper : q.upper = p.upper)
    (hliquidity : (q.liquidity : Int) = p.liquidity + delta) :
    ({ m₁ with positions := m.positions.set i q } : Market).Tallied := by
  refine ⟨hc.gross ht.gross hi hlower hupper hliquidity, fun t => ?_⟩
  change -2 ^ 127 ≤ (lookup m₁.arrays t).net ∧ (lookup m₁.arrays t).net < 2 ^ 127
  rcases hc.lookup_cases t with hkept | ⟨made, bound, hchanged⟩
  · rw [hkept]
    exact ht.net t
  · rcases hchanged.fits with hkept | hfits
    · rw [hkept]
      exact ht.net t
    · exact hfits

theorem Tallied.increase (ht : m.Tallied) (hm : m.Orderly) {d : Deposit} {derived : Bool}
    {change : LiquidityChange} (h : m.increase i d derived s = .ok (m', n, change)) : m'.Tallied := by
  obtain ⟨p, p', m₁, _, _, _, _, hi, -, hc, rfl⟩ := increase_eq_ok hm h
  obtain ⟨hlower, hupper, hliquidity⟩ := hc.bounds
  exact ht.change hc hi hlower hupper hliquidity

theorem Tallied.decrease (ht : m.Tallied) (hm : m.Orderly) {liquidity : Nat} {minima : Pair Nat}
    {change : LiquidityChange} (h : m.decrease i liquidity minima s = .ok (m', change)) :
    m'.Tallied := by
  obtain ⟨p, p', m₁, _, _, _, _, hi, hc, -, rfl⟩ := decrease_eq_ok hm h
  obtain ⟨hlower, hupper, hliquidity⟩ := hc.bounds
  exact ht.change hc hi hlower hupper hliquidity

/-- A swap moves growth only. -/
theorem Tallied.swap (ht : m.Tallied) (hm : m.Orderly) {r : SwapRequest} {time : Nat}
    {result : SwapResult} (hamount : r.amount < 2 ^ 64)
    (h : m.swap r time s = .ok (m', result)) : m'.Tallied := by
  obtain ⟨c, cursor, w, b', hswapped, -, hm'⟩ := swap_eq_ok h
  obtain ⟨hsame, -⟩ := hswapped.written hm (hswapped.afoot hm hamount).fits
  have harrays : m'.arrays = putBack m.arrays b'.arrays := by rw [hm']
  have hpositions : m'.positions = m.positions := by rw [hm']
  refine ⟨fun t => ?_, fun t => ?_⟩
  · rw [harrays, hsame.gross, hpositions]
    exact ht.gross t
  · rw [harrays, hsame.net]
    exact ht.net t

theorem Performs.tallied {op : Operation} (h : m.Performs op m' paid) (hm : m.Orderly)
    (hallows : m.Allows op) (ht : m.Tallied) : m'.Tallied := by
  cases h with
  | setUpArray h =>
      obtain ⟨a, ha, rfl⟩ := addArray_eq_ok h
      exact ht.congr (lookup_insertArray hm.laid ha hallows).2 rfl
  | setUpPosition => exact ht.setUpPosition _ _
  | openPosition h => exact (ht.setUpPosition _ _).increase (hm.setUpPosition _ _) h
  | increase h => exact ht.increase hm h
  | decrease h => exact ht.decrease hm h
  | swap h => exact ht.swap hm hallows h
  | takeProtocolFees => exact ht.congr rfl rfl
  | takeFundFees => exact ht.congr rfl rfl

theorem Attained.tallied (h : Attained m) : m.Tallied := by
  induction h with
  | created hconfig hcreate =>
      obtain ⟨_, -, rfl⟩ := create_eq_ok hcreate
      refine ⟨fun _ => rfl, fun _ => ?_⟩
      change -2 ^ 127 ≤ (0 : Int) ∧ (0 : Int) < 2 ^ 127
      decide
  | performed op hattained hallows hperform ih =>
      exact (performs_of_perform hperform).tallied hattained.orderly hallows ih

end Clmm.Market
