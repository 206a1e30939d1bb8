import Clmm.Proofs.LiquidityLedger

/-!
# Clmm.Proofs.BlindSwap

**When a swap without the bitmap extension leaves the right liquidity**
(`blind_swap_liquidity_iff`). It does, except when it ends on the tick at which the native span ends
and that tick changes the liquidity. The array of this tick is hidden from the swap, which arrives at
the tick without crossing it. Only an upward swap can: the ticks of the native span include its lower
end but not its upper one, and a swap arrives below a tick when it goes down but on it when it goes up.

The exception is real (`not_every_blind_swap_is_exact`).
-/

namespace Clmm

open TickTable

namespace Swap

variable {m : Market} {s : Supply} {r : SwapRequest} {b' : SwapBook} {result : SwapResult} {c : Course}
  {cursor : Option Cursor} {w : Walk}

/-- The ticks after a swap record the liquidity of the positions as those before it did. -/
theorem Swapped.netUpTo (hm : m.WellFormed)
    (h : Swapped m.config (m.supplied s) r ⟨m.pool, m.pick s.starts⟩ b' result c cursor w)
    (hfits : ∀ x ∈ w.crossings, x.Fits c m.arrays (m.pick s.starts)) (t : Int) :
    netUpTo (Market.putBack m.arrays b'.arrays) t = liquidityAt m.positions t := by
  obtain ⟨hsame, -⟩ := h.written hm.orderly hfits
  exact netUpTo_eq_liquidityAt hsame.laid hm.ranged (fun t => (hsame.gross t).trans (hm.gross t))
    (fun t => (hsame.net t).trans (hm.net t)) t

/-- A walk without sight that did not get stuck has not come to a tick in use at the end of the native
span. -/
theorem Swapped.net_nativeEnd (hm : m.WellFormed) (hblind : s.extension = false)
    (h : Swapped m.config (m.supplied s) r ⟨m.pool, m.pick s.starts⟩ b' result c cursor w)
    (hw : Walking m c (m.pick s.starts) w) (hend : w.tick = Bitmap.nativeEnd m.pool.spacing) :
    netAt m.positions w.tick = 0 := by
  by_contra hne
  have hu : m.InUse w.tick := fun hzero => hne (netAt_eq_zero hzero)
  obtain ⟨-, hbegins⟩ := (h.begins hm).resolve_left (by rw [hblind]; exact Bool.false_ne_true)
  -- the tick would have been crossed on the way, but it is hidden
  have hshown : w.tick ∉ w.crossed := by
    intro hmem
    obtain ⟨a, ha, huses, hmarks⟩ := hw.shown _ hmem
    obtain ⟨edges, -, rfl⟩ := course_eq_ok h.course_eq
    rw [marks_bitmapView hm ha huses, hblind] at hmarks
    have := (hmarks.resolve_left Bool.false_ne_true).2
    omega
  have hpassed := mt (hw.crossed w.tick).2 hshown
  cases hd : c.direction with
  | down =>
      rw [← hend] at hbegins
      have hnot := hw.onward w.tick hu (by rw [hd]; exact Int.le_refl _)
      rw [hd] at hnot
      exact absurd hnot (Int.not_le.2 hbegins)
  | up =>
      apply hpassed
      rw [hd, hend]
      exact ⟨hend ▸ hu, hbegins, Int.lt_irrefl _⟩

end Swap

namespace Market

/-- **A swap without the bitmap extension** leaves the pool with the liquidity that all ticks up to the
new one add up to, those of hidden arrays included, unless it ends on the tick at which the native span
ends and that tick changes the liquidity. -/
theorem blind_swap_liquidity_iff {m : Market} {total : Payment} (h : Reached m total)
    {r : SwapRequest} {time : Nat} {starts : List Int} {result : SwapResult} {b' : SwapBook}
    (hamount : r.amount < 2 ^ 64)
    (hswap : Clmm.swap m.config none r time ⟨m.pool, m.pick starts⟩ = .ok result b') :
    (b'.pool.liquidity : Int) = netUpTo (putBack m.arrays b'.arrays) b'.pool.tick ↔
      ¬ (b'.pool.tick = Bitmap.nativeEnd m.pool.spacing ∧ (m.tickState b'.pool.tick).net ≠ 0) := by
  have hm := h.wellFormed
  obtain ⟨c, cursor, w, hswapped⟩ := Swap.swap_eq_ok
    (show Clmm.swap m.config (m.supplied ⟨starts, false⟩) r time ⟨m.pool, m.pick starts⟩ = _
      from hswap)
  have htick : b'.pool.tick = w.tick := by rw [hswapped.pool]
  have hliquidity : b'.pool.liquidity = w.liquidity := by rw [hswapped.pool]
  have hnet : (m.tickState w.tick).net = netAt m.positions w.tick := hm.net w.tick
  rw [htick, hliquidity, hnet]
  rcases hswapped.walking_or_stuck hm hamount with hw | hstuck
  · rw [hswapped.netUpTo hm hw.fits]
    constructor
    · intro _ hends
      obtain ⟨hend, hne⟩ := hends
      exact hne (hswapped.net_nativeEnd hm rfl hw hend)
    · intro _
      exact congrArg _ hw.liquidity
  · obtain ⟨-, -, hend⟩ := hswapped.stuck hm hstuck
    have hstep := liquidityAt_sub_one hm.ranged w.tick
    rw [hswapped.netUpTo hm hstuck.fits, hstuck.liquidity]
    constructor
    · intro heq hends
      obtain ⟨-, hne⟩ := hends
      omega
    · intro hnot
      have hzero : netAt m.positions w.tick = 0 := not_not.1 fun hne => hnot ⟨hend, hne⟩
      omega

/-- A pool twenty ticks below the end of its native span. One position ends before, one begins at the
end. -/
def edgeRun : List Operation :=
  [.setUpArray 30660 0, .setUpArray 30720 0,
   .openPosition 30690 30710 ⟨1000000, ⟨1000000, 1000000⟩, none⟩ false ⟨[30660], false⟩,
   .openPosition 30720 30730 ⟨1000000, ⟨1000000, 1000000⟩, none⟩ false ⟨[30720], true⟩]

/-- Everything up to the price at which the native span ends. -/
def edgeRequest : SwapRequest := ⟨1000000000, 0, 85696423081732435090, .exactIn, .up⟩

/-- The swap ends with no liquidity at a tick where there is some. -/
theorem edge_swap : ∃ m total result b', sample 1 30700 edgeRun = .ok (m, total) ∧
    Clmm.swap m.config none edgeRequest 0 ⟨m.pool, m.pick [30660]⟩ = .ok result b' ∧
    b'.pool.tick = Bitmap.nativeEnd m.pool.spacing ∧ b'.pool.liquidity = 0 ∧
    netUpTo (putBack m.arrays b'.arrays) b'.pool.tick = 1000000 := by
  obtain ⟨m, total, hsample, hrun⟩ := exists_of_sample (P := fun x =>
      succeedsWith (fun (_ : SwapResult) (b' : SwapBook) =>
          decide (b'.pool.tick = Bitmap.nativeEnd x.1.pool.spacing ∧ b'.pool.liquidity = 0 ∧
            netUpTo (putBack x.1.arrays b'.arrays) b'.pool.tick = 1000000))
        (Clmm.swap x.1.config none edgeRequest 0 ⟨x.1.pool, x.1.pick [30660]⟩))
    (show (sample 1 30700 edgeRun).toOption.any _ = true by decide +kernel)
  obtain ⟨result, b', hswap, hends⟩ := exists_of_succeedsWith hrun
  exact ⟨m, total, result, b', hsample, hswap, of_decide_eq_true hends⟩

theorem blind_swap_liquidity_iff_edge : ∃ m total result b',
    sample 1 30700 edgeRun = .ok (m, total) ∧
    Clmm.swap m.config none edgeRequest 0 ⟨m.pool, m.pick [30660]⟩ = .ok result b' ∧
    ((b'.pool.liquidity : Int) = netUpTo (putBack m.arrays b'.arrays) b'.pool.tick ↔
      ¬ (b'.pool.tick = Bitmap.nativeEnd m.pool.spacing ∧
        (m.tickState b'.pool.tick).net ≠ 0)) := by
  obtain ⟨m, total, result, b', hsample, hswap, -⟩ := edge_swap
  exact ⟨m, total, result, b', hsample, hswap,
    blind_swap_liquidity_iff (reached_of_sample hsample) (by decide) hswap⟩

/-- Not every swap without the extension leaves the right liquidity. -/
theorem not_every_blind_swap_is_exact : ¬ ∀ (m : Market) (total : Payment), Reached m total →
    ∀ (r : SwapRequest) (time : Nat) (starts : List Int) (result : SwapResult) (b' : SwapBook),
      r.amount < 2 ^ 64 →
      Clmm.swap m.config none r time ⟨m.pool, m.pick starts⟩ = .ok result b' →
      (b'.pool.liquidity : Int) = netUpTo (putBack m.arrays b'.arrays) b'.pool.tick := by
  intro hall
  obtain ⟨m, total, result, b', hsample, hswap, -, hliquidity, hnet⟩ := edge_swap
  have hreached := reached_of_sample hsample
  have heq := hall m total hreached edgeRequest 0 [30660] result b' (by decide) hswap
  rw [hliquidity, hnet] at heq
  exact absurd heq (by decide)

end Market

end Clmm
