import Clmm.Proofs.Tally
import Clmm.Proofs.UndoneChange

/-!
# Clmm.Proofs.OpenThenClose

**Withdrawing at once what was just deposited succeeds and restores the market**
(`open_then_close_restores`): only the position remembers it, by the fees that it has settled. Of each token
the withdrawal returns the deposit or one unit less, since both round the same quotient, the one up and the
other down.

That the withdrawal succeeds is read off the deposit. The ticks and the pool have the liquidity that they
just got, their nets go back to what fitted before (`Tallied.net`), nothing has grown since the fees were
settled, and an array that turns back to unused is one that the deposit turned, so its bit is at hand
(`atHand_or_staysInUse`).
-/

namespace Clmm

open TickTable Outcome

/-! ### Settling fees once more -/

namespace Position

variable {p settled : Position} {inside : Pair Growth}

theorem accrued_eq_zero {liquidity : Nat} {inside last : Growth} (h : inside = last ∨ liquidity = 0) :
    accrued liquidity inside last = .ok 0 := by
  simp only [accrued]
  rw [if_pos (h.imp_left fun heq => heq ▸ sub_self _)]
  rfl

theorem pendingFees_eq_zero (h : inside = p.growthLast ∨ p.liquidity = 0) :
    p.pendingFees inside = .ok ⟨0, 0⟩ := by
  simp only [pendingFees]
  rw [accrued_eq_zero (h.imp_left (congrArg (·.zero))), ok_bind,
    accrued_eq_zero (h.imp_left (congrArg (·.one))), ok_bind]
  rfl

/-- Fees that were just settled are settled again without effect, whatever became of the liquidity. -/
theorem settle_settled (h : p.settle inside = .ok settled) (held : Nat) :
    ({ settled with liquidity := held } : Position).settle inside =
      .ok { settled with liquidity := held } := by
  simp only [settle] at h ⊢
  simp only [bind_eq_ok, narrow_eq_ok] at h
  obtain ⟨fees, -, _, ⟨hzero, rfl⟩, _, ⟨hone, rfl⟩, h⟩ := h
  obtain rfl := Except.ok.inj h
  rw [pendingFees_eq_zero (Or.inl rfl), ok_bind]
  simp only [bind_eq_ok, narrow_eq_ok]
  exact ⟨_, ⟨hzero, rfl⟩, _, ⟨hone, rfl⟩, rfl⟩

end Position

namespace Market

/-! ### What a deposit was given -/

variable {m m₁ : Market} {p p' : Position} {n : Nat} {s : Supply} {delta : Int}
  {limits amounts : Pair Nat} {b : Book}

theorem start_mem_of_mem_pick {starts : List Int} {a : TickArray} (h : a ∈ m.pick starts) :
    a.start ∈ starts := by
  obtain ⟨start, hstart, hfind⟩ := List.mem_filterMap.1 h
  have heq : a.start = start := by simpa using List.find?_some hfind
  exact heq ▸ hstart

/-- The arrays of both bounds were supplied. -/
theorem starts_of_modifyPosition (h : modifyPosition delta limits (m.book p s) = .ok amounts b) :
    TickArray.floorStart p.lower m.pool.spacing ∈ s.starts ∧
      TickArray.floorStart p.upper m.pool.spacing ∈ s.starts := by
  obtain ⟨plan, t, hmake, -⟩ := modifyPosition_eq_ok h
  obtain ⟨_, _, _, _, _, _, _, hp⟩ := make_eq_ok hmake
  exact ⟨hp.lower.start_eq ▸ start_mem_of_mem_pick hp.lower.mem,
    hp.upper.start_eq ▸ start_mem_of_mem_pick hp.upper.mem⟩

/-- An extension that was not supplied stays as it is. -/
theorem extension_of_hidden (h : modifyPosition delta limits (m.book p s) = .ok amounts b)
    (hhidden : s.extension = false) : (m.takeOver b).extension = m.extension := by
  obtain ⟨plan, t, -, hcommit, -, rfl⟩ := modifyPosition_eq_ok h
  have hpool := CountUpdate.pool_extension_of_commits hcommit
  have hnone : (m.book p s).extension = none := by
    change m.supplied s = none
    simp only [supplied]
    rw [hhidden]
    rfl
  rw [hnone, Option.map_none, Option.map_eq_none_iff] at hpool
  change t.extension.getD m.extension = m.extension
  rw [hpool]
  rfl

open Bitmap BitmapView in
/-- Where two bitmaps with one extension differ, the bit is a native one. -/
theorem atHand_of_marks {native native' : NativeBitmap} {e : BitmapExtension} {spacing : Nat} {start : Int}
    (hvalid : TickArray.isValidStart start spacing = true) (h : (whole native' e spacing).Marks start)
    (hnot : ¬ (whole native e spacing).Marks start) (extension : Option BitmapExtension) :
    AtHand start spacing extension := by
  obtain ⟨bit, -, hbit⟩ := exists_bitIndex hvalid
  obtain ⟨-, -, rfl⟩ := bitIndex_eq_ok hbit
  have hspacing := (TickArray.isValidStart_iff.1 hvalid).1
  have hholds := (marks_startAt (v := whole native' e spacing) hspacing).1 h
  have hclear := mt (marks_startAt (v := whole native e spacing) hspacing).2 hnot
  rw [holds_whole] at hholds hclear
  refine ⟨bit, hbit, Or.inl ?_⟩
  by_contra hoff
  simp only [isNative, Bool.and_eq_true, decide_eq_true_eq, not_and] at hoff
  by_cases hlow : bit < 64 * sideWords
  · rw [if_pos hlow] at hholds hclear
    exact hclear hholds
  · have hhigh : ¬ bit < 64 * positiveStart := hoff (Nat.not_lt.1 hlow)
    rw [if_neg hlow, if_neg hhigh] at hholds hclear
    exact hclear hholds

/-! ### Taking a deposit back -/

section Closing

variable {lowerMade lower upperMade upper : Tick}

theorem le_gross_of_deposit (hc : Changed m m₁ p p' n amounts lowerMade lower upperMade upper) {t : Int}
    (ht : p.lower = t ∨ p.upper = t) : n ≤ (lookup m₁.arrays t).gross := by
  have hgross := hc.gross_eq t
  rw [if_pos ht] at hgross
  omega

/-- An array that a deposit put in use has its bit at hand. Any other keeps a tick in use when the deposit
is taken back. -/
theorem atHand_or_staysInUse (hm : m.Orderly) (hpos : 0 < n)
    (hc : Changed m m₁ p p' n amounts lowerMade lower upperMade upper)
    (hhidden : s.extension = false → m₁.extension = m.extension) (positions : List Position) {t : Int}
    (ht : p.lower = t ∨ p.upper = t) :
    Bitmap.AtHand (TickArray.floorStart t m.pool.spacing) m.pool.spacing (m₁.supplied s) ∨
      StaysInUse { m₁ with positions } p' n (TickArray.floorStart t m.pool.spacing) := by
  have hspacing : m₁.pool.spacing = m.pool.spacing := by rw [hc.pool]
  have hgross := le_gross_of_deposit hc ht
  obtain ⟨a, ha, hstart, huses⟩ := exists_uses hc.laid (t := t) (by omega)
  have hvalid := hstart ▸ (hc.laid.aligned a ha).valid
  by_cases hext : s.extension = true
  · exact Or.inl (Bitmap.atHand_of_isSome hvalid (isSome_supplied hext))
  by_cases hmarked : m.bitmap.Marks (TickArray.floorStart t m.pool.spacing)
  · -- the array was in use before, and the tick that used it loses at most what it got
    right
    obtain ⟨c, hcMem, hcStart, hcount⟩ := (hm.marked _).1 hmarked
    rw [hm.counted c hcMem] at hcount
    obtain ⟨r, hr⟩ := TickArray.usedCount_ne_zero.1 hcount
    have hused : (lookup m.arrays r).gross ≠ 0 :=
      of_decide_eq_true ((isInitialized_lookup hm.laid).2 ⟨c, hcMem, hr⟩)
    have hnew := hc.gross_eq r
    obtain ⟨hlower, hupper, -⟩ := hc.bounds
    refine ⟨r, ?_, ?_⟩
    · change TickArray.floorStart r m₁.pool.spacing = _
      rw [hspacing, (hm.laid.aligned c hcMem).floorStart_of_uses hr, hcStart]
    · change (if p'.lower = r ∨ p'.upper = r then n else 0) < (lookup m₁.arrays r).gross
      rw [hlower, hupper]
      split at hnew <;> rename_i hbound
      · rw [if_pos hbound]
        omega
      · rw [if_neg hbound]
        omega
  · left
    have hnow : m₁.bitmap.Marks (TickArray.floorStart t m.pool.spacing) := by
      refine (hc.tracks _).2 ⟨a, ha, hstart, ?_⟩
      rw [hc.counted a ha]
      exact TickArray.usedCount_ne_zero.2 ⟨t, huses⟩
    simp only [bitmap] at hnow hmarked
    rw [hspacing, hhidden (Bool.eq_false_iff.2 hext)] at hnow
    exact atHand_of_marks hvalid hnow hmarked _

/-- The boundary ticks of a deposit are in use. -/
theorem used_of_deposit (hpos : 0 < n)
    (hc : Changed m m₁ p p' n amounts lowerMade lower upperMade upper) :
    lower.gross ≠ 0 ∧ upper.gross ≠ 0 := by
  have hlower := le_gross_of_deposit hc (Or.inl rfl)
  have hupper := le_gross_of_deposit hc (Or.inr rfl)
  rw [hc.lookup_lower] at hlower
  rw [hc.lookup_upper] at hupper
  exact ⟨by omega, by omega⟩

/-- Without the deposit the nets are what they were. -/
theorem nets_of_deposit (hpos : 0 < n)
    (hc : Changed m m₁ p p' n amounts lowerMade lower upperMade upper) :
    (lookup m₁.arrays p.lower).net - n = (lookup m.arrays p.lower).net ∧
      (lookup m₁.arrays p.upper).net + n = (lookup m.arrays p.upper).net := by
  obtain ⟨hlower, hupper⟩ := used_of_deposit hpos hc
  rw [hc.lookup_lower, hc.lookup_upper, hc.lowerChanged.net hlower, hc.upperChanged.net hupper]
  exact ⟨add_sub_cancel_right _ _, neg_add_cancel_right _ _⟩

/-- The position has settled what the market now shows. -/
theorem settles_again (hpos : 0 < n)
    (hc : Changed m m₁ p p' n amounts lowerMade lower upperMade upper) :
    p'.settle (m₁.scene.inside p') = .ok p' := by
  obtain ⟨hlower, hupper⟩ := used_of_deposit hpos hc
  obtain ⟨hlowerEq, hupperEq, -⟩ := hc.bounds
  have hinside : m₁.scene.inside p' = m₁.scene.inside p := by
    simp only [Scene.inside]
    rw [hlowerEq, hupperEq]
  obtain ⟨settled, hsettle, held, -, rfl⟩ := hc.position
  rw [hinside, hc.inside_made hlower hupper]
  exact Position.settle_settled hsettle held

/-- **What was just deposited can be removed.** -/
theorem removable_of_deposit (hm : m.Orderly) (hspacing : m.pool.spacing ≤ maxTickSpacing)
    (ht : m.Tallied) (hpos : 0 < n) (hnarrow : n < 2 ^ 127)
    (hc : Changed m m₁ p p' n amounts lowerMade lower upperMade upper)
    (hlowerStart : TickArray.floorStart p.lower m.pool.spacing ∈ s.starts)
    (hupperStart : TickArray.floorStart p.upper m.pool.spacing ∈ s.starts)
    (hhidden : s.extension = false → m₁.extension = m.extension) (positions : List Position) :
    Removable { m₁ with positions } p' n s := by
  have hsame : m₁.pool.spacing = m.pool.spacing := by rw [hc.pool]
  have htick : m₁.pool.tick = m.pool.tick := by rw [hc.pool]
  have hprice : m₁.pool.sqrtPrice = m.pool.sqrtPrice := by rw [hc.pool]
  obtain ⟨hlower, hupper, hliquidity⟩ := hc.bounds
  have hlowerGross := le_gross_of_deposit hc (Or.inl rfl)
  have hupperGross := le_gross_of_deposit hc (Or.inr rfl)
  obtain ⟨hlowerNet, hupperNet⟩ := nets_of_deposit hpos hc
  have hamounts := hc.amounts
  rw [Int.natAbs_natCast, if_pos (Int.natCast_pos.2 hpos)] at hamounts
  obtain ⟨hmin, hlt, hmax⟩ := hc.range
  obtain ⟨released, hreleased, -⟩ := exists_amountsFor_down ⟨hmin, hlt, hmax, hm.price⟩ hamounts
  exact {
    pos := hpos
    le := by omega
    narrow := hnarrow
    spacing_le := by
      change m₁.pool.spacing ≤ _
      rwa [hsame]
    range := by
      rw [hlower, hupper]
      exact hc.range
    lower := by
      change TickArray.floorStart p'.lower m₁.pool.spacing ∈ s.starts
      rwa [hlower, hsame]
    upper := by
      change TickArray.floorStart p'.upper m₁.pool.spacing ∈ s.starts
      rwa [hupper, hsame]
    bits := by
      intro t hbound
      rw [hlower, hupper] at hbound
      change Bitmap.AtHand (TickArray.floorStart t m₁.pool.spacing) m₁.pool.spacing (m₁.supplied s) ∨
        StaysInUse _ p' n (TickArray.floorStart t m₁.pool.spacing)
      rw [hsame]
      exact atHand_or_staysInUse hm hpos hc hhidden positions hbound
    lowerGross := by rwa [hlower]
    upperGross := by rwa [hupper]
    lowerNet := by
      rw [hlower]
      change -2 ^ 127 ≤ (lookup m₁.arrays p.lower).net - n ∧
        (lookup m₁.arrays p.lower).net - n < 2 ^ 127
      rw [hlowerNet]
      exact ht.net _
    upperNet := by
      rw [hupper]
      change -2 ^ 127 ≤ (lookup m₁.arrays p.upper).net + n ∧
        (lookup m₁.arrays p.upper).net + n < 2 ^ 127
      rw [hupperNet]
      exact ht.net _
    liquidity := by
      intro hcovers
      have hsum := hc.liquidity
      change p'.Covers m₁.pool.tick at hcovers
      simp only [Position.Covers] at hcovers
      rw [hlower, hupper, htick] at hcovers
      have hin : p.Covers m.pool.tick := hcovers
      rw [if_pos hin] at hsum
      change n ≤ m₁.pool.liquidity
      omega
    settle := by
      change Succeeds (p'.settle (m₁.scene.inside p'))
      exact ⟨p', settles_again hpos hc⟩
    amounts := by
      refine ⟨released, ?_⟩
      change amountsFor m₁.pool.sqrtPrice m₁.pool.tick p'.lower p'.upper n .down = _
      rwa [hprice, htick, hlower, hupper] }

/-- A change of liquidity settles the fees that the market showed for the position. -/
theorem pending_of_changed (ht : m.Tallied) (hp : p ∈ m.positions)
    (hc : Changed m m₁ p p' delta amounts lowerMade lower upperMade upper) :
    ∃ pending growthLast, p.pendingFees (m.scene.inside p) = .ok pending ∧ ∃ held : Nat,
      p' = { p with
        owed := ⟨p.owed.zero + pending.zero, p.owed.one + pending.one⟩
        growthLast
        liquidity := held } := by
  obtain ⟨settled, hsettle, held, -, rfl⟩ := hc.position
  obtain ⟨pending, hpending, rfl⟩ := settle_eq_ok hsettle
  refine ⟨pending, _, ?_, held, rfl⟩
  by_cases hzero : p.liquidity = 0
  · -- without liquidity the growth does not matter
    rw [Position.pendingFees_eq_zero (Or.inr hzero)] at hpending ⊢
    exact hpending
  · obtain ⟨hlower, hupper⟩ := grossAt_bounds hp hzero
    rwa [hc.made_inside ((ht.gross _).trans_ne hlower) ((ht.gross _).trans_ne hupper)] at hpending

variable {m₂ : Market} {p'' : Position} {positions : List Position} {amounts' : Pair Nat}
  {lowerMade' lower' upperMade' upper' : Tick}

/-- What is withdrawn right after a deposit is taken from a position that has settled its fees: it only
loses the liquidity. -/
theorem position_of_withdrawal (hpos : 0 < n)
    (hc : Changed m m₁ p p' n amounts lowerMade lower upperMade upper)
    (hc' : Changed { m₁ with positions } m₂ p' p'' (-(n : Int)) amounts' lowerMade' lower' upperMade'
      upper') : p'' = { p' with liquidity := p.liquidity } := by
  obtain ⟨hlower, hupper, hliquidity⟩ := hc.bounds
  obtain ⟨hlowerUsed, hupperUsed⟩ := used_of_deposit hpos hc
  rw [← hc.lookup_lower, ← hlower] at hlowerUsed
  rw [← hc.lookup_upper, ← hupper] at hupperUsed
  obtain ⟨settled, hsettle, held, hheld, rfl⟩ := hc'.position
  rw [hc'.made_inside hlowerUsed hupperUsed] at hsettle
  have hagain : p'.settle (m₁.scene.inside p') = .ok settled := hsettle
  rw [settles_again hpos hc] at hagain
  obtain rfl := Except.ok.inj hagain
  have hsame : held = p.liquidity := by omega
  rw [hsame]

/-- Right after a deposit, a withdrawal meets the price and the range that the deposit met. -/
theorem amounts_of_withdrawal (hm : m.Orderly) (hpos : 0 < n)
    (hc : Changed m m₁ p p' n amounts lowerMade lower upperMade upper)
    (hc' : Changed { m₁ with positions } m₂ p' p'' (-(n : Int)) amounts' lowerMade' lower' upperMade'
      upper') (x : Token) : amounts'.get x ≤ amounts.get x ∧ amounts.get x ≤ amounts'.get x + 1 := by
  obtain ⟨hlower, hupper, -⟩ := hc.bounds
  have hdeposited := hc.amounts
  rw [Int.natAbs_natCast, if_pos (Int.natCast_pos.2 hpos)] at hdeposited
  have hwithdrawn := hc'.amounts
  rw [Int.natAbs_neg, Int.natAbs_natCast, if_neg (by omega), hlower, hupper] at hwithdrawn
  have htick : m₁.pool.tick = m.pool.tick := by rw [hc.pool]
  have hprice : m₁.pool.sqrtPrice = m.pool.sqrtPrice := by rw [hc.pool]
  change amountsFor m₁.pool.sqrtPrice m₁.pool.tick p.lower p.upper n .down = _ at hwithdrawn
  rw [hprice, htick] at hwithdrawn
  obtain ⟨hmin, hlt, hmax⟩ := hc.range
  obtain ⟨released, hreleased, hpair⟩ := exists_amountsFor_down ⟨hmin, hlt, hmax, hm.price⟩ hdeposited
  obtain rfl : released = amounts' := Except.ok.inj (hreleased.symm.trans hwithdrawn)
  exact hpair x

/-- **Withdrawing at once what was just deposited restores the market.** In every market that a run leads
to: if a deposit of liquidity `n` into a position succeeds, then the withdrawal of `n` right after it, with
the same supply and without minima, succeeds. Of each token it returns the deposit or one unit less, and it
pays exactly the fees that were owed and pending before the deposit. The market is then what it was, with
its pool, its bitmap, its extension and all its tick arrays; the position has the liquidity it had, is owed
nothing and has settled its fees. -/
theorem open_then_close_restores {m : Market} (h : Attained m) {i : Nat} {p : Position}
    (hi : m.positions[i]? = some p) {d : Deposit} {derived : Bool} {s : Supply} {m' : Market} {n : Nat}
    {change : LiquidityChange} (hincrease : m.increase i d derived s = .ok (m', n, change)) :
    ∃ pending growthLast change',
      p.pendingFees (m.scene.inside p) = .ok pending ∧
      m'.decrease i n ⟨0, 0⟩ s = .ok ({ m with
        positions := m.positions.set i { p with owed := ⟨0, 0⟩, growthLast } }, change') ∧
      ∀ x, change'.amounts.get x ≤ change.amounts.get x ∧
        change.amounts.get x ≤ change'.amounts.get x + 1 ∧
        change'.fees.get x = p.owed.get x + pending.get x := by
  have hm := h.orderly
  simp only [increase] at hincrease
  obtain ⟨q, b, hq, hu, rfl⟩ := runAt_eq_ok hincrease
  obtain rfl : q = p := Option.some.inj (hq.symm.trans hi)
  obtain ⟨-, hpos, hnarrow, hmodify⟩ := deposit_eq_ok hu
  obtain ⟨lowerMade, lower, upperMade, upper, hc⟩ := changed_of_run hm hmodify
  obtain ⟨hlowerStart, hupperStart⟩ := starts_of_modifyPosition hmodify
  have hlt := (List.getElem?_eq_some_iff.1 hi).1
  have hm' := hc.orderly hm (m.positions.set i b.position)
  have hi' : (m.positions.set i b.position)[i]? = some b.position := List.getElem?_set_self hlt
  -- the withdrawal succeeds
  have hremovable := removable_of_deposit hm h.configured.spacing_le h.tallied hpos hnarrow hc
    hlowerStart hupperStart (extension_of_hidden hmodify) (m.positions.set i b.position)
  obtain ⟨⟨m₂', change'⟩, hdecrease⟩ := hremovable.succeeds_decrease hm' hi'
  obtain ⟨q', p'', m₂, _, _, _, _, hq', hc', hfees, rfl⟩ := decrease_eq_ok hm' hdecrease
  obtain rfl : q' = b.position := Option.some.inj (hq'.symm.trans hi')
  -- it leaves the market before the deposit, and the position with its fees settled
  obtain rfl := Changed.undone hm h.blank (Int.natCast_pos.2 hpos) hc hc'
  obtain rfl := position_of_withdrawal hpos hc hc'
  obtain ⟨pending, growthLast, hpending, held, hposition⟩ :=
    pending_of_changed h.tallied (List.mem_of_getElem? hi) hc
  refine ⟨pending, growthLast, change', hpending, ?_, fun x => ?_⟩
  · rw [hdecrease]
    change Except.ok ({ m with positions := (m.positions.set i b.position).set i _ }, change') = _
    rw [List.set_set, hposition]
  · obtain ⟨hle, hnear⟩ := amounts_of_withdrawal hm hpos hc hc' x
    refine ⟨hle, hnear, ?_⟩
    rw [hfees, hposition]
    cases x with
    | zero => rfl
    | one => rfl

/-- After a swap to tick -13, a position on a lower tick in use and an upper tick of a fresh array gets 700
of token 0 and 9 of token 1, and gives back one less of each. -/
theorem open_then_close_restores_openings : ∃ m total p m' n change,
    sample 10 5 (openings ++ [.setUpArray 600 0, .setUpPosition (-20) 610,
      .swap ⟨1000, 1, 0, .exactIn, .down⟩ 0 ⟨[0, -600], true⟩]) = .ok (m, total) ∧
    m.positions[2]? = some p ∧
    m.increase 2 ⟨0, ⟨700, 1000000⟩, none⟩ true ⟨[600, -600], false⟩ = .ok (m', n, change) ∧
    change.amounts = ⟨700, 9⟩ ∧
    ∃ pending growthLast change',
      p.pendingFees (m.scene.inside p) = .ok pending ∧
      m'.decrease 2 n ⟨0, 0⟩ ⟨[600, -600], false⟩ = .ok ({ m with
        positions := m.positions.set 2 { p with owed := ⟨0, 0⟩, growthLast } }, change') ∧
      ∀ x, change'.amounts.get x ≤ change.amounts.get x ∧
        change.amounts.get x ≤ change'.amounts.get x + 1 ∧
        change'.fees.get x = p.owed.get x + pending.get x := by
  obtain ⟨m, total, hsample, hrun⟩ := exists_of_sample (P := fun x =>
      decide (2 < x.1.positions.length) &&
        (x.1.increase 2 ⟨0, ⟨700, 1000000⟩, none⟩ true ⟨[600, -600], false⟩).toOption.any
          fun (q : Market × Nat × LiquidityChange) => decide (q.2.2.amounts = ⟨700, 9⟩))
    (show (sample 10 5 (openings ++ [.setUpArray 600 0, .setUpPosition (-20) 610,
      .swap ⟨1000, 1, 0, .exactIn, .down⟩ 0 ⟨[0, -600], true⟩])).toOption.any _ = true by
      decide +kernel)
  obtain ⟨hlength, hincreased⟩ := Bool.and_eq_true_iff.1 hrun
  obtain ⟨⟨m', n, change⟩, hincrease, hamounts⟩ := exists_ok_of_any hincreased
  have hlt : 2 < m.positions.length := of_decide_eq_true hlength
  have hi : m.positions[2]? = some m.positions[2] := List.getElem?_eq_getElem hlt
  exact ⟨m, total, _, m', n, change, hsample, hi, hincrease, of_decide_eq_true hamounts,
    open_then_close_restores (reached_of_sample hsample).attained hi hincrease⟩

end Closing

end Market

end Clmm
