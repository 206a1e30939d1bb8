import Clmm.Proofs.ChangeSucceeds
import Clmm.Proofs.LiquidityBound

/-!
# Clmm.Proofs.Withdrawal

**No liquidity is trapped** (`full_withdrawal_succeeds`). While what was paid in and not paid out fits a
token balance, every position can be emptied, and what it is paid is covered.

Solvency is what makes it so. The claims of all positions are covered, so the released amounts and the
owed fees, which are parts of them, fit a token balance each; and since liquidity has a least worth, the
bound on the claims keeps every liquidity and every net far from its width (`Reached.removable`).
-/

namespace Clmm

open Outcome

/-! ### Fees that are covered -/

section Fees

variable {liquidity : Nat} {inside last : Growth}

theorem succeeds_accrued (h : (liquidity : ℚ) * ((inside - last).toNat / 2 ^ 64) < 2 ^ 64) :
    Succeeds (Position.accrued liquidity inside last) := by
  have hproduct : (inside - last).toNat * liquidity < 2 ^ 64 * 2 ^ 64 := by
    rw [← mul_div_assoc, div_lt_iff₀ (by positivity)] at h
    rw [Nat.mul_comm]
    exact_mod_cast h
  have hquotient : Rounding.div .down ((inside - last).toNat * liquidity) (2 ^ 64) < 2 ^ 64 :=
    Nat.div_lt_of_lt_mul hproduct
  simp only [Position.accrued]
  refine Succeeds.ite (fun _ => succeeds_pure _) fun _ => ?_
  refine (succeeds_mulDiv (by norm_num) (hquotient.trans (by norm_num))).bind fun n hn => ?_
  obtain ⟨-, rfl⟩ := mulDiv_eq_ok hn
  exact succeeds_narrow hquotient

/-- **Fees that are covered can be settled.** -/
theorem Position.succeeds_settle {p : Position} {inside : Pair Growth}
    (h : ∀ x, (p.owed.get x : ℚ) +
      p.liquidity * ((inside.get x - p.growthLast.get x).toNat / 2 ^ 64) < 2 ^ 64) :
    Succeeds (p.settle inside) := by
  have haccrued : ∀ x, (p.liquidity : ℚ) *
      ((inside.get x - p.growthLast.get x).toNat / 2 ^ 64) < 2 ^ 64 := by
    intro x
    have howed : (0 : ℚ) ≤ p.owed.get x := Nat.cast_nonneg _
    have hx := h x
    linarith
  have hpending : Succeeds (p.pendingFees inside) :=
    (succeeds_accrued (haccrued .zero)).bind fun _ _ =>
      (succeeds_accrued (haccrued .one)).bind fun _ _ => succeeds_pure _
  refine hpending.bind fun fees hfees => ?_
  have hsum : ∀ x, p.owed.get x + fees.get x < 2 ^ 64 := by
    intro x
    have hle := pendingFees_le hfees x
    have hx := h x
    have hcast : ((p.owed.get x + fees.get x : Nat) : ℚ) < 2 ^ 64 := by
      push_cast
      linarith
    exact_mod_cast hcast
  exact (succeeds_narrow (hsum .zero)).bind fun _ _ =>
    (succeeds_narrow (hsum .one)).bind fun _ _ => succeeds_pure _

end Fees

/-! ### Emptying a position -/

namespace Market

variable {m : Market} {total : Payment} {p : Position} {s : Supply}

/-- What was paid in and not paid out fits a token balance, and so do the claims. -/
theorem Reached.claims_lt (h : Reached m total)
    (hfits : ∀ x, total.paidIn.get x - total.paidOut.get x < 2 ^ 64) (x : Token) :
    m.claims x < 2 ^ 64 := by
  have hclaims := h.claims_le x
  have hnet : (total.paidIn.get x : ℚ) ≤
      ((total.paidIn.get x - total.paidOut.get x : Nat) : ℚ) + total.paidOut.get x := by
    exact_mod_cast le_tsub_add
  have hlt : ((total.paidIn.get x - total.paidOut.get x : Nat) : ℚ) < 2 ^ 64 := by
    exact_mod_cast hfits x
  linarith

/-- While the claims fit a token balance, all liquidity of a position can be removed. -/
theorem WellFormed.removable (hm : m.WellFormed) (hspacing : m.pool.spacing ≤ maxTickSpacing)
    (hclaims : ∀ x, m.claims x < 2 ^ 64) (hp : p ∈ m.positions) (hpos : 0 < p.liquidity)
    (hext : s.extension = true) (hlower : TickArray.floorStart p.lower m.pool.spacing ∈ s.starts)
    (hupper : TickArray.floorStart p.upper m.pool.spacing ∈ s.starts) :
    m.Removable p p.liquidity s := by
  obtain ⟨hmin, hlt, hmax⟩ := hm.ranged p hp hpos.ne'
  have hall := hm.liquidity_sum_lt hclaims
  have hone : p.liquidity ≤ (m.positions.map (·.liquidity)).sum :=
    List.single_le_sum (fun _ _ => Nat.zero_le _) _ (List.mem_map.2 ⟨p, hp, rfl⟩)
  have hlowerNet := natAbs_netAt_le m.positions p.lower
  have hupperNet := natAbs_netAt_le m.positions p.upper
  have hlowerGross := le_grossAt hp (Or.inl rfl)
  have hupperGross := le_grossAt hp (Or.inr rfl)
  rw [← hm.net] at hlowerNet hupperNet
  rw [← hm.gross] at hlowerGross hupperGross
  have hparts := fun x => hm.claim_parts hp hpos.ne' x
  have hvalid : ∀ t, p.lower = t ∨ p.upper = t →
      TickArray.isValidStart (TickArray.floorStart t m.pool.spacing) m.pool.spacing = true := by
    intro t ht
    have huse : (TickTable.lookup m.arrays t).gross ≠ 0 := by rcases ht with rfl | rfl <;> omega
    obtain ⟨a, ha, hstart, -⟩ := TickTable.exists_uses hm.laid huse
    exact hstart ▸ (hm.laid.aligned a ha).valid
  exact {
    pos := hpos
    le := Nat.le_refl _
    narrow := by omega
    spacing_le := hspacing
    range := ⟨hmin, hlt, hmax⟩
    lower := hlower
    upper := hupper
    bits := fun t ht => Or.inl (Bitmap.atHand_of_isSome (hvalid t ht) (isSome_supplied hext))
    lowerGross := hlowerGross
    upperGross := hupperGross
    lowerNet := by omega
    upperNet := by omega
    liquidity := fun hcovers => hm.liquidity ▸ le_liquidityAt hp hcovers
    settle := Position.succeeds_settle fun x => (hparts x).2.trans_lt (hclaims x)
    amounts := succeeds_amountsFor_down ⟨hmin, hlt, hmax, hm.price⟩
      fun x => (hparts x).1.trans_lt (hclaims x) }

/-- **No liquidity is trapped.** Whatever deposits, withdrawals, swaps and fee payments led to the
market: while what was paid in and not paid out fits a token balance, every position with liquidity can
be emptied, given the arrays of its bounds and the bitmap extension, and what it is paid, fees included,
is covered by what was paid in and not paid out. -/
theorem full_withdrawal_succeeds {m : Market} {total : Payment} (h : Reached m total)
    (hfits : ∀ x, total.paidIn.get x - total.paidOut.get x < 2 ^ 64) {i : Nat} {p : Position}
    (hi : m.positions[i]? = some p) (hpos : 0 < p.liquidity) {s : Supply} (hext : s.extension = true)
    (hlower : TickArray.floorStart p.lower m.pool.spacing ∈ s.starts)
    (hupper : TickArray.floorStart p.upper m.pool.spacing ∈ s.starts) :
    ∃ m' change, m.decrease i p.liquidity ⟨0, 0⟩ s = .ok (m', change) ∧
      ∀ x, change.amounts.get x + change.fees.get x ≤ total.paidIn.get x - total.paidOut.get x := by
  have hm := h.wellFormed
  have hremovable := hm.removable h.configured.spacing_le (h.claims_lt hfits) (List.mem_of_getElem? hi)
    hpos hext hlower hupper
  obtain ⟨⟨m', change⟩, hdecrease⟩ := hremovable.succeeds_decrease hm.orderly hi
  refine ⟨m', change, hdecrease, ?_⟩
  intro x
  -- the withdrawal belongs to the run, and after it the market is still backed
  have hperform : m.perform (.decrease i p.liquidity ⟨0, 0⟩ s) = .ok (m', decreasePayment change) := by
    simp only [Market.perform]
    rw [hdecrease]
    rfl
  have hreached := Reached.performed (.decrease i p.liquidity ⟨0, 0⟩ s) h trivial hperform
  have hclaims := hreached.wellFormed.claims_nonneg x
  have hbacked := hreached.claims_le x
  rw [Payment.paidOut_add, Payment.paidIn_add] at hbacked
  have hpaid : (decreasePayment change).paidOut.get x = change.amounts.get x + change.fees.get x :=
    Pair.get_ofFn _ x
  have hnone : (decreasePayment change).paidIn.get x = 0 := Pair.get_both 0 x
  rw [hpaid, hnone] at hbacked
  have hcovered : total.paidOut.get x + (change.amounts.get x + change.fees.get x) ≤
      total.paidIn.get x := by
    have hcast : ((total.paidOut.get x + (change.amounts.get x + change.fees.get x) : Nat) : ℚ) ≤
        (total.paidIn.get x + 0 : Nat) := by linarith
    exact_mod_cast hcast
  omega

theorem full_withdrawal_succeeds_openings : ∃ m total p m' change,
    sample 10 5 (openings ++ [.swap ⟨900, 0, 0, .exactIn, .down⟩ 0 ⟨[0, -600], true⟩]) =
      .ok (m, total) ∧
    m.positions[0]? = some p ∧ p.liquidity = 1000000 ∧
    (∀ x, total.paidIn.get x - total.paidOut.get x < 2 ^ 64) ∧
    m.decrease 0 p.liquidity ⟨0, 0⟩ ⟨[-600, 0], true⟩ = .ok (m', change) ∧
    ∀ x, change.amounts.get x + change.fees.get x ≤ total.paidIn.get x - total.paidOut.get x := by
  obtain ⟨m, total, hsample, hfacts⟩ := exists_of_sample (P := fun x => decide (
      x.1.pool.spacing = 10 ∧ x.2.paidIn.zero < 2 ^ 64 ∧ x.2.paidIn.one < 2 ^ 64 ∧
      (x.1.positions[0]?.map fun p : Position => (p.lower, p.upper, p.liquidity)) =
        some (-20, 20, 1000000)))
    (show (sample 10 5 (openings ++ [.swap ⟨900, 0, 0, .exactIn, .down⟩ 0 ⟨[0, -600], true⟩])
      ).toOption.any _ = true by decide +kernel)
  obtain ⟨hspacing, hzero, hone, hposition⟩ := of_decide_eq_true hfacts
  obtain ⟨p, hi, hp⟩ := Option.map_eq_some_iff.1 hposition
  obtain ⟨hlower, hrest⟩ := Prod.mk.inj hp
  obtain ⟨hupper, hliquidity⟩ := Prod.mk.inj hrest
  have hfits : ∀ x, total.paidIn.get x - total.paidOut.get x < 2 ^ 64 := fun x => by
    cases x with
    | zero => exact Nat.lt_of_le_of_lt (Nat.sub_le _ _) hzero
    | one => exact Nat.lt_of_le_of_lt (Nat.sub_le _ _) hone
  obtain ⟨m', change, hdecrease, hcovered⟩ := full_withdrawal_succeeds (reached_of_sample hsample)
    hfits hi (by rw [hliquidity]; decide) (s := ⟨[-600, 0], true⟩) rfl
    (by rw [hlower, hspacing]; decide) (by rw [hupper, hspacing]; decide)
  exact ⟨m, total, p, m', change, hsample, hi, hliquidity, hfits, hdecrease, hcovered⟩

end Market

end Clmm
