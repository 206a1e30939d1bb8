import Clmm.Proofs.ExtremalPrice
import Clmm.Proofs.RangeAmounts

/-!
# Clmm.Proofs.SplitAmount

**An amount between two prices is the exact one, rounded once, and a price in between splits it in favour
of the pool** (`amounts_exact_and_additive`). Token 0 is divided by two prices in turn and rounded each
time, yet what comes out is the ceiling or the floor of the exact amount (`Token.amount_eq`).

The exact amounts of two adjoining ranges add up (`exchanged_add`). So whoever pays for a move in two parts
pays at least what the whole costs, and whoever is paid for it in two parts gets at most what the whole
gives.
-/

namespace Clmm

variable {x : Token} {r : Rounding} {a b p liquidity : Nat}

/-- The amount of a token between two prices, in 128 bits. -/
def Token.amount (x : Token) (a b liquidity : Nat) (r : Rounding) : Outcome Nat :=
  match x with
  | .zero => amount0 a b liquidity r
  | .one => amount1 a b liquidity r

/-- The product that the amount of token 0 is computed from fits its 256 bits; the one of token 1, of two
128-bit numbers, always does. -/
def Token.ProductFits (x : Token) (a b liquidity : Nat) : Prop :=
  x = .zero → liquidity * 2 ^ 64 * (b - a) < 2 ^ 256

/-! ### Rounding once -/

theorem Token.amount_comm (x : Token) (a b liquidity : Nat) (r : Rounding) :
    x.amount a b liquidity r = x.amount b a liquidity r := by
  cases x with
  | zero => exact amount0_comm a b liquidity r
  | one => exact amount1_comm a b liquidity r

theorem amount0_eq (ha : 0 < a) (hab : a ≤ b) (hfits : liquidity * 2 ^ 64 * (b - a) < 2 ^ 256) :
    amount0 a b liquidity r =
      narrow 128 (r.round (exchanged .zero liquidity a b)) .mathOverflow := by
  have hb : 0 < b := ha.trans_le hab
  simp only [amount0]
  rw [Nat.min_eq_left hab, Nat.max_eq_right hab, require, if_pos ha, Outcome.ok_bind, within,
    if_pos hfits, Outcome.ok_bind, Rounding.div_div ha hb, Rounding.div_eq_round (Nat.mul_pos ha hb),
    exchanged_zero ha hab, holding_zero_sub ha hab]

theorem amount1_eq (hab : a ≤ b) :
    amount1 a b liquidity r =
      narrow 128 (r.round (exchanged .one liquidity a b)) .mathOverflow := by
  simp only [amount1, mulDiv]
  rw [Nat.min_eq_left hab, Nat.max_eq_right hab, require, if_pos (by norm_num), Outcome.ok_bind,
    Rounding.div_eq_round (by norm_num), exchanged_one hab, holding_one_sub hab]

/-- The pool computes the exact amount, rounded as told, and refuses what does not fit 128 bits. -/
theorem Token.amount_eq (ha : 0 < a) (hab : a ≤ b) (hfits : x.ProductFits a b liquidity) :
    x.amount a b liquidity r = narrow 128 (r.round (exchanged x liquidity a b)) .mathOverflow := by
  cases x with
  | zero => exact amount0_eq ha hab (hfits rfl)
  | one => exact amount1_eq hab

/-- Between two prices of a range the product is no larger than over the whole range. -/
theorem Token.ProductFits.part {q s : Nat} (h : x.ProductFits a b liquidity) (hq : a ≤ q)
    (hs : s ≤ b) : x.ProductFits q s liquidity := by
  intro hx
  exact (Nat.mul_le_mul_left _ (by omega)).trans_lt (h hx)

/-! ### Adding up -/

/-- The exact amounts of two adjoining ranges add up. -/
theorem exchanged_add (x : Token) (liquidity : Nat) (ha : 0 < a) (hap : a ≤ p) (hpb : p ≤ b) :
    exchanged x liquidity a p + exchanged x liquidity p b = exchanged x liquidity a b := by
  cases x with
  | zero =>
      rw [exchanged_zero ha hap, exchanged_zero (ha.trans_le hap) hpb,
        exchanged_zero ha (hap.trans hpb)]
      ring
  | one =>
      rw [exchanged_one hap, exchanged_one hpb, exchanged_one (hap.trans hpb)]
      ring

theorem Rounding.round_mono (r : Rounding) {s t : ℚ} (h : s ≤ t) : r.round s ≤ r.round t := by
  cases r with
  | down => exact Nat.floor_mono h
  | up => exact Nat.ceil_mono h

theorem floor_add_floor_le {s t : ℚ} (hs : 0 ≤ s) (ht : 0 ≤ t) : ⌊s⌋₊ + ⌊t⌋₊ ≤ ⌊s + t⌋₊ := by
  apply Nat.le_floor
  push_cast
  exact add_le_add (Nat.floor_le hs) (Nat.floor_le ht)

/-- A part is computed whenever the whole is: it is no larger. -/
theorem Token.succeeds_amount_part {q s : Nat} (ha : 0 < a) (hfits : x.ProductFits a b liquidity)
    (hq : a ≤ q) (hqs : q ≤ s) (hs : s ≤ b) (hwhole : (x.amount a b liquidity r).Succeeds) :
    (x.amount q s liquidity r).Succeeds := by
  obtain ⟨whole, hwhole⟩ := hwhole
  have hqpos : 0 < q := ha.trans_le hq
  rw [Token.amount_eq ha (hq.trans (hqs.trans hs)) hfits, narrow_eq_ok] at hwhole
  have hbefore := exchanged_add x liquidity ha hq hqs
  have hbehind := exchanged_add x liquidity ha (hq.trans hqs) hs
  have hle : exchanged x liquidity q s ≤ exchanged x liquidity a b := by
    have := exchanged_nonneg x liquidity a q
    have := exchanged_nonneg x liquidity s b
    linarith
  refine ⟨r.round (exchanged x liquidity q s), ?_⟩
  rw [Token.amount_eq hqpos hqs (hfits.part hq hs), narrow_eq_ok]
  exact ⟨(r.round_mono hle).trans_lt hwhole.1, rfl⟩

/-- **Amounts are exact and additive.** Between two prices, given in either order, the pool computes the
floor or the ceiling of the exact amount of a token, as told, and refuses with an overflow exactly what
does not fit 128 bits. So the amount rounded up exceeds the one rounded down by at most one; and at every
price in between the whole, where it is computed, comes apart in two amounts, of which the rounded-down ones
do not exceed the whole together and the rounded-up ones do not fall short of it. -/
theorem amounts_exact_and_additive (x : Token) (ha : 0 < a) (hab : a ≤ b)
    (hfits : x.ProductFits a b liquidity) :
    (∀ r, x.amount b a liquidity r = x.amount a b liquidity r) ∧
    (x.amount a b liquidity .down =
      if ⌊exchanged x liquidity a b⌋₊ < 2 ^ 128 then .ok ⌊exchanged x liquidity a b⌋₊
      else .error (.refused .mathOverflow)) ∧
    (x.amount a b liquidity .up =
      if ⌈exchanged x liquidity a b⌉₊ < 2 ^ 128 then .ok ⌈exchanged x liquidity a b⌉₊
      else .error (.refused .mathOverflow)) ∧
    (∀ down up, x.amount a b liquidity .down = .ok down → x.amount a b liquidity .up = .ok up →
      down ≤ up ∧ up ≤ down + 1) ∧
    ∀ p, a ≤ p → p ≤ b →
      (∀ r, (x.amount a b liquidity r).Succeeds →
        (x.amount a p liquidity r).Succeeds ∧ (x.amount p b liquidity r).Succeeds) ∧
      (∀ first second, x.amount a p liquidity .down = .ok first →
        x.amount p b liquidity .down = .ok second →
          first + second ≤ ⌊exchanged x liquidity a b⌋₊) ∧
      ∀ first second, x.amount a p liquidity .up = .ok first →
        x.amount p b liquidity .up = .ok second →
          ⌈exchanged x liquidity a b⌉₊ ≤ first + second := by
  have heq : ∀ r, x.amount a b liquidity r = _ := fun r => Token.amount_eq ha hab hfits
  refine ⟨fun r => x.amount_comm b a liquidity r, heq .down, heq .up, ?_, ?_⟩
  · intro down up hdown hup
    rw [heq, narrow_eq_ok] at hdown hup
    obtain ⟨-, rfl⟩ := hdown
    obtain ⟨-, rfl⟩ := hup
    exact ⟨Nat.floor_le_ceil _, Nat.ceil_le_floor_add_one _⟩
  · intro p hap hpb
    have hp : 0 < p := ha.trans_le hap
    have hfirst : ∀ r, x.amount a p liquidity r = _ :=
      fun r => Token.amount_eq ha hap (hfits.part (Nat.le_refl a) hpb)
    have hsecond : ∀ r, x.amount p b liquidity r = _ :=
      fun r => Token.amount_eq hp hpb (hfits.part hap (Nat.le_refl b))
    have hadd := exchanged_add x liquidity ha hap hpb
    refine ⟨fun r hwhole => ?_, fun first second h h' => ?_, fun first second h h' => ?_⟩
    · exact ⟨Token.succeeds_amount_part ha hfits (Nat.le_refl a) hap hpb hwhole,
        Token.succeeds_amount_part ha hfits hap hpb (Nat.le_refl b) hwhole⟩
    · rw [hfirst, narrow_eq_ok] at h
      rw [hsecond, narrow_eq_ok] at h'
      rw [← h.2, ← h'.2, ← hadd]
      exact floor_add_floor_le (exchanged_nonneg _ _ _ _) (exchanged_nonneg _ _ _ _)
    · rw [hfirst, narrow_eq_ok] at h
      rw [hsecond, narrow_eq_ok] at h'
      rw [← h.2, ← h'.2, ← hadd]
      exact Nat.ceil_add_le _ _

/-- From the price one to the price four, a liquidity of a million and one exchanges half as much of
token 0, and the price in between leaves one unit with the pool either way. -/
theorem amounts_exact_and_additive_halfway :
    Token.zero.ProductFits (2 ^ 64) (2 ^ 65) 1000001 ∧
    Token.zero.amount (2 ^ 65) (2 ^ 64) 1000001 .down = .ok 500000 ∧
    500001 ≤ 500000 + 1 ∧
    333333 + 166666 ≤ ⌊exchanged .zero 1000001 (2 ^ 64) (2 ^ 65)⌋₊ ∧
    ⌈exchanged .zero 1000001 (2 ^ 64) (2 ^ 65)⌉₊ ≤ 333334 + 166667 := by
  have hfits : Token.zero.ProductFits (2 ^ 64) (2 ^ 65) 1000001 := fun _ => by norm_num
  obtain ⟨hcomm, -, -, hclose, hparts⟩ :=
    amounts_exact_and_additive .zero (a := 2 ^ 64) (b := 2 ^ 65) (by norm_num) (by norm_num) hfits
  obtain ⟨-, hdown, hup⟩ := hparts (3 * 2 ^ 63) (by norm_num) (by norm_num)
  exact ⟨hfits, (hcomm .down).trans (by decide +kernel),
    (hclose _ _ (by decide +kernel) (by decide +kernel)).2,
    hdown _ _ (by decide +kernel) (by decide +kernel), hup _ _ (by decide +kernel) (by decide +kernel)⟩

end Clmm
