import Clmm.Position
import Clmm.Price
import Clmm.Proofs.Heading
import Mathlib.Algebra.Order.BigOperators.Group.List
import Mathlib.Tactic.Linarith
import Mathlib.Tactic.Ring

/-!
# Clmm.Proofs.LiquiditySum

**What a list of positions adds up to at a tick.** The positions alone determine how much liquidity
refers to a tick (`grossAt`), by how much the liquidity in range changes there (`netAt`) and how much
is in range (`liquidityAt`). Going up over a tick adds its net (`liquidityAt_sub_one`), between ticks
that bound no position nothing changes (`liquidityAt_congr`), and the nets of all ticks up to `t` add
up to the liquidity in range at `t` (`sum_netAt`).
-/

namespace Clmm

namespace Position

/-- Whether tick `t` lies in the range of the position. -/
def Covers (p : Position) (t : Int) : Prop := p.lower ≤ t ∧ t < p.upper

instance (p : Position) (t : Int) : Decidable (p.Covers t) :=
  inferInstanceAs (Decidable (_ ∧ _))

theorem covers_iff {p : Position} {t : Int} : p.Covers t ↔ p.lower ≤ t ∧ t < p.upper := Iff.rfl

/-- What the position contributes to the net of tick `t`: its liquidity begins at the lower bound and
ends at the upper one. -/
def netAt (p : Position) (t : Int) : Int :=
  (if p.lower = t then (p.liquidity : Int) else 0) - if p.upper = t then (p.liquidity : Int) else 0

end Position

/-- All liquidity of positions that have tick `t` as a bound. -/
def grossAt (positions : List Position) (t : Int) : Nat :=
  (positions.map fun p => if p.lower = t ∨ p.upper = t then p.liquidity else 0).sum

/-- The liquidity of positions that begin at tick `t`, less that of positions that end there. -/
def netAt (positions : List Position) (t : Int) : Int :=
  (positions.map (·.netAt t)).sum

/-- All liquidity of positions whose range covers tick `t`. -/
def liquidityAt (positions : List Position) (t : Int) : Nat :=
  (positions.map fun p => if p.Covers t then p.liquidity else 0).sum

/-- Every position that holds liquidity has a range within the tick range. -/
def Ranged (positions : List Position) : Prop :=
  ∀ p ∈ positions, p.liquidity ≠ 0 → minTick ≤ p.lower ∧ p.lower < p.upper ∧ p.upper ≤ maxTick

variable {positions : List Position} {p p' : Position} {s t : Int}

/-! ### Replacing one position -/

/-- Replacing an entry changes a sum by the difference of the two contributions, when every other entry
contributes afterwards what it did before. -/
theorem sum_map_set_of_eq {α β : Type} [AddCommMonoid β] {xs : List α} {i : Nat} {x : α}
    (hx : xs[i]? = some x) (y : α) {f g : α → β}
    (h : ∀ j z, j ≠ i → xs[j]? = some z → g z = f z) :
    ((xs.set i y).map g).sum + f x = (xs.map f).sum + g y := by
  induction xs generalizing i with
  | nil => simp at hx
  | cons z rest ih =>
      cases i with
      | zero =>
          obtain rfl : z = x := by simpa using hx
          have hrest : rest.map g = rest.map f := by
            apply List.map_congr_left
            intro z' hz'
            obtain ⟨j, hj⟩ := List.mem_iff_getElem?.1 hz'
            exact h (j + 1) z' (Nat.succ_ne_zero j) hj
          simp only [List.set_cons_zero, List.map_cons, List.sum_cons]
          rw [hrest, add_right_comm, add_comm (g y), add_assoc, add_assoc, add_comm (g y)]
      | succ i =>
          have hz : g z = f z := h 0 z (Nat.succ_ne_zero i).symm rfl
          have hrest := ih (i := i) (by simpa using hx) fun j z' hne hz' =>
            h (j + 1) z' (fun heq => hne (Nat.succ.inj heq)) hz'
          simp only [List.set_cons_succ, List.map_cons, List.sum_cons]
          rw [add_assoc, hrest, hz, add_assoc]

theorem sum_map_set {α β : Type} [AddCommMonoid β] {xs : List α} {i : Nat} {x : α}
    (hx : xs[i]? = some x) (y : α) (f : α → β) :
    ((xs.set i y).map f).sum + f x = (xs.map f).sum + f y :=
  sum_map_set_of_eq hx y fun _ _ _ _ => rfl

theorem grossAt_set {i : Nat} (hp : positions[i]? = some p) (hlower : p'.lower = p.lower)
    (hupper : p'.upper = p.upper) (t : Int) :
    (grossAt (positions.set i p') t : Int) = grossAt positions t +
      if p.lower = t ∨ p.upper = t then (p'.liquidity : Int) - p.liquidity else 0 := by
  have hsum : grossAt (positions.set i p') t +
        (if p.lower = t ∨ p.upper = t then p.liquidity else 0) =
      grossAt positions t + if p.lower = t ∨ p.upper = t then p'.liquidity else 0 := by
    have := sum_map_set hp p' fun q => if q.lower = t ∨ q.upper = t then q.liquidity else 0
    rwa [hlower, hupper] at this
  by_cases hbound : p.lower = t ∨ p.upper = t
  · rw [if_pos hbound, if_pos hbound] at hsum
    rw [if_pos hbound]
    omega
  · rw [if_neg hbound, if_neg hbound] at hsum
    rw [if_neg hbound]
    omega

theorem netAt_set {i : Nat} (hp : positions[i]? = some p) (hlower : p'.lower = p.lower)
    (hupper : p'.upper = p.upper) (t : Int) :
    netAt (positions.set i p') t = netAt positions t +
      ((if p.lower = t then (p'.liquidity : Int) - p.liquidity else 0) -
        if p.upper = t then (p'.liquidity : Int) - p.liquidity else 0) := by
  have := sum_map_set hp p' (·.netAt t)
  simp only [netAt]
  simp only [Position.netAt] at *
  rw [hlower, hupper] at this
  split <;> split <;> simp_all <;> omega

theorem liquidityAt_set {i : Nat} (hp : positions[i]? = some p) (hlower : p'.lower = p.lower)
    (hupper : p'.upper = p.upper) (t : Int) :
    (liquidityAt (positions.set i p') t : Int) = liquidityAt positions t +
      if p.Covers t then (p'.liquidity : Int) - p.liquidity else 0 := by
  have hcovers : p'.Covers t ↔ p.Covers t := by
    simp only [Position.Covers]
    rw [hlower, hupper]
  have hsum : liquidityAt (positions.set i p') t + (if p.Covers t then p.liquidity else 0) =
      liquidityAt positions t + if p.Covers t then p'.liquidity else 0 := by
    have := sum_map_set hp p' fun q => if q.Covers t then q.liquidity else 0
    simp only [hcovers] at this
    exact this
  by_cases hcover : p.Covers t
  · rw [if_pos hcover, if_pos hcover] at hsum
    rw [if_pos hcover]
    omega
  · rw [if_neg hcover, if_neg hcover] at hsum
    rw [if_neg hcover]
    omega

/-! ### A new position without liquidity -/

theorem grossAt_append_empty (hp : p.liquidity = 0) :
    grossAt (positions ++ [p]) t = grossAt positions t := by
  simp [grossAt, hp]

theorem netAt_append_empty (hp : p.liquidity = 0) :
    netAt (positions ++ [p]) t = netAt positions t := by
  simp [netAt, Position.netAt, hp]

theorem liquidityAt_append_empty (hp : p.liquidity = 0) :
    liquidityAt (positions ++ [p]) t = liquidityAt positions t := by
  simp [liquidityAt, hp]

/-! ### From tick to tick -/

theorem le_grossAt (hp : p ∈ positions) (ht : p.lower = t ∨ p.upper = t) :
    p.liquidity ≤ grossAt positions t := by
  have := List.single_le_sum (l := positions.map fun q =>
    if q.lower = t ∨ q.upper = t then q.liquidity else 0) (fun _ _ => Nat.zero_le _) p.liquidity
    (List.mem_map.2 ⟨p, hp, if_pos ht⟩)
  exact this

theorem le_liquidityAt (hp : p ∈ positions) (ht : p.Covers t) :
    p.liquidity ≤ liquidityAt positions t := by
  have := List.single_le_sum (l := positions.map fun q => if q.Covers t then q.liquidity else 0)
    (fun _ _ => Nat.zero_le _) p.liquidity (List.mem_map.2 ⟨p, hp, if_pos ht⟩)
  exact this

theorem liquidityAt_le_sum (positions : List Position) (t : Int) :
    liquidityAt positions t ≤ (positions.map (·.liquidity)).sum := by
  simp only [liquidityAt]
  apply List.sum_le_sum
  intro p _
  split_ifs
  · exact Nat.le_refl _
  · exact Nat.zero_le _

/-- The net of a tick is at most all liquidity, with either sign. -/
theorem natAbs_netAt_le (positions : List Position) (t : Int) :
    (netAt positions t).natAbs ≤ (positions.map (·.liquidity)).sum := by
  induction positions with
  | nil => exact Nat.le_refl 0
  | cons p rest ih =>
      have hhead : (p.netAt t).natAbs ≤ p.liquidity := by
        simp only [Position.netAt]
        split_ifs <;> omega
      have hsum := Int.natAbs_add_le (p.netAt t) (netAt rest t)
      simp only [netAt] at *
      rw [List.map_cons, List.map_cons, List.sum_cons, List.sum_cons]
      omega

/-- Where liquidity begins or ends, a position with liquidity has a bound. -/
theorem exists_of_grossAt (h : grossAt positions t ≠ 0) :
    ∃ p ∈ positions, p.liquidity ≠ 0 ∧ (p.lower = t ∨ p.upper = t) := by
  by_contra hnone
  apply h
  simp only [grossAt]
  apply List.sum_eq_zero
  intro n hn
  obtain ⟨p, hp, rfl⟩ := List.mem_map.1 hn
  by_cases ht : p.lower = t ∨ p.upper = t
  · rw [if_pos ht]
    by_contra hne
    exact hnone ⟨p, hp, hne, ht⟩
  · exact if_neg ht

theorem Ranged.bounds (h : Ranged positions) (ht : grossAt positions t ≠ 0) :
    minTick ≤ t ∧ t ≤ maxTick := by
  obtain ⟨p, hp, hne, rfl | rfl⟩ := exists_of_grossAt ht
  · obtain ⟨hmin, hlt, hmax⟩ := h p hp hne
    exact ⟨hmin, (hlt.trans_le hmax).le⟩
  · obtain ⟨hmin, hlt, hmax⟩ := h p hp hne
    exact ⟨(hmin.trans_lt hlt).le, hmax⟩

/-- No range goes past the last tick. -/
theorem Ranged.liquidityAt_maxTick (h : Ranged positions) : liquidityAt positions maxTick = 0 := by
  simp only [liquidityAt]
  apply List.sum_eq_zero
  intro n hn
  obtain ⟨p, hp, rfl⟩ := List.mem_map.1 hn
  by_cases hcovers : p.Covers maxTick
  · rw [if_pos hcovers]
    by_contra hne
    obtain ⟨-, -, hmax⟩ := h p hp hne
    exact absurd hcovers.2 (Int.not_lt.2 hmax)
  · exact if_neg hcovers

theorem liquidity_eq_zero_of_grossAt (h : grossAt positions t = 0) (hp : p ∈ positions)
    (ht : p.lower = t ∨ p.upper = t) : p.liquidity = 0 := by
  have := le_grossAt hp ht
  omega

/-- A tick that no liquidity refers to has no net. -/
theorem netAt_eq_zero (h : grossAt positions t = 0) : netAt positions t = 0 := by
  simp only [netAt]
  apply List.sum_eq_zero
  intro n hn
  obtain ⟨p, hp, rfl⟩ := List.mem_map.1 hn
  simp only [Position.netAt]
  by_cases ht : p.lower = t ∨ p.upper = t
  · simp [liquidity_eq_zero_of_grossAt h hp ht]
  · rw [not_or] at ht
    rw [if_neg ht.1, if_neg ht.2, Int.sub_zero]

/-- Going up over tick `t` changes the liquidity in range by the net of `t`. -/
theorem liquidityAt_sub_one (h : Ranged positions) (t : Int) :
    (liquidityAt positions t : Int) = liquidityAt positions (t - 1) + netAt positions t := by
  induction positions with
  | nil => rfl
  | cons p rest ih =>
      have hrest := ih fun q hq => h q (List.mem_cons_of_mem _ hq)
      have hhead : ((if p.Covers t then p.liquidity else 0 : Nat) : Int) =
          ((if p.Covers (t - 1) then p.liquidity else 0 : Nat) : Int) + p.netAt t := by
        by_cases hp : p.liquidity = 0
        · simp [Position.netAt, hp]
        · obtain ⟨-, hlt, -⟩ := h p List.mem_cons_self hp
          simp only [Position.netAt]
          rw [Nat.cast_ite, Nat.cast_ite, Nat.cast_zero]
          split_ifs
          all_goals simp only [Position.covers_iff] at *
          all_goals omega
      simp only [liquidityAt, netAt] at *
      simp only [List.map_cons, List.sum_cons, Nat.cast_add]
      omega

/-- Ticks that lie in the same ranges have the same liquidity in range. -/
theorem liquidityAt_congr
    (h : ∀ p ∈ positions, p.liquidity ≠ 0 → (p.Covers s ↔ p.Covers t)) :
    liquidityAt positions s = liquidityAt positions t := by
  simp only [liquidityAt]
  congr 1
  apply List.map_congr_left
  intro p hp
  by_cases hzero : p.liquidity = 0
  · simp [hzero]
  · simp only [h p hp hzero]

/-- Of the ticks that liquidity refers to, the same lie up to `s` as up to `t`: the liquidity in range
is the same at both. -/
theorem liquidityAt_eq_of_same
    (h : ∀ u, grossAt positions u ≠ 0 → (u ≤ s ↔ u ≤ t)) :
    liquidityAt positions s = liquidityAt positions t := by
  apply liquidityAt_congr
  intro p hp hne
  -- being covered is a matter of where the two bounds lie
  have hlower := h p.lower fun hzero => hne (liquidity_eq_zero_of_grossAt hzero hp (Or.inl rfl))
  have hupper := h p.upper fun hzero => hne (liquidity_eq_zero_of_grossAt hzero hp (Or.inr rfl))
  rw [Position.covers_iff, Position.covers_iff, hlower, ← Int.not_le, ← Int.not_le, hupper]

/-! ### The running sum of nets -/

/-- Of a list without repetition, the entries equal to `a` contribute `x` once if `a` is among those
that count, and nothing otherwise. -/
theorem sum_filter_ite_eq {is : List Int} (hnodup : is.Nodup) (q : Int → Bool) (a x : Int) :
    ((is.filter q).map fun i => if a = i then x else 0).sum =
      if a ∈ is ∧ q a = true then x else 0 := by
  induction is with
  | nil => simp
  | cons i rest ih =>
      obtain ⟨hnot, hrest⟩ := List.nodup_cons.1 hnodup
      by_cases hi : q i = true
      · rw [List.filter_cons_of_pos hi, List.map_cons, List.sum_cons, ih hrest]
        by_cases hai : a = i
        · subst hai
          simp [hnot, hi]
        · simp [hai]
      · rw [List.filter_cons_of_neg hi, ih hrest]
        by_cases hai : a = i
        · subst hai
          simp [hi]
        · simp [hai]

/-- **The running sum of nets.** Over any list of distinct ticks that has both bounds of every
position with liquidity, the nets of the ticks up to `t` add up to the liquidity in range at `t`. -/
theorem sum_netAt {is : List Int} (hnodup : is.Nodup) (h : Ranged positions)
    (hbounds : ∀ p ∈ positions, p.liquidity ≠ 0 → p.lower ∈ is ∧ p.upper ∈ is) (t : Int) :
    ((is.filter (decide <| · ≤ t)).map (netAt positions)).sum = liquidityAt positions t := by
  induction positions with
  | nil =>
      have hzero : netAt [] = fun _ => 0 := rfl
      simp [hzero, liquidityAt]
  | cons p rest ih =>
      have hrest := ih (fun q hq => h q (List.mem_cons_of_mem _ hq))
        fun q hq => hbounds q (List.mem_cons_of_mem _ hq)
      have hhead : ((is.filter (decide <| · ≤ t)).map p.netAt).sum =
          ((if p.Covers t then p.liquidity else 0 : Nat) : Int) := by
        -- the position counts at its two bounds, once with each sign
        have hnet : p.netAt = fun i => (if p.lower = i then (p.liquidity : Int) else 0) +
            if p.upper = i then -(p.liquidity : Int) else 0 := by
          funext i
          simp only [Position.netAt]
          split_ifs <;> omega
        rw [hnet, List.sum_map_add, sum_filter_ite_eq hnodup, sum_filter_ite_eq hnodup]
        by_cases hp : p.liquidity = 0
        · simp [hp]
        · obtain ⟨-, hlt, -⟩ := h p List.mem_cons_self hp
          obtain ⟨hlower, hupper⟩ := hbounds p List.mem_cons_self hp
          simp only [hlower, hupper, true_and, decide_eq_true_eq]
          rw [Nat.cast_ite, Nat.cast_zero]
          by_cases hcovers : p.Covers t
          · rw [if_pos hcovers]
            rw [Position.covers_iff] at hcovers
            split_ifs <;> omega
          · rw [if_neg hcovers]
            rw [Position.covers_iff] at hcovers
            split_ifs <;> omega
      have hsplit : ((is.filter (decide <| · ≤ t)).map (netAt (p :: rest))).sum =
          ((is.filter (decide <| · ≤ t)).map p.netAt).sum +
            ((is.filter (decide <| · ≤ t)).map (netAt rest)).sum := by
        rw [← List.sum_map_add]
        rfl
      rw [hsplit, hhead, hrest]
      simp only [liquidityAt]
      rw [List.map_cons, List.sum_cons, Nat.cast_add]

end Clmm
