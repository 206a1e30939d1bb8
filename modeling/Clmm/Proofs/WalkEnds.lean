import Clmm.Proofs.Faults
import Clmm.Proofs.Afoot

/-!
# Clmm.Proofs.WalkEnds

**Every walk ends.** A step that leaves something to do ends at its bound, which lies ahead
(`step_arrives`), so it moves the walk's tick on and leaves less room up to the end of the tick range
(`step_room`). A walk with room enough does not run out of steps: it fails only with the failure of one of
its steps (`walk_eq_error_iff`). The walks on the way to that step are those that come of the first one
(`Comes`).
-/

namespace Clmm.Swap

open Outcome

variable {c : Course} {w w' w'' moved : Walk} {t : Int} {s : SwapStep} {split : FeeSplit}
  {growth : Growth} {found : Option (Cursor × Nat)} {n : Nat}

/-! ### When a walk is over -/

theorem isDone_iff : isDone c w = true ↔ w.remaining = 0 ∨ w.sqrtPrice = c.limit := by
  simp [isDone]

theorem isDone_eq_false_iff : isDone c w = false ↔ w.remaining ≠ 0 ∧ w.sqrtPrice ≠ c.limit := by
  simp [isDone]

/-! ### Room for steps -/

/-- How many ticks of the range lie ahead of a walk. -/
def room (c : Course) (w : Walk) : Nat :=
  match c.direction with
  | .down => (w.tick - minTick + 1).toNat
  | .up => (maxTick - w.tick).toNat

theorem room_lt_stepLimit (hmin : minTick ≤ w.tick) (hmax : w.tick ≤ maxTick) :
    room c w < stepLimit := by
  simp only [minTick] at hmin
  simp only [maxTick] at hmax
  simp only [room, stepLimit, minTick, maxTick]
  cases c.direction with
  | down =>
      dsimp only
      omega
  | up =>
      dsimp only
      omega

/-- Past a tick ahead there is less room. -/
theorem room_arrive (hlow : minTick ≤ t) (hhigh : t ≤ maxTick) (hahead : c.direction.Ahead w.tick t)
    (htick : w'.tick = c.direction.arrive t) : room c w' < room c w := by
  simp only [room]
  rw [htick]
  cases hd : c.direction with
  | down =>
      rw [hd] at hahead
      simp only [Direction.Ahead, Direction.arrive] at *
      omega
  | up =>
      rw [hd] at hahead
      simp only [Direction.Ahead, Direction.arrive] at *
      omega

/-- A step reaches its target or leaves nothing. -/
theorem Leg.spent (hl : Leg c w found t s split growth moved) :
    moved.sqrtPrice = nearer c.direction (priceAt t) c.limit ∨ moved.remaining = 0 := by
  have hsqrt : moved.sqrtPrice = s.sqrtPrice := hl.settled.sqrtPrice_eq
  have hamounts := hl.settled.amounts
  rcases SwapStep.ends_compute hl.computed with htarget | hused
  · exact Or.inl (hsqrt.trans htarget)
  · right
    cases hmode : c.mode with
    | exactIn =>
        rw [hmode] at hused hamounts
        simp only [SwapStep.Exhausts] at hused hamounts
        omega
    | exactOut =>
        rw [hmode] at hused hamounts
        simp only [SwapStep.Exhausts] at hused hamounts
        omega

/-- A step that stops before its bound is the last one: it is at the limit, or nothing is left. -/
theorem Leg.isDone (hl : Leg c w found t s split growth moved) (hprice : s.sqrtPrice ≠ priceAt t) :
    moved.remaining = 0 ∨ moved.sqrtPrice = c.limit := by
  have hsqrt : moved.sqrtPrice = s.sqrtPrice := hl.settled.sqrtPrice_eq
  rcases hl.spent with htarget | hnone
  · -- the target is the nearer one of the bound and the limit
    right
    rw [← hsqrt, htarget] at hprice
    rw [htarget]
    simp only [nearer] at *
    split at hprice <;> omega
  · exact Or.inl hnone

/-- **A step ends the walk or arrives at a tick ahead.** -/
theorem step_arrives (h : step c w = .ok w') : isDone c w' = true ∨
    ∃ t, minTick ≤ t ∧ t ≤ maxTick ∧ c.direction.Ahead w.tick t ∧ w'.tick = c.direction.arrive t := by
  obtain ⟨found, t, s, split, growth, moved, hl, hend⟩ := step_cases h
  cases hend with
  | crosses => exact Or.inr ⟨t, hl.low, hl.high, hl.heads.ahead, rfl⟩
  | reachesEdge => exact Or.inr ⟨t, hl.low, hl.high, hl.heads.ahead, rfl⟩
  | stops hprice => exact Or.inl (isDone_iff.2 (hl.isDone hprice))
  | stays hprice => exact Or.inl (isDone_iff.2 (hl.isDone hprice))

/-- **A step ends the walk or leaves less room.** -/
theorem step_room (h : step c w = .ok w') : isDone c w' = true ∨ room c w' < room c w := by
  rcases step_arrives h with hdone | ⟨t, hlow, hhigh, hahead, htick⟩
  · exact Or.inl hdone
  · exact Or.inr (room_arrive hlow hhigh hahead htick)

/-! ### The walks on the way -/

/-- A walk comes of another by steps, none of them from a walk that is over. -/
inductive Comes (c : Course) : Walk → Walk → Prop
  | here (w : Walk) : Comes c w w
  | step {w w' w'' : Walk} (hgoes : isDone c w = false) (hstep : step c w = .ok w')
      (hcomes : Comes c w' w'') : Comes c w w''

/-- What every step keeps holds on the whole way. -/
theorem Comes.keeps {I : Walk → Prop} (hkeep : ∀ {w w'}, I w → Swap.step c w = .ok w' → I w')
    (h : Comes c w w') (hw : I w) : I w' := by
  induction h with
  | here w => exact hw
  | step _ hstep _ ih => exact ih (hkeep hw hstep)

theorem walk_of_isDone (h : isDone c w = true) : walk c n w = .ok w := by
  cases n with
  | zero => exact if_pos h
  | succ n => exact if_pos h

theorem walk_succ_of_goes (h : isDone c w = false) : walk c (n + 1) w = step c w >>= walk c n := by
  simp only [walk]
  rw [if_neg (by rw [h]; exact Bool.false_ne_true)]

/-- A finished walk comes of the one it began as, and is over. -/
theorem comes_of_walk (h : walk c n w = .ok w') : Comes c w w' ∧ isDone c w' = true := by
  induction n generalizing w with
  | zero =>
      simp only [walk] at h
      by_cases hdone : isDone c w
      · rw [if_pos hdone] at h
        obtain rfl := Except.ok.inj h
        exact ⟨.here w, hdone⟩
      · rw [if_neg hdone] at h
        cases h
  | succ n ih =>
      simp only [walk] at h
      by_cases hdone : isDone c w
      · rw [if_pos hdone] at h
        obtain rfl := Except.ok.inj h
        exact ⟨.here w, hdone⟩
      · rw [if_neg hdone, Outcome.bind_eq_ok] at h
        obtain ⟨next, hnext, h⟩ := h
        obtain ⟨hcomes, hover⟩ := ih h
        exact ⟨.step (Bool.eq_false_iff.2 hdone) hnext hcomes, hover⟩

/-- Nothing comes of a walk that is over. -/
theorem Comes.eq_of_isDone (h : Comes c w w') (hdone : isDone c w = true) : w' = w := by
  cases h with
  | here => rfl
  | step hgoes =>
      rw [hdone] at hgoes
      cases hgoes

/-- Some walk on the way from `w` goes on to a step that fails with `e`. -/
def Fails (c : Course) (w : Walk) (e : Failure) : Prop :=
  ∃ w', Comes c w w' ∧ isDone c w' = false ∧ step c w' = .error e

theorem fails_iff_of_goes {e : Failure} (hgoes : isDone c w = false) :
    Fails c w e ↔ step c w = .error e ∨ ∃ w', step c w = .ok w' ∧ Fails c w' e := by
  constructor
  · intro h
    obtain ⟨w'', hcomes, hlast⟩ := h
    cases hcomes with
    | here => exact Or.inl hlast.2
    | step _ hstep hcomes => exact Or.inr ⟨_, hstep, w'', hcomes, hlast⟩
  · intro h
    rcases h with herror | ⟨w', hstep, w'', hcomes, hlast⟩
    · exact ⟨w, .here w, hgoes, herror⟩
    · exact ⟨w'', .step hgoes hstep hcomes, hlast⟩

theorem not_fails_of_isDone {e : Failure} (hdone : isDone c w = true) : ¬ Fails c w e := by
  intro h
  obtain ⟨w', hcomes, hgoes, -⟩ := h
  rw [hcomes.eq_of_isDone hdone, hdone] at hgoes
  cases hgoes

/-- A walk that is over does not fail, whether it is carried out or followed step by step. -/
theorem walk_eq_error_iff_of_isDone {e : Failure} (hdone : isDone c w = true) :
    walk c n w = .error e ↔ Fails c w e := by
  rw [walk_of_isDone hdone]
  constructor
  · intro h
    cases h
  · intro h
    exact absurd h (not_fails_of_isDone hdone)

/-- **A walk with room enough fails exactly when one of its steps does.** -/
theorem walk_eq_error_iff {e : Failure} (hroom : room c w < n) :
    walk c n w = .error e ↔ Fails c w e := by
  -- the induction is on the steps allowed, of which there are always more than there is room for
  induction n generalizing w with
  | zero => exact absurd hroom (Nat.not_lt_zero _)
  | succ n ih =>
      cases hdone : isDone c w with
      | true => exact walk_eq_error_iff_of_isDone hdone
      | false =>
          have hrest : ∀ w', step c w = .ok w' → (walk c n w' = .error e ↔ Fails c w' e) := by
            intro w' hstep
            rcases step_room hstep with hover | hless
            · exact walk_eq_error_iff_of_isDone hover
            · exact ih (by omega)
          rw [walk_succ_of_goes hdone, bind_eq_error, fails_iff_of_goes hdone]
          exact or_congr_right (exists_congr fun w' => and_congr_right (hrest w'))

/-- **A walk faults when a step on the way does.** -/
theorem faultsIff_walk {P : Walk → Prop} (hroom : room c w < n)
    (hstep : ∀ w', Comes c w w' → isDone c w' = false → FaultsIff (step c w') (P w')) :
    FaultsIff (walk c n w) (∃ w', Comes c w w' ∧ isDone c w' = false ∧ P w') := by
  constructor
  · intro h
    obtain ⟨w', hcomes, hgoes, hP⟩ := h
    exact (walk_eq_error_iff hroom).2 ⟨w', hcomes, hgoes, (hstep w' hcomes hgoes).fault hP⟩
  · intro hnot e he
    obtain ⟨w', hcomes, hgoes, herror⟩ := (walk_eq_error_iff hroom).1 he
    exact (hstep w' hcomes hgoes).decides (fun hP => hnot ⟨w', hcomes, hgoes, hP⟩) e herror

end Clmm.Swap
