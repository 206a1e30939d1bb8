import Clmm.Proofs.Halting

/-!
# Clmm.Proofs.LoopBounds

**The loops of a swap end, whatever it is given** (`every_swap_ends`). Nothing is assumed of the pool, the
bitmap and the supplied arrays, and they need not fit together.

* The inner loop, `seek`, takes the supplied arrays one after the other. It goes on where the step before
  left off, so that over a whole walk it passes each array at most once. To say so, `countedSeek` and
  `countedWalk` count how often it moves on, beside what `seek` and `walk` give.
* The outer loop, `walk`, could only be short of steps. From the first step on, the tick of the walk is in
  the tick range and moves on with every step that leaves something to do (`Progresses`); so `stepLimit`
  steps are always enough, and more of them change nothing (`walk_add_stepLimit`).
-/

namespace Clmm.Swap

open Outcome

/-! ### The inner loop -/

section Counting

variable {c : Course} {w w' : Walk} {tick : Int} {index offset n : Nat} {a : TickArray}
  {arrays rest : List TickArray} {k k' : Cursor}

/-- `seek`, and how often it moves on to the next of the supplied arrays. -/
def countedSeek (c : Course) (tick : Int) (index : Nat) (a : TickArray) (rest : List TickArray) :
    Nat × Outcome (Option (Cursor × Nat)) :=
  match a.nextUsed? tick c.spacing c.direction with
  | .error e => (0, .error e)
  | .ok (some offset) => (0, .ok (some (⟨index, a, rest⟩, offset)))
  | .ok none =>
    match c.view.nextUsed? a.start c.direction with
    | .error e => (0, .error e)
    | .ok none => (0, .ok none)
    | .ok (some start) =>
      match rest with
      | [] => (0, .error (.refused .outOfTickArrays))
      | b :: rest =>
        if b.start = start then
          ((countedSeek c tick (index + 1) b rest).1 + 1, (countedSeek c tick (index + 1) b rest).2)
        else (0, .error (.refused .arrayNotLoaded))

/-- How often the next step of a walk moves on to the next of the supplied arrays. -/
def Walk.moves (c : Course) (w : Walk) : Nat :=
  match w.cursor with
  | some k => (countedSeek c w.tick k.index k.array k.rest).1
  | none => 0

/-- `walk`, and how often all its steps together move on to the next of the supplied arrays. -/
def countedWalk (c : Course) : Nat → Walk → Nat × Outcome Walk
  | 0, w => (0, if isDone c w then .ok w else .error .unfinished)
  | n + 1, w =>
    if isDone c w then (0, .ok w)
    else
      match step c w with
      | .error e => (w.moves c, .error e)
      | .ok w' => (w.moves c + (countedWalk c n w').1, (countedWalk c n w').2)

/-- Counting does not change what a search gives. -/
theorem countedSeek_value : (countedSeek c tick index a rest).2 = seek c tick index a rest := by
  fun_induction countedSeek c tick index a rest with
  | case1 index a rest e hin =>
      unfold seek
      rw [hin]
      rfl
  | case2 index a rest offset hin =>
      unfold seek
      rw [hin]
      rfl
  | case3 index a rest hin e hview =>
      unfold seek
      rw [hin, ok_bind, hview]
      rfl
  | case4 index a rest hin hview =>
      unfold seek
      rw [hin, ok_bind, hview]
      rfl
  | case5 index a hin start hview =>
      unfold seek
      rw [hin, ok_bind, hview]
      rfl
  | case6 index a hin b rest hview ih =>
      unfold seek
      rw [hin, ok_bind, hview, ok_bind]
      dsimp only
      rw [require, if_pos rfl, ok_bind, ih]
  | case7 index a hin start hview b rest hstart =>
      unfold seek
      rw [hin, ok_bind, hview, ok_bind]
      dsimp only
      rw [require, if_neg hstart]
      rfl

/-- Counting does not change what a walk gives. -/
theorem countedWalk_value : (countedWalk c n w).2 = walk c n w := by
  induction n generalizing w with
  | zero => rfl
  | succ n ih =>
      simp only [countedWalk, walk]
      by_cases hdone : isDone c w = true
      · rw [if_pos hdone, if_pos hdone]
      · rw [if_neg hdone, if_neg hdone]
        cases step c w with
        | error e => rfl
        | ok w' => exact ih

/-- A search moves on within the supplied arrays. -/
theorem countedSeek_le : (countedSeek c tick index a rest).1 ≤ rest.length := by
  fun_induction countedSeek c tick index a rest with
  | case6 index a hin b rest hview ih => exact Nat.succ_le_succ ih
  | _ => exact Nat.zero_le _

/-- A search ends at the array to which it moved on. -/
theorem place_of_countedSeek (h : (countedSeek c tick index a rest).2 = .ok (some (k, offset))) :
    k.index = index + (countedSeek c tick index a rest).1 ∧
      k.rest = rest.drop (countedSeek c tick index a rest).1 := by
  fun_induction countedSeek c tick index a rest with
  | case2 index a rest offset hin =>
      obtain ⟨rfl, -⟩ := Prod.mk.inj (Option.some.inj (Except.ok.inj h))
      exact ⟨rfl, rfl⟩
  | case6 index a hin b rest hview ih =>
      obtain ⟨hindex, hrest⟩ := ih h
      exact ⟨by omega, hrest⟩
  | _ => cases h

/-- How many of the supplied arrays a walk has before it. -/
def Walk.arraysAhead (w : Walk) : Nat :=
  match w.cursor with
  | some k => k.rest.length
  | none => 0

theorem moves_le : w.moves c ≤ w.arraysAhead := by
  simp only [Walk.moves, Walk.arraysAhead]
  cases w.cursor with
  | some k => exact countedSeek_le
  | none => exact Nat.le_refl 0

/-- However a step ends, the walk is at the array where the search ended. -/
theorem cursor_of_step (h : step c w = .ok w') :
    ∃ found, target c w = .ok found ∧ w'.cursor = found.map (·.1) := by
  obtain ⟨found, t, s, split, growth, moved, hl, hend⟩ := step_cases h
  have hmoved : moved.cursor = found.map (·.1) := by rw [hl.settled.rest]
  refine ⟨found, hl.target_eq, ?_⟩
  cases hend with
  | crosses _ hcross =>
      obtain ⟨_, _, -, rfl⟩ := crossTick_eq_ok hcross
      exact hmoved
  | reachesEdge => exact hmoved
  | stops => exact hmoved
  | stays => exact hmoved

/-- **A step goes on from the array where the step before ended**, and past no array twice. -/
theorem cursor_moves (h : step c w = .ok w') (hcursor : w'.cursor = some k') :
    ∃ k, w.cursor = some k ∧ k'.index = k.index + w.moves c ∧ k'.rest = k.rest.drop (w.moves c) := by
  obtain ⟨found, htarget, hfound⟩ := cursor_of_step h
  rw [hcursor] at hfound
  simp only [target] at htarget
  simp only [Walk.moves]
  cases hfrom : w.cursor with
  | none =>
      rw [hfrom] at htarget
      obtain rfl := Except.ok.inj htarget
      cases hfound
  | some k =>
      rw [hfrom] at htarget
      cases found with
      | none => cases hfound
      | some place =>
          obtain rfl : k' = place.1 := Option.some.inj hfound
          exact ⟨k, rfl, place_of_countedSeek (countedSeek_value.trans htarget)⟩

/-- What a step moves on is no longer ahead. -/
theorem moves_add_arraysAhead_le (h : step c w = .ok w') :
    w.moves c + w'.arraysAhead ≤ w.arraysAhead := by
  have hle := moves_le (c := c) (w := w)
  cases hcursor : w'.cursor with
  | none =>
      have hnone : w'.arraysAhead = 0 := by
        simp only [Walk.arraysAhead]
        rw [hcursor]
      omega
  | some k' =>
      obtain ⟨k, hfrom, -, hrest⟩ := cursor_moves h hcursor
      have hbefore : w.arraysAhead = k.rest.length := by
        simp only [Walk.arraysAhead]
        rw [hfrom]
      have hafter : w'.arraysAhead = k.rest.length - w.moves c := by
        simp only [Walk.arraysAhead]
        rw [hcursor]
        exact (congrArg List.length hrest).trans List.length_drop
      omega

/-- **All steps together move on within the arrays ahead.** -/
theorem countedWalk_le : (countedWalk c n w).1 ≤ w.arraysAhead := by
  induction n generalizing w with
  | zero => exact Nat.zero_le _
  | succ n ih =>
      simp only [countedWalk]
      by_cases hdone : isDone c w = true
      · rw [if_pos hdone]
        exact Nat.zero_le _
      · rw [if_neg hdone]
        cases hstep : step c w with
        | error e => exact moves_le
        | ok w' => exact (Nat.add_le_add_left ih _).trans (moves_add_arraysAhead_le hstep)

/-- A walk sets out at the first of the supplied arrays. -/
theorem arraysAhead_start {pool : Pool} {r : SwapRequest} {cursor : Option Cursor}
    (h : firstCursor c arrays tick = .ok cursor) :
    (start pool r cursor).arraysAhead ≤ arrays.length - 1 := by
  simp only [firstCursor] at h
  rw [bind_eq_ok] at h
  obtain ⟨first, -, h⟩ := h
  cases first with
  | none =>
      obtain rfl := Except.ok.inj h
      exact Nat.zero_le _
  | some start =>
      cases arrays with
      | nil => cases h
      | cons a rest =>
          dsimp only at h
          rw [bind_eq_ok] at h
          obtain ⟨_, -, h⟩ := h
          obtain rfl := Except.ok.inj h
          exact Nat.le_refl _

end Counting

/-! ### The outer loop -/

section Walks

variable {c : Course} {w w' : Walk} {t tick : Int} {n : Nat}

/-- What a step does towards the end of the walk. -/
structure Progresses (c : Course) (w w' : Walk) : Prop where
  /-- It ends the walk or moves its tick on. -/
  onward : isDone c w' = true ∨ c.direction.Beyond w.tick w'.tick
  /-- It reaches its target or uses up what is left. -/
  spent : ∃ found t, Heads c w found t ∧
    (w'.sqrtPrice = nearer c.direction (priceAt t) c.limit ∨ w'.remaining = 0)
  /-- It goes on from the array where the walk was. -/
  resumed : ∀ k', w'.cursor = some k' → ∃ k, w.cursor = some k ∧ k'.index = k.index + w.moves c

/-- From a tick ahead the walk is moved on. -/
theorem beyond_arrive (h : c.direction.Ahead tick t) :
    c.direction.Beyond tick (c.direction.arrive t) := by
  cases hd : c.direction with
  | down =>
      rw [hd] at h
      exact Int.sub_one_lt_of_le h
  | up =>
      rw [hd] at h
      exact h

/-- **Every step progresses**, from whatever walk it is taken. -/
theorem step_progresses (h : step c w = .ok w') : Progresses c w w' := by
  constructor
  · rcases step_arrives h with hdone | ⟨t, -, -, hahead, htick⟩
    · exact Or.inl hdone
    · right
      rw [htick]
      exact beyond_arrive hahead
  · obtain ⟨found, t, s, split, growth, moved, hl, hend⟩ := step_cases h
    obtain ⟨hprice, hremaining, -⟩ := hend.booked
    refine ⟨found, t, hl.heads, ?_⟩
    rw [hprice, hremaining]
    exact hl.spent
  · intro k' hcursor
    obtain ⟨k, hfrom, hindex, -⟩ := cursor_moves h hcursor
    exact ⟨k, hfrom, hindex⟩

/-- After a step that leaves something to do, the walk is in the tick range. -/
theorem room_lt_of_step (h : step c w = .ok w') : isDone c w' = true ∨ room c w' + 1 < stepLimit := by
  rcases step_arrives h with hdone | ⟨t, hlow, hhigh, -, htick⟩
  · exact Or.inl hdone
  · right
    simp only [minTick] at hlow
    simp only [maxTick] at hhigh
    simp only [room, stepLimit, minTick, maxTick]
    rw [htick]
    cases c.direction with
    | down =>
        simp only [Direction.arrive]
        omega
    | up =>
        simp only [Direction.arrive]
        omega

/-- A walk with room enough does not run out of steps. -/
theorem halts_walk_of_room (h : room c w < n) : Halts (walk c n w) := by
  intro hwalk
  obtain ⟨w', -, -, hstep⟩ := (walk_eq_error_iff h).1 hwalk
  exact halts_step hstep

/-- A walk with room enough does not use more steps. -/
theorem walk_add_of_room {k : Nat} (h : room c w < n) : walk c (n + k) w = walk c n w := by
  induction n generalizing w with
  | zero => exact absurd h (Nat.not_lt_zero _)
  | succ n ih =>
      cases hdone : isDone c w with
      | true => rw [walk_of_isDone hdone, walk_of_isDone hdone]
      | false =>
          rw [Nat.add_right_comm, walk_succ_of_goes hdone, walk_succ_of_goes hdone]
          cases hstep : step c w with
          | error e => rfl
          | ok w' =>
              rcases step_room hstep with hover | hless
              · exact (walk_of_isDone hover).trans (walk_of_isDone hover).symm
              · exact ih (by omega)

/-- **No walk runs out of steps**, wherever it sets out. -/
theorem halts_walk : Halts (walk c stepLimit w) := by
  obtain ⟨n, hn⟩ : ∃ n, stepLimit = n + 1 := ⟨_, rfl⟩
  cases hdone : isDone c w with
  | true =>
      rw [walk_of_isDone hdone]
      exact halts_pure w
  | false =>
      rw [hn, walk_succ_of_goes hdone]
      intro h
      rcases bind_eq_error.1 h with h | ⟨w', hstep, h⟩
      · exact halts_step h
      · -- the step puts the walk into the tick range, if it does not end it
        rcases room_lt_of_step hstep with hover | hroom
        · rw [walk_of_isDone hover] at h
          cases h
        · exact halts_walk_of_room (by omega) h

/-- **More steps change nothing.** -/
theorem walk_add_stepLimit (k : Nat) : walk c (stepLimit + k) w = walk c stepLimit w := by
  obtain ⟨n, hn⟩ : ∃ n, stepLimit = n + 1 := ⟨_, rfl⟩
  cases hdone : isDone c w with
  | true => rw [walk_of_isDone hdone, walk_of_isDone hdone]
  | false =>
      rw [hn, Nat.add_right_comm, walk_succ_of_goes hdone, walk_succ_of_goes hdone]
      cases hstep : step c w with
      | error e => rfl
      | ok w' =>
          rcases room_lt_of_step hstep with hover | hroom
          · exact (walk_of_isDone hover).trans (walk_of_isDone hover).symm
          · exact walk_add_of_room (by omega)

end Walks

/-! ### The swap -/

section Swapping

variable {config : FeeConfig} {book : SwapBook} {extension : Option BitmapExtension} {r : SwapRequest}
  {time : Nat}

theorem halts_quote : Halts (quote config book extension r time) :=
  decides_require.halts.bind fun _ => decides_require.halts.bind fun _ =>
    decides_checkLimit.halts.bind fun _ =>
    (BitmapView.sated_visibleTicks.halts.bind fun _ => halts_pure _).bind fun _ =>
    halts_firstCursor.bind fun _ => halts_walk.bind fun _ =>
    decides_settle.halts.bind fun _ => halts_pure _

/-- **No swap runs out of steps.** -/
theorem swap_ne_unfinished {b' : SwapBook} :
    Clmm.swap config extension r time book ≠ .error .unfinished b' := by
  intro h
  simp only [Clmm.swap] at h
  rcases Update.bind_eq_error.1 h with h | ⟨_, _, hget, h⟩
  · exact Update.get_eq_error.1 h
  rcases Update.bind_eq_error.1 h with h | ⟨result, _, hquote, h⟩
  · exact halts_quote (Update.lift_eq_error.1 h).1
  rcases Update.bind_eq_error.1 h with h | ⟨_, _, -, h⟩
  · obtain ⟨refusal, hrefusal⟩ := decides_commit _ _ h
    cases hrefusal
  · exact Update.pure_eq_error.1 h

/-- **Every swap ends.** The pool, the bitmap, the supplied arrays and the request may be any. A swap does
not run out of steps, and more of them would change nothing. A step of its walk fails, or ends the walk,
or moves the tick on; if it does not reach its target, it uses up what is left; and all steps together
move on through the supplied arrays at most once. -/
theorem every_swap_ends (config : FeeConfig) (book : SwapBook) (extension : Option BitmapExtension)
    (r : SwapRequest) (time : Nat) :
    (∀ b', Clmm.swap config extension r time book ≠ .error .unfinished b') ∧
    ∀ c cursor, course config book.pool extension r = .ok c →
      firstCursor c book.arrays book.pool.tick = .ok cursor →
      (∀ w, (∃ e, e ≠ .unfinished ∧ step c w = .error e) ∨
        ∃ w', step c w = .ok w' ∧ Progresses c w w') ∧
      ∀ n, walk c (stepLimit + n) (start book.pool r cursor) =
          walk c stepLimit (start book.pool r cursor) ∧
        (countedWalk c n (start book.pool r cursor)).2 = walk c n (start book.pool r cursor) ∧
        (countedWalk c n (start book.pool r cursor)).1 ≤ book.arrays.length - 1 := by
  refine ⟨fun b' => swap_ne_unfinished, fun c cursor _ hcursor => ⟨fun w => ?_, fun n => ?_⟩⟩
  · cases hstep : step c w with
    | error e =>
        refine Or.inl ⟨e, ?_, rfl⟩
        rintro rfl
        exact halts_step hstep
    | ok w' => exact Or.inr ⟨w', rfl, step_progresses hstep⟩
  · exact ⟨walk_add_stepLimit n, countedWalk_value, countedWalk_le.trans (arraysAhead_start hcursor)⟩

/-- A pool whose bitmap shows two arrays in use, at 0 and at 600, and these two arrays, both unused. -/
def mismatchedBook : SwapBook :=
  { pool := { Pool.zeroed with
      spacing := 10, sqrtPrice := 2 ^ 64, bitmap := (Vector.replicate _ 0).set 8 3 (by decide) }
    arrays := [{ TickArray.zeroed with start := 0 }, { TickArray.zeroed with start := 600 }] }

/-- There the first step already moves on to the second array, and no step can move on further. -/
theorem every_swap_ends_mismatched : ∃ r c cursor,
    course FeeConfig.zeroed mismatchedBook.pool none r = .ok c ∧
    firstCursor c mismatchedBook.arrays mismatchedBook.pool.tick = .ok cursor ∧
    (∃ w, step c (start mismatchedBook.pool r cursor) = .ok w ∧
      Progresses c (start mismatchedBook.pool r cursor) w) ∧
    (countedWalk c stepLimit (start mismatchedBook.pool r cursor)).1 =
      mismatchedBook.arrays.length - 1 := by
  obtain ⟨c, hc, hrun⟩ := exists_ok_of_any (P := fun c =>
      (firstCursor c mismatchedBook.arrays mismatchedBook.pool.tick).toOption.any fun cursor =>
        let w := start mismatchedBook.pool ⟨1000, 0, 0, .exactIn, .up⟩ cursor
        (step c w).toOption.isSome && (countedWalk c stepLimit w).1 = 1)
    (show (course FeeConfig.zeroed mismatchedBook.pool none
      ⟨1000, 0, 0, .exactIn, .up⟩).toOption.any _ = true by decide +kernel)
  obtain ⟨cursor, hcursor, hrun⟩ := exists_ok_of_any hrun
  simp only [Bool.and_eq_true, decide_eq_true_eq] at hrun
  obtain ⟨hsteps, hmoves⟩ := hrun
  have hends := (every_swap_ends FeeConfig.zeroed mismatchedBook none ⟨1000, 0, 0, .exactIn, .up⟩ 0).2
    c cursor hc hcursor
  refine ⟨_, c, cursor, hc, hcursor, ?_, hmoves⟩
  rcases hends.1 (start mismatchedBook.pool ⟨1000, 0, 0, .exactIn, .up⟩ cursor) with ⟨e, -, he⟩ | hstep
  · rw [he] at hsteps
    cases hsteps
  · exact hstep

end Swapping

end Clmm.Swap
