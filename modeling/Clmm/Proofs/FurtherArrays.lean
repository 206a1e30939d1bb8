import Clmm.Proofs.FailedSwap

/-!
# Clmm.Proofs.FurtherArrays

**Arrays behind those that a swap needs change nothing** (`swap_append`): a swap that succeeds succeeds
with any further arrays too, with the same result, and leaves them as they were.

The supplied arrays are taken one by one, by their places, so a search that succeeds never asks whether
there are any behind its end (`Sought`). Two walks therefore go alike, one of them with more arrays behind
its place (`Walk.withMore`). Both cross the same places, all of them among the first arrays (`Within`).
-/

namespace Clmm

open Outcome

namespace Swap

variable {c : Course} {w w' moved : Walk} {s : SwapStep} {t tick : Int} {index n : Nat}
  {a : TickArray} {arrays rest : List TickArray} {found : Option (Cursor × Nat)}
  {cursor : Option Cursor}

/-! ### Searching the supplied arrays -/

/-- The course of a search that succeeds: it ends in its array, or for good, or goes on in the next
array. -/
inductive Sought (c : Course) (tick : Int) :
    Nat → TickArray → List TickArray → Option (Cursor × Nat) → Prop
  | inside {index : Nat} {a : TickArray} {rest : List TickArray} {offset : Nat}
      (hin : a.nextUsed? tick c.spacing c.direction = .ok (some offset)) :
      Sought c tick index a rest (some (⟨index, a, rest⟩, offset))
  | nothing {index : Nat} {a : TickArray} {rest : List TickArray}
      (hin : a.nextUsed? tick c.spacing c.direction = .ok none)
      (hview : c.view.nextUsed? a.start c.direction = .ok none) : Sought c tick index a rest none
  | next {index : Nat} {a b : TickArray} {rest : List TickArray} {found : Option (Cursor × Nat)}
      (hin : a.nextUsed? tick c.spacing c.direction = .ok none)
      (hview : c.view.nextUsed? a.start c.direction = .ok (some b.start))
      (hrest : Sought c tick (index + 1) b rest found) : Sought c tick index a (b :: rest) found

theorem sought_of_seek (h : seek c tick index a rest = .ok found) :
    Sought c tick index a rest found := by
  induction rest generalizing index a with
  | nil =>
      rcases seek_cases h with ⟨_, hin, rfl⟩ | ⟨hin, ⟨hview, rfl⟩ | ⟨_, _, hrest, -⟩⟩
      · exact .inside hin
      · exact .nothing hin hview
      · cases hrest
  | cons b rest ih =>
      rcases seek_cases h with ⟨_, hin, rfl⟩ | ⟨hin, ⟨hview, rfl⟩ | ⟨_, _, hrest, hview, hseek⟩⟩
      · exact .inside hin
      · exact .nothing hin hview
      · obtain ⟨rfl, rfl⟩ := List.cons.inj hrest
        exact .next hin hview (ih hseek)

theorem Sought.seek_eq (h : Sought c tick index a rest found) :
    seek c tick index a rest = .ok found := by
  induction h with
  | inside hin =>
      unfold seek
      rw [hin]
      rfl
  | nothing hin hview =>
      unfold seek
      rw [hin, ok_bind, hview]
      rfl
  | next hin hview _ ih =>
      unfold seek
      rw [hin, ok_bind, hview, ok_bind]
      dsimp only
      rw [require, if_pos rfl]
      exact ih

/-! ### More arrays than a swap needs -/

/-- The place with more arrays behind it. -/
def Cursor.withMore (k : Cursor) (more : List TickArray) : Cursor := { k with rest := k.rest ++ more }

/-- The walk with more arrays behind its place. -/
def Walk.withMore (w : Walk) (more : List TickArray) : Walk :=
  { w with cursor := w.cursor.map (·.withMore more) }

/-- What a search found, with more arrays behind the place. -/
def foundWithMore (found : Option (Cursor × Nat)) (more : List TickArray) : Option (Cursor × Nat) :=
  found.map fun place => (place.1.withMore more, place.2)

theorem Sought.withMore (h : Sought c tick index a rest found) (more : List TickArray) :
    Sought c tick index a (rest ++ more) (foundWithMore found more) := by
  induction h with
  | inside hin => exact .inside hin
  | nothing hin hview => exact .nothing hin hview
  | next hin hview _ ih => exact .next hin hview ih

theorem target_withMore (h : target c w = .ok found) (more : List TickArray) :
    target c (w.withMore more) = .ok (foundWithMore found more) := by
  simp only [target, Walk.withMore] at h ⊢
  cases hcursor : w.cursor with
  | none =>
      rw [hcursor] at h
      obtain rfl := Except.ok.inj h
      rfl
  | some k =>
      rw [hcursor] at h
      exact ((sought_of_seek h).withMore more).seek_eq

theorem bound_withMore (found : Option (Cursor × Nat)) (more : List TickArray) :
    bound c (w.withMore more) (foundWithMore found more) = bound c w found := by
  cases found with
  | none => rfl
  | some place => rfl

theorem settleStep_withMore (h : settleStep c w s = .ok moved) (more : List TickArray) :
    settleStep c (w.withMore more) s = .ok (moved.withMore more) := by
  simp only [settleStep, bind_eq_ok] at h ⊢
  obtain ⟨paid, hpaid, remaining, hremaining, calculated, hcalculated, split, hsplit, fee, hfee,
    protocolFee, hprotocol, fundFee, hfund, growth, hgrowth, h⟩ := h
  obtain rfl := Except.ok.inj h
  exact ⟨paid, hpaid, remaining, hremaining, calculated, hcalculated, split, hsplit, fee, hfee,
    protocolFee, hprotocol, fundFee, hfund, growth, hgrowth, rfl⟩

theorem crossTick_withMore {k : Cursor} {offset : Nat} (h : crossTick c w k offset = .ok w')
    (more : List TickArray) :
    crossTick c (w.withMore more) (k.withMore more) offset = .ok (w'.withMore more) := by
  simp only [crossTick] at h ⊢
  obtain ⟨before, hbefore, h⟩ := bind_eq_ok.1 h
  refine bind_eq_ok.2 ⟨before, hbefore, ?_⟩
  cases hd : c.direction with
  | down =>
      simp only [hd] at h ⊢
      obtain ⟨delta, hdelta, h⟩ := bind_eq_ok.1 h
      obtain ⟨liquidity, hliquidity, h⟩ := bind_eq_ok.1 h
      obtain rfl := Except.ok.inj h
      exact bind_eq_ok.2 ⟨delta, hdelta, bind_eq_ok.2 ⟨liquidity, hliquidity, rfl⟩⟩
  | up =>
      simp only [hd] at h ⊢
      obtain ⟨delta, hdelta, h⟩ := bind_eq_ok.1 h
      obtain ⟨liquidity, hliquidity, h⟩ := bind_eq_ok.1 h
      obtain rfl := Except.ok.inj h
      exact bind_eq_ok.2 ⟨delta, hdelta, bind_eq_ok.2 ⟨liquidity, hliquidity, rfl⟩⟩

theorem arriveAt_withMore (h : arriveAt c found t w = .ok w') (more : List TickArray) :
    arriveAt c (foundWithMore found more) t (w.withMore more) = .ok (w'.withMore more) := by
  simp only [arriveAt] at h ⊢
  cases found with
  | none =>
      obtain rfl := Except.ok.inj h
      rfl
  | some place =>
      dsimp only [foundWithMore, Option.map_some] at h ⊢
      obtain ⟨arrived, hcross, h⟩ := bind_eq_ok.1 h
      obtain rfl := Except.ok.inj h
      rw [crossTick_withMore hcross more]
      rfl

/-- **A step does not look at the arrays behind those it needs.** -/
theorem step_withMore (h : step c w = .ok w') (more : List TickArray) :
    step c (w.withMore more) = .ok (w'.withMore more) := by
  rw [step_eq] at h ⊢
  obtain ⟨found, htarget, h⟩ := bind_eq_ok.1 h
  obtain ⟨t, ht, h⟩ := bind_eq_ok.1 h
  obtain ⟨price, hprice, h⟩ := bind_eq_ok.1 h
  obtain ⟨s, hs, h⟩ := bind_eq_ok.1 h
  obtain ⟨moved, hmoved, h⟩ := bind_eq_ok.1 h
  have hcursor : { w.withMore more with cursor := (foundWithMore found more).map (·.1) } =
      Walk.withMore { w with cursor := found.map (·.1) } more := by
    cases found <;> rfl
  rw [target_withMore htarget, ok_bind, bound_withMore, ht, ok_bind, hprice, ok_bind, hcursor]
  refine bind_eq_ok.2 ⟨s, hs, bind_eq_ok.2 ⟨moved.withMore more, settleStep_withMore hmoved more, ?_⟩⟩
  by_cases harrived : s.sqrtPrice = price
  · rw [if_pos harrived] at h ⊢
    exact arriveAt_withMore h more
  · rw [if_neg harrived] at h ⊢
    by_cases hsame : s.sqrtPrice ≠ w.sqrtPrice
    · rw [if_pos hsame] at h
      obtain ⟨u, hu, h⟩ := bind_eq_ok.1 h
      obtain rfl := Except.ok.inj h
      exact (if_pos hsame).trans (bind_eq_ok.2 ⟨u, hu, rfl⟩)
    · rw [if_neg hsame] at h
      obtain rfl := Except.ok.inj h
      exact if_neg hsame

theorem walk_withMore (h : walk c n w = .ok w') (more : List TickArray) :
    walk c n (w.withMore more) = .ok (w'.withMore more) := by
  have hsame : ∀ v : Walk, isDone c (v.withMore more) = isDone c v := fun _ => rfl
  induction n generalizing w with
  | zero =>
      simp only [walk] at h ⊢
      rw [hsame]
      by_cases hdone : isDone c w
      · rw [if_pos hdone] at h ⊢
        rw [Except.ok.inj h]
      · rw [if_neg hdone] at h
        cases h
  | succ n ih =>
      simp only [walk] at h ⊢
      rw [hsame]
      by_cases hdone : isDone c w
      · rw [if_pos hdone] at h ⊢
        rw [Except.ok.inj h]
      · rw [if_neg hdone] at h ⊢
        obtain ⟨next, hnext, h⟩ := bind_eq_ok.1 h
        exact bind_eq_ok.2 ⟨next.withMore more, step_withMore hnext more, ih h⟩

theorem firstCursor_withMore (h : firstCursor c arrays tick = .ok cursor) (more : List TickArray) :
    firstCursor c (arrays ++ more) tick = .ok (cursor.map (·.withMore more)) := by
  simp only [firstCursor] at h ⊢
  obtain ⟨first, hfirst, h⟩ := bind_eq_ok.1 h
  refine bind_eq_ok.2 ⟨first, hfirst, ?_⟩
  cases first with
  | none =>
      obtain rfl := Except.ok.inj h
      rfl
  | some start =>
      cases arrays with
      | nil => cases h
      | cons a rest =>
          obtain ⟨_, hstart, h⟩ := bind_eq_ok.1 h
          obtain rfl := Except.ok.inj h
          exact bind_eq_ok.2 ⟨_, hstart, rfl⟩

/-! ### What a swap writes -/

/-- The walk's place and its crossings lie among the first `n` supplied arrays. -/
structure Within (n : Nat) (w : Walk) : Prop where
  place : ∀ k ∈ w.cursor, k.index + k.rest.length < n
  crossings : ∀ x ∈ w.crossings, x.index < n

theorem Sought.index_add_length (h : Sought c tick index a rest found) :
    ∀ place ∈ found, place.1.index + place.1.rest.length = index + rest.length := by
  induction h with
  | inside =>
      intro place hplace
      obtain rfl := Option.mem_some_iff.1 hplace
      rfl
  | nothing =>
      intro place hplace
      cases hplace
  | next _ _ _ ih =>
      intro place hplace
      rw [ih place hplace, List.length_cons]
      omega

/-- A search stays among the arrays that the walk has. -/
theorem Within.of_target (h : Within n w) (htarget : target c w = .ok found) :
    ∀ place ∈ found, place.1.index + place.1.rest.length < n := by
  simp only [target] at htarget
  cases hcursor : w.cursor with
  | none =>
      rw [hcursor] at htarget
      obtain rfl := Except.ok.inj htarget
      intro place hplace
      cases hplace
  | some k =>
      rw [hcursor] at htarget
      intro place hplace
      rw [(sought_of_seek htarget).index_add_length place hplace]
      exact h.place k hcursor

theorem within_of_step (hw : Within n w) (h : step c w = .ok w') : Within n w' := by
  obtain ⟨found, t, s, split, growth, moved, hl, hend⟩ := step_cases h
  have hplaces := hw.of_target hl.target_eq
  have hcrossings : moved.crossings = w.crossings := by rw [hl.settled.rest]
  have hmoved : Within n moved := by
    refine ⟨?_, hcrossings ▸ hw.crossings⟩
    have hcursor : moved.cursor = found.map (·.1) := by rw [hl.settled.rest]
    rw [hcursor]
    intro k hk
    obtain ⟨place, hplace, rfl⟩ := Option.mem_map.1 hk
    exact hplaces place hplace
  cases hend with
  | @crosses k offset arrived _ hcross =>
      obtain ⟨_, liquidity, -, rfl⟩ := crossTick_eq_ok hcross
      refine ⟨hmoved.place, fun x hx => ?_⟩
      rcases List.mem_append.1 hx with hold | hnew
      · exact hmoved.crossings x hold
      · rw [List.mem_singleton.1 hnew]
        exact Nat.lt_of_le_of_lt (Nat.le_add_right _ _) (hplaces _ rfl)
  | reachesEdge => exact ⟨hmoved.place, hmoved.crossings⟩
  | stops => exact ⟨hmoved.place, hmoved.crossings⟩
  | stays => exact hmoved

theorem within_start {pool : Pool} {r : SwapRequest}
    (h : firstCursor c arrays tick = .ok cursor) : Within arrays.length (start pool r cursor) := by
  refine ⟨?_, fun x hx => absurd hx List.not_mem_nil⟩
  simp only [firstCursor] at h
  obtain ⟨first, -, h⟩ := bind_eq_ok.1 h
  intro k hk
  cases first with
  | none =>
      obtain rfl := Except.ok.inj h
      cases hk
  | some start =>
      cases arrays with
      | nil => cases h
      | cons a rest =>
          obtain ⟨_, -, h⟩ := bind_eq_ok.1 h
          obtain rfl := Except.ok.inj h
          obtain rfl := Option.mem_some_iff.1 hk
          simp

theorem modify_append {α : Type} {l more : List α} {i : Nat} (h : i < l.length) (f : α → α) :
    (l ++ more).modify i f = l.modify i f ++ more := by
  induction l generalizing i with
  | nil => exact absurd h (Nat.not_lt_zero _)
  | cons x l ih =>
      cases i with
      | zero => rfl
      | succ i =>
          rw [List.cons_append, List.modify_succ_cons, List.modify_succ_cons, List.cons_append,
            ih (Nat.lt_of_succ_lt_succ h)]

/-- Crossings among the first arrays are written into these. -/
theorem writeCrossings_append {crossings : List Crossing} (h : ∀ x ∈ crossings, x.index < arrays.length)
    (more : List TickArray) :
    writeCrossings (arrays ++ more) crossings = writeCrossings arrays crossings ++ more := by
  simp only [writeCrossings]
  induction crossings generalizing arrays with
  | nil => rfl
  | cons x crossings ih =>
      rw [List.foldl_cons, List.foldl_cons, modify_append (h x List.mem_cons_self)]
      refine ih fun y hy => ?_
      rw [List.length_modify]
      exact h y (List.mem_cons_of_mem _ hy)

section Swapping

variable {config : FeeConfig} {pool : Pool} {extension : Option BitmapExtension} {r : SwapRequest}
  {time : Nat} {result : SwapResult} {b' : SwapBook}

theorem quote_withMore (h : quote config ⟨pool, arrays⟩ extension r time = .ok (w, result))
    (more : List TickArray) :
    quote config ⟨pool, arrays ++ more⟩ extension r time = .ok (w.withMore more, result) ∧
      ∀ x ∈ w.crossings, x.index < arrays.length := by
  simp only [quote] at h ⊢
  obtain ⟨_, hamount, h⟩ := bind_eq_ok.1 h
  obtain ⟨_, hopen, h⟩ := bind_eq_ok.1 h
  obtain ⟨_, hlimit, h⟩ := bind_eq_ok.1 h
  obtain ⟨c, hc, h⟩ := bind_eq_ok.1 h
  obtain ⟨cursor, hcursor, h⟩ := bind_eq_ok.1 h
  obtain ⟨w₁, hwalk, h⟩ := bind_eq_ok.1 h
  obtain ⟨result₁, hsettle, h⟩ := bind_eq_ok.1 h
  obtain ⟨rfl, rfl⟩ := Prod.mk.inj (Except.ok.inj h)
  have hstart : Within arrays.length (start pool r cursor) := within_start hcursor
  have hcrossings := (walk_induct within_of_step hstart hwalk).crossings
  refine ⟨bind_eq_ok.2 ⟨_, hamount, bind_eq_ok.2 ⟨_, hopen, bind_eq_ok.2 ⟨_, hlimit,
    bind_eq_ok.2 ⟨c, hc, bind_eq_ok.2 ⟨_, firstCursor_withMore hcursor more,
    bind_eq_ok.2 ⟨w₁.withMore more, walk_withMore hwalk more, bind_eq_ok.2 ⟨result₁, hsettle, rfl⟩⟩⟩⟩⟩⟩⟩,
    hcrossings⟩

/-- Writing a finished walk leaves further arrays as they were. -/
theorem commit_withMore {d : Direction} {b : SwapBook} (h : commit d w result b = .ok () b')
    (hcrossings : ∀ x ∈ w.crossings, x.index < b.arrays.length) (more : List TickArray) :
    commit d (w.withMore more) result ⟨b.pool, b.arrays ++ more⟩ =
      .ok () ⟨b'.pool, b'.arrays ++ more⟩ := by
  simp only [commit] at h ⊢
  simp only [Update.bind_eq_ok, Update.modify_eq_ok] at h ⊢
  obtain ⟨_, _, rfl, _, _, hfees, hvolume⟩ := h
  obtain ⟨p₁, haccrue, rfl⟩ := onPool_eq_ok.1 hfees
  obtain ⟨p₂, hrecord, rfl⟩ := onPool_eq_ok.1 hvolume
  refine ⟨(), _, rfl, (), _, onPool_eq_ok.2 ⟨p₁, haccrue, rfl⟩, onPool_eq_ok.2 ⟨p₂, hrecord, ?_⟩⟩
  exact congrArg (SwapBook.mk p₂) (writeCrossings_append hcrossings more).symm

/-- **More arrays change nothing**, and are left as they were. -/
theorem swap_append (h : Clmm.swap config extension r time ⟨pool, arrays⟩ = .ok result b')
    (more : List TickArray) :
    Clmm.swap config extension r time ⟨pool, arrays ++ more⟩ =
      .ok result ⟨b'.pool, b'.arrays ++ more⟩ := by
  simp only [Clmm.swap] at h ⊢
  simp only [Update.bind_eq_ok, Update.get_eq_ok, Update.lift_eq_ok, Update.pure_eq_ok] at h ⊢
  obtain ⟨_, _, ⟨rfl, rfl⟩, ⟨w, result₁⟩, _, ⟨hquote, rfl⟩, _, _, hcommit, rfl, rfl⟩ := h
  obtain ⟨hquote', hcrossings⟩ := quote_withMore hquote more
  exact ⟨_, _, ⟨rfl, rfl⟩, (w.withMore more, result), _, ⟨hquote', rfl⟩, (), _,
    commit_withMore hcommit hcrossings more, rfl, rfl⟩

end Swapping

end Swap

end Clmm
