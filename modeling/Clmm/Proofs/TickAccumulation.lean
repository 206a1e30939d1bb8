import Clmm.Proofs.Reachable

/-!
# Clmm.Proofs.TickAccumulation

**Which ticks the oracle adds up** (`newest_observation_accumulates`). The oracle is to add up the tick that
was in effect, each interval between two observations weighed by the tick before the swap that ends it. A
swap records the tick that it led to instead, so the newest observation holds the sum of the ticks *after*
the swaps that recorded something. It differs from the sum of the ticks in effect by what those swaps moved
the tick, each move weighed by the time before it.

Only the first swap at a time records something (`recorded`). Times fit in 32 bits and ticks in 20, so the
counter does not wrap around.
-/

namespace Clmm

/-! ### The newest observation -/

namespace Oracle

variable {o o' : Oracle} {time : Nat} {tick : Int}

/-- The newest observation, if there is one. -/
def latest (o : Oracle) : Option Observation := if o.started then o.ring[o.newest]? else none

/-- The first record makes an observation that has added up nothing yet. -/
theorem latest_of_record_none (hlatest : o.latest = none) (h : o.record time tick = .ok o') :
    o'.latest = some ⟨time, 0⟩ := by
  simp only [latest] at hlatest
  simp only [record] at h
  cases hstarted : o.started with
  | false =>
      simp only [hstarted] at h
      obtain rfl := Except.ok.inj h
      simp [latest]
  | true =>
      -- a ring that was begun has a newest observation, or faults
      simp only [hstarted, if_true] at hlatest
      have hplace : ¬ o.newest < 32 := fun hlt => by simp [hlt] at hlatest
      simp [hstarted, hplace] at h

/-- A later record adds up its tick for the time since the one before, if there was any. -/
theorem latest_of_record {last : Observation} (hlatest : o.latest = some last)
    (h : o.record time tick = .ok o') : o'.latest = some (if time ≤ last.time then last else
      ⟨time, last.cumulative + BitVec.ofInt 64 (tick * ((time - last.time : Nat) : Int))⟩) := by
  have hnewest := hlatest
  simp only [latest] at hlatest
  simp only [record] at h
  cases hstarted : o.started with
  | false => simp [hstarted] at hlatest
  | true =>
      simp only [hstarted, if_true] at hlatest
      obtain ⟨hplace, rfl⟩ := Vector.getElem?_eq_some_iff.1 hlatest
      simp only [hstarted, hplace, Bool.not_true, Bool.false_eq_true, if_false, dif_pos] at h
      by_cases hold : time ≤ o.ring[o.newest].time
      · rw [if_pos hold] at h ⊢
        rw [← Except.ok.inj h]
        exact hnewest
      · rw [if_neg hold] at h ⊢
        obtain rfl := Except.ok.inj h
        have hnext : (o.newest + 1) % 32 < 32 := Nat.mod_lt _ (by decide)
        simp [latest, hnext]

end Oracle

/-! ### Histories -/

/-- A swap, as the oracle may see it: its time and the pool's tick just before and just after it. -/
structure Trade where
  time : Nat
  before : Int
  after : Int

/-- Of the swaps of a history, newest first, those at whose time there was no earlier one. -/
def recorded : List Trade → List Trade
  | [] => []
  | t :: earlier => if ∃ u ∈ earlier, u.time = t.time then recorded earlier else t :: recorded earlier

/-- The sum of a quantity of swaps, newest first, each weighed by the time since the swap before. -/
def accumulated (f : Trade → Int) : List Trade → Int
  | t :: last :: earlier => f t * (t.time - last.time) + accumulated f (last :: earlier)
  | _ => 0

section Histories

variable {trades : List Trade} {t r : Trade} {f g : Trade → Int} {bound : Int}

theorem accumulated_sub (f g : Trade → Int) : ∀ trades,
    accumulated (fun t => f t - g t) trades = accumulated f trades - accumulated g trades
  | [] => rfl
  | [_] => rfl
  | t :: last :: earlier => by
      simp only [accumulated]
      rw [accumulated_sub f g (last :: earlier), Int.sub_mul]
      omega

theorem recorded_sublist (trades : List Trade) : (recorded trades).Sublist trades := by
  induction trades with
  | nil => exact List.Sublist.refl _
  | cons t earlier ih =>
      simp only [recorded]
      split
      · exact ih.cons _
      · exact ih.cons_cons _

/-- The first swap of a history records. -/
theorem recorded_ne_nil (h : trades ≠ []) : recorded trades ≠ [] := by
  induction trades with
  | nil => exact h
  | cons t earlier ih =>
      simp only [recorded]
      by_cases hagain : ∃ u ∈ earlier, u.time = t.time
      · rw [if_pos hagain]
        obtain ⟨u, hu, -⟩ := hagain
        exact ih (List.ne_nil_of_mem hu)
      · rw [if_neg hagain]
        exact List.cons_ne_nil _ _

/-- The swaps of a history are in order, newest first. -/
def InOrder (trades : List Trade) : Prop := trades.Pairwise fun t u => u.time ≤ t.time

/-- The newest recorded time is the newest time. -/
theorem time_le_of_recorded {older : List Trade} (hsorted : InOrder trades)
    (h : recorded trades = r :: older) : ∀ u ∈ trades, u.time ≤ r.time := by
  induction trades with
  | nil => cases h
  | cons t earlier ih =>
      obtain ⟨hfirst, hrest⟩ := List.pairwise_cons.1 hsorted
      simp only [recorded] at h
      by_cases hagain : ∃ u ∈ earlier, u.time = t.time
      · rw [if_pos hagain] at h
        obtain ⟨u, hu, htime⟩ := hagain
        exact List.forall_mem_cons.2 ⟨htime ▸ ih hrest h u hu, ih hrest h⟩
      · rw [if_neg hagain] at h
        obtain ⟨rfl, -⟩ := List.cons.inj h
        exact List.forall_mem_cons.2 ⟨Nat.le_refl _, hfirst⟩

/-- A sum of bounded quantities is bounded by the time. -/
theorem accumulated_bounds {older : List Trade} (hsorted : InOrder (r :: older)) (hbound : 0 ≤ bound)
    (hf : ∀ t ∈ r :: older, -bound ≤ f t ∧ f t ≤ bound) :
    -(bound * r.time) ≤ accumulated f (r :: older) ∧ accumulated f (r :: older) ≤ bound * r.time := by
  induction older generalizing r with
  | nil =>
      have := Int.mul_nonneg hbound (Int.natCast_nonneg r.time)
      simp only [accumulated]
      omega
  | cons last earlier ih =>
      obtain ⟨hfirst, hrest⟩ := List.pairwise_cons.1 hsorted
      obtain ⟨hr, hf⟩ := List.forall_mem_cons.1 hf
      obtain ⟨hlow, hhigh⟩ := ih hrest hf
      have hspan : (0 : Int) ≤ r.time - last.time := by
        have := hfirst last List.mem_cons_self
        omega
      have hup := mul_le_mul_of_nonneg_right hr.2 hspan
      have hdown := mul_le_mul_of_nonneg_right hr.1 hspan
      simp only [accumulated]
      constructor
      · linarith
      · linarith

/-- The newest observation of an oracle that has seen a history of swaps. -/
def observation (trades : List Trade) : Option Observation :=
  match recorded trades with
  | [] => none
  | newest :: older => some ⟨newest.time, BitVec.ofInt 64 (accumulated Trade.after (newest :: older))⟩

/-- **What one swap adds to the newest observation.** -/
theorem latest_of_trade {o o' : Oracle} (hlatest : o.latest = observation trades)
    (hsorted : InOrder (t :: trades)) (h : o.record t.time t.after = .ok o') :
    o'.latest = observation (t :: trades) := by
  obtain ⟨hlater, hrest⟩ := List.pairwise_cons.1 hsorted
  simp only [observation] at hlatest ⊢
  simp only [recorded]
  cases hrecorded : recorded trades with
  | nil =>
      have hnone : trades = [] := by_contra fun hne => recorded_ne_nil hne hrecorded
      subst hnone
      rw [o.latest_of_record_none hlatest h]
      rfl
  | cons r older =>
      rw [hrecorded] at hlatest
      rw [o.latest_of_record hlatest h]
      have hmem : r ∈ trades := (recorded_sublist trades).subset (hrecorded ▸ List.mem_cons_self)
      by_cases hagain : ∃ u ∈ trades, u.time = t.time
      · -- there is an observation at this time, so the swap records nothing
        have hle : t.time ≤ r.time := by
          obtain ⟨u, hu, htime⟩ := hagain
          exact htime ▸ time_le_of_recorded hrest hrecorded u hu
        rw [if_pos hle, if_pos hagain]
      · have hlt : r.time < t.time :=
          lt_of_le_of_ne (hlater r hmem) fun heq => hagain ⟨r, hmem, heq⟩
        rw [if_neg (Nat.not_le.2 hlt), if_neg hagain]
        simp only [accumulated]
        rw [← BitVec.ofInt_add, Int.add_comm, Nat.cast_sub hlt.le]

end Histories

namespace Market

/-- The markets that swaps lead to, with their history, newest first: at times that fit in 32 bits and do
not go back. What happens in between does not matter. -/
inductive Traded : Market → List Trade → Prop
  | begun {m : Market} (hattained : Attained m) (hfresh : m.oracle.started = false) : Traded m []
  | performed {m m' : Market} {trades : List Trade} {paid : Payment} (op : Operation)
      (htraded : Traded m trades) (hallows : m.Allows op) (hother : ∀ r time s, op ≠ .swap r time s)
      (hperform : m.perform op = .ok (m', paid)) : Traded m' trades
  | swapped {m m' : Market} {trades : List Trade} {r : SwapRequest} {time : Nat} {s : Supply}
      {result : SwapResult} (htraded : Traded m trades) (hamount : r.amount < 2 ^ 64)
      (htime : time < 2 ^ 32) (hlater : ∀ t ∈ trades, t.time ≤ time)
      (hswap : m.swap r time s = .ok (m', result)) :
      Traded m' (⟨time, m.pool.tick, m'.pool.tick⟩ :: trades)

variable {m m' : Market} {trades : List Trade}

/-- Only swaps are seen by the oracle. -/
theorem oracle_of_performs {op : Operation} {paid : Payment} (h : m.Performs op m' paid)
    (hother : ∀ r time s, op ≠ .swap r time s) : m'.oracle = m.oracle := by
  cases h with
  | setUpArray hadd =>
      obtain ⟨a, -, rfl⟩ := addArray_eq_ok hadd
      rfl
  | setUpPosition => rfl
  | openPosition hincrease =>
      obtain ⟨_, _, -, -, rfl⟩ := runAt_eq_ok hincrease
      rfl
  | increase hincrease =>
      obtain ⟨_, _, -, -, rfl⟩ := runAt_eq_ok hincrease
      rfl
  | decrease hdecrease =>
      obtain ⟨_, _, -, -, rfl⟩ := runAt_eq_ok hdecrease
      rfl
  | swap => exact absurd rfl (hother _ _ _)
  | takeProtocolFees => rfl
  | takeFundFees => rfl

namespace Traded

theorem attained (h : Traded m trades) : Attained m := by
  induction h with
  | begun hattained => exact hattained
  | performed op _ hallows _ hperform ih => exact .performed op ih hallows hperform
  | @swapped m m' _ r time s result _ hamount _ _ hswap ih =>
      have hperform : m.perform (.swap r time s) = .ok (m', swapPayment r.direction result) := by
        simp only [Market.perform]
        rw [hswap]
        rfl
      exact .performed (.swap r time s) ih hamount hperform

theorem inOrder (h : Traded m trades) : InOrder trades := by
  induction h with
  | begun => exact List.Pairwise.nil
  | performed _ _ _ _ _ ih => exact ih
  | swapped _ _ _ hlater _ ih => exact List.pairwise_cons.2 ⟨hlater, ih⟩

/-- The ticks of a history are ticks of the range, and its times have 32 bits. -/
theorem bounds (h : Traded m trades) : ∀ t ∈ trades, t.time < 2 ^ 32 ∧
    (minTick ≤ t.before ∧ t.before ≤ maxTick) ∧ minTick ≤ t.after ∧ t.after ≤ maxTick := by
  induction h with
  | begun => exact fun _ ht => absurd ht List.not_mem_nil
  | performed _ _ _ _ _ ih => exact ih
  | swapped htraded hamount htime hlater hswap ih =>
      have hbefore := htraded.attained.orderly.price
      have hafter := (htraded.swapped hamount htime hlater hswap).attained.orderly.price
      exact List.forall_mem_cons.2
        ⟨⟨htime, ⟨hbefore.min_le, hbefore.le_max⟩, hafter.min_le, hafter.le_max⟩, ih⟩

/-- **The newest observation, after any history.** -/
theorem latest (h : Traded m trades) : m.oracle.latest = observation trades := by
  induction h with
  | begun _ hfresh =>
      simp only [Oracle.latest]
      rw [hfresh]
      rfl
  | performed op _ _ hother hperform ih =>
      rw [oracle_of_performs (performs_of_perform hperform) hother]
      exact ih
  | @swapped m m' trades r time s result htraded hamount htime hlater hswap ih =>
      obtain ⟨_, _, _, b', -, hrecord, hm'⟩ := swap_eq_ok hswap
      have htick : b'.pool.tick = m'.pool.tick := by rw [hm']
      rw [Nat.mod_eq_of_lt htime, htick] at hrecord
      exact latest_of_trade ih (htraded.swapped hamount htime hlater hswap).inOrder hrecord

end Traded

/-- **The oracle adds up the ticks after the swaps.** After any history of swaps, and with anything else done
in between, the newest observation was made by the newest swap that recorded something. It holds the sum of
the ticks to which the recording swaps led, each weighed by the time since the one before. That is the sum of
the ticks in effect exactly if the moves of those swaps, weighed in the same way, cancel out. -/
theorem newest_observation_accumulates (h : Traded m trades) (hne : trades ≠ []) :
    ∃ newest older seen, recorded trades = newest :: older ∧ m.oracle.latest = some seen ∧
      seen.time = newest.time ∧
      seen.cumulative.toInt = accumulated Trade.after (newest :: older) ∧
      (seen.cumulative.toInt = accumulated Trade.before (newest :: older) ↔
        accumulated (fun t => t.after - t.before) (newest :: older) = 0) := by
  obtain ⟨newest, older, hrecorded⟩ := List.exists_cons_of_ne_nil (recorded_ne_nil hne)
  have hsublist := recorded_sublist trades
  have hlatest := h.latest
  simp only [observation] at hlatest
  rw [hrecorded] at hsublist hlatest
  have hsum : (BitVec.ofInt 64 (accumulated Trade.after (newest :: older))).toInt =
      accumulated Trade.after (newest :: older) := by
    obtain ⟨hlow, hhigh⟩ := accumulated_bounds (h.inOrder.sublist hsublist)
      (show 0 ≤ maxTick by decide) (fun t ht => (h.bounds t (hsublist.subset ht)).2.2)
    have htime := (h.bounds newest (hsublist.subset List.mem_cons_self)).1
    simp only [maxTick] at hlow hhigh
    rw [BitVec.toInt_ofInt]
    apply Int.bmod_eq_of_le
    · omega
    · omega
  refine ⟨newest, older, _, hrecorded, hlatest, rfl, hsum, ?_⟩
  rw [hsum, accumulated_sub]
  omega

/-- Two swaps, ten seconds apart, that move the tick down from 5 to 3 and from there to -13. -/
theorem falling_trades : ∃ m, Traded m [⟨110, 3, -13⟩, ⟨100, 5, 3⟩] := by
  obtain ⟨m, total, hsample, hrun⟩ := exists_of_sample (P := fun x =>
      decide (x.1.oracle.started = false ∧ x.1.pool.tick = 5) &&
      (x.1.swap ⟨100, 0, 0, .exactIn, .down⟩ 100 ⟨[0, -600], true⟩).toOption.any
        fun (y : Market × SwapResult) => decide (y.1.pool.tick = 3) &&
          (y.1.swap ⟨900, 0, 0, .exactIn, .down⟩ 110 ⟨[0, -600], true⟩).toOption.any
            fun (z : Market × SwapResult) => decide (z.1.pool.tick = -13))
    (show (sample 10 5 openings).toOption.any _ = true by decide +kernel)
  obtain ⟨hbegins, hrun⟩ := Bool.and_eq_true_iff.1 hrun
  obtain ⟨hfresh, htick⟩ := of_decide_eq_true hbegins
  obtain ⟨⟨m₁, x₁⟩, hfirst, hrun⟩ := exists_ok_of_any hrun
  obtain ⟨htick₁, hrun⟩ := Bool.and_eq_true_iff.1 hrun
  obtain ⟨⟨m₂, x₂⟩, hsecond, htick₂⟩ := exists_ok_of_any hrun
  have htick₁ := of_decide_eq_true htick₁
  have htick₂ := of_decide_eq_true htick₂
  have htraded := ((Traded.begun (reached_of_sample hsample).attained hfresh).swapped (by decide)
    (by decide) (by simp) hfirst).swapped (by decide) (by decide) (by simp) hsecond
  rw [htick, htick₁, htick₂] at htraded
  exact ⟨m₂, htraded⟩

theorem newest_observation_accumulates_falling : ∃ m seen,
    Traded m [⟨110, 3, -13⟩, ⟨100, 5, 3⟩] ∧ m.oracle.latest = some seen ∧ seen.time = 110 ∧
      seen.cumulative.toInt = -130 := by
  obtain ⟨m, htraded⟩ := falling_trades
  obtain ⟨newest, older, seen, hrecorded, hlatest, htime, hsum, -⟩ :=
    newest_observation_accumulates htraded (List.cons_ne_nil _ _)
  obtain ⟨rfl, rfl⟩ := List.cons.inj hrecorded
  exact ⟨m, seen, htraded, hlatest, htime, hsum⟩

/-- The newest observation is not always the sum of the ticks in effect: after ten seconds at tick 3 it
is not 30. -/
theorem not_every_observation_accumulates : ¬ ∀ (m : Market) (trades : List Trade), Traded m trades →
    trades ≠ [] → ∀ seen, m.oracle.latest = some seen →
      seen.cumulative.toInt = accumulated Trade.before (recorded trades) := by
  intro hall
  obtain ⟨m, htraded⟩ := falling_trades
  have heq := hall m _ htraded (List.cons_ne_nil _ _) _ htraded.latest
  exact absurd heq (by decide)

end Market

end Clmm
