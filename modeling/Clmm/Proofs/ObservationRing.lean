import Clmm.Oracle
import Mathlib.Data.List.Induction

/-!
# Clmm.Proofs.ObservationRing

**What the oracle keeps of any history of reports** (`observation_ring`). A report is accepted if it is the
first or later than the last accepted one (`accepted`); any other one changes nothing. Each accepted report
makes an observation, which adds its tick for the time since the observation before (`Sampled`). The ring
holds the last 32 of these at their numbers modulo 32, up to the newest one (`Oracle.Holds`).

An accepted report overwrites one slot. The observations that the ring still has to hold have other slots,
because any 32 numbers in a row differ modulo 32 (`Oracle.Holds.push`); there is no case for the wrap of the
index. The first report needs one: the oracle knows by a flag that the zeros in the ring are no observation.
-/

namespace Clmm

/-- What the oracle is told: a time and the tick for it. -/
structure Report where
  time : Nat
  tick : Int

/-- Whether a report is accepted after the accepted reports `kept`, oldest first. -/
def Accepts (kept : List Report) (r : Report) : Prop := ∀ last ∈ kept.getLast?, last.time < r.time

instance (kept : List Report) (r : Report) : Decidable (Accepts kept r) :=
  inferInstanceAs (Decidable (∀ last ∈ kept.getLast?, last.time < r.time))

/-- The accepted reports of a history, oldest first. -/
def accepted (reports : List Report) : List Report :=
  reports.foldl (fun kept r => if Accepts kept r then kept ++ [r] else kept) []

/-- The observations `seen` are those of the accepted reports `kept`. -/
structure Sampled (kept : List Report) (seen : List Observation) : Prop where
  times : seen.map (·.time) = kept.map (·.time)
  first : ∀ sample ∈ seen.head?, sample.cumulative = 0
  next : ∀ {i last sample r}, seen[i]? = some last → seen[i + 1]? = some sample →
    kept[i + 1]? = some r → sample.cumulative =
      last.cumulative + BitVec.ofInt 64 (r.tick * ((r.time : Int) - last.time))

namespace Oracle

/-- Records the reports of a history, oldest first. -/
def recordAll (o : Oracle) (reports : List Report) : Outcome Oracle :=
  reports.foldlM (fun o r => o.record r.time r.tick) o

/-- Of the observations made so far, the oracle holds the last 32, and nothing else. -/
structure Holds (o : Oracle) (seen : List Observation) : Prop where
  started : o.started = !seen.isEmpty
  newest : o.newest = (seen.length - 1) % 32
  ring : ∀ {i sample}, seen[i]? = some sample → seen.length ≤ i + 32 → o.ring[i % 32]? = some sample
  blank : ∀ {i}, i < 32 → seen.length ≤ i → o.ring[i]? = some ⟨0, 0⟩

end Oracle

/-! ### Accepted reports -/

section Accepting

variable {kept reports : List Report} {seen : List Observation} {r : Report} {last sample : Observation}

theorem accepted_concat (reports : List Report) (r : Report) : accepted (reports ++ [r]) =
    if Accepts (accepted reports) r then accepted reports ++ [r] else accepted reports := by
  simp only [accepted]
  rw [List.foldl_append]
  rfl

/-- A report that is accepted is later than all accepted ones. -/
theorem Accepts.later (h : Accepts kept r) (hkept : kept.Pairwise fun u v => u.time < v.time) :
    ∀ u ∈ kept, u.time < r.time := by
  rcases List.eq_nil_or_concat kept with rfl | ⟨init, last, rfl⟩
  · exact fun u hu => absurd hu List.not_mem_nil
  · rw [List.concat_eq_append] at *
    have hlast : last.time < r.time := h last (by simp)
    obtain ⟨-, -, hinit⟩ := List.pairwise_append.1 hkept
    intro u hu
    rcases List.mem_append.1 hu with hu | hu
    · exact Nat.lt_trans (hinit u hu last (List.mem_singleton_self _)) hlast
    · obtain rfl := List.mem_singleton.1 hu
      exact hlast

/-- The times of accepted reports increase. -/
theorem accepted_increases (reports : List Report) :
    (accepted reports).Pairwise fun u v => u.time < v.time := by
  induction reports using List.reverseRecOn with
  | nil => exact List.Pairwise.nil
  | append_singleton reports r ih =>
      rw [accepted_concat]
      by_cases haccepts : Accepts (accepted reports) r
      · rw [if_pos haccepts, List.pairwise_append]
        refine ⟨ih, List.pairwise_singleton _ _, fun u hu v hv => ?_⟩
        obtain rfl := List.mem_singleton.1 hv
        exact haccepts.later ih u hu
      · rw [if_neg haccepts]
        exact ih

namespace Sampled

theorem nil : Sampled [] [] := by
  refine ⟨rfl, ?_, ?_⟩
  · intro sample hsample
    cases hsample
  · intro i last sample r hlast _ _
    cases hlast

theorem length_eq (h : Sampled kept seen) : seen.length = kept.length := by
  simpa using congrArg List.length h.times

theorem increases (h : Sampled kept seen) (hkept : kept.Pairwise fun u v => u.time < v.time) :
    seen.Pairwise fun u v => u.time < v.time := by
  have hmap := List.pairwise_map.2 hkept
  rw [← h.times] at hmap
  exact List.pairwise_map.1 hmap

/-- Whether a report is accepted can be told from the newest observation. -/
theorem accepts_iff (h : Sampled kept seen) : Accepts kept r ↔ ∀ last ∈ seen.getLast?, last.time < r.time := by
  have hlast : seen.getLast?.map (·.time) = kept.getLast?.map (·.time) := by
    rw [← List.getLast?_map, h.times, List.getLast?_map]
  simp only [Accepts]
  cases hseen : seen.getLast? with
  | none =>
      rw [hseen] at hlast
      simp [Option.map_eq_none_iff.1 hlast.symm]
  | some last =>
      rw [hseen] at hlast
      obtain ⟨newest, hnewest, htime⟩ := Option.map_eq_some_iff.1 hlast.symm
      simp [hnewest, htime]

/-- The first accepted report makes an observation that has added up nothing yet. -/
theorem singleton (r : Report) : Sampled [r] [⟨r.time, 0⟩] := by
  refine ⟨rfl, ?_, ?_⟩
  · intro sample hsample
    obtain rfl := Option.some.inj hsample
    rfl
  · intro i last sample r' _ hsample _
    simp at hsample

/-- A further accepted report adds its tick for the time since the observation before. -/
theorem concat (h : Sampled kept seen) (hlast : seen.getLast? = some last) (r : Report) :
    Sampled (kept ++ [r]) (seen ++ [⟨r.time,
      last.cumulative + BitVec.ofInt 64 (r.tick * ((r.time : Int) - last.time))⟩]) := by
  have hlength := h.length_eq
  have hne : seen ≠ [] := by
    rintro rfl
    cases hlast
  have hpos := List.length_pos_iff.2 hne
  refine ⟨?_, ?_, ?_⟩
  · rw [List.map_append, List.map_append, h.times]
    rfl
  · intro sample hsample
    obtain ⟨first, rest, rfl⟩ := List.exists_cons_of_ne_nil hne
    exact h.first sample hsample
  · intro i before sample r' hbefore hsample hr'
    rcases Nat.lt_trichotomy (i + 1) seen.length with hlt | heq | hgt
    · rw [List.getElem?_append_left (by omega)] at hbefore hsample hr'
      exact h.next hbefore hsample hr'
    · -- the new observation, whose predecessor was the newest one
      rw [List.getElem?_append_left (by omega), show i = seen.length - 1 by omega,
        ← List.getLast?_eq_getElem?, hlast] at hbefore
      obtain rfl := Option.some.inj hbefore
      rw [heq, List.getElem?_concat_length] at hsample
      rw [heq, hlength, List.getElem?_concat_length] at hr'
      obtain rfl := Option.some.inj hsample
      obtain rfl := Option.some.inj hr'
      rfl
    · rw [List.getElem?_eq_none (by simp; omega)] at hsample
      cases hsample

end Sampled

end Accepting

/-! ### One report -/

namespace Oracle

variable {o : Oracle} {kept : List Report} {seen : List Observation} {last sample : Observation}

theorem holds_fresh (pool : Key) : (fresh pool).Holds [] := by
  refine ⟨rfl, rfl, ?_, ?_⟩
  · intro i sample hsample
    cases hsample
  · intro i hi _
    simp [fresh, hi]

/-- The newest observation is where the oracle looks for it. -/
theorem Holds.newest_eq (h : o.Holds seen) (hlast : seen.getLast? = some last) :
    o.started = true ∧ ∃ hplace : o.newest < 32, o.ring[o.newest] = last := by
  have hstarted : o.started = true := by
    rw [h.started]
    cases seen with
    | nil => cases hlast
    | cons => rfl
  refine ⟨hstarted, ?_⟩
  rw [List.getLast?_eq_getElem?] at hlast
  have hring := h.ring hlast (by omega)
  rw [← h.newest] at hring
  exact Vector.getElem?_eq_some_iff.1 hring

/-- **Writing the next slot** keeps of the ring what it still has to hold. -/
theorem Holds.push (h : o.Holds seen) {next : Nat} (hnext : next = seen.length % 32)
    (sample : Observation) :
    Holds { o with started := true, newest := next, ring := o.ring.setIfInBounds next sample }
      (seen ++ [sample]) := by
  have hslot : next < 32 := hnext ▸ Nat.mod_lt _ (by decide)
  have hlength : (seen ++ [sample]).length = seen.length + 1 := by simp
  refine ⟨by simp, ?_, ?_, ?_⟩
  · rw [hlength, Nat.add_sub_cancel]
    exact hnext
  · intro i held hheld hrecent
    change (o.ring.setIfInBounds next sample)[i % 32]? = some held
    rw [hlength] at hrecent
    by_cases hi : i < seen.length
    · rw [List.getElem?_append_left hi] at hheld
      rw [Vector.getElem?_setIfInBounds_ne (by omega)]
      exact h.ring hheld (by omega)
    · have hlt := (List.getElem?_eq_some_iff.1 hheld).1
      have heq : i = seen.length := by omega
      subst heq
      rw [List.getElem?_concat_length] at hheld
      rw [← hnext, Vector.getElem?_setIfInBounds_self_of_lt hslot]
      exact hheld
  · intro i hi hbeyond
    change (o.ring.setIfInBounds next sample)[i]? = some ⟨0, 0⟩
    rw [hlength] at hbeyond
    rw [Vector.getElem?_setIfInBounds_ne (by omega)]
    exact h.blank hi (by omega)

/-- **A report that is not accepted** changes nothing. -/
theorem Holds.record_rejected (h : o.Holds seen) (hs : Sampled kept seen) {r : Report}
    (hrejected : ¬ Accepts kept r) : o.record r.time r.tick = .ok o := by
  rw [hs.accepts_iff] at hrejected
  cases hlast : seen.getLast? with
  | none =>
      rw [hlast] at hrejected
      exact absurd (fun _ hnone => by cases hnone) hrejected
  | some last =>
      obtain ⟨hstarted, hplace, hnewest⟩ := h.newest_eq hlast
      have hle : r.time ≤ last.time := by
        rw [hlast] at hrejected
        simpa using hrejected
      simp only [record]
      simp [hstarted, hplace, hnewest, hle]

/-- **An accepted report** makes the next observation. -/
theorem Holds.record_accepted (h : o.Holds seen) (hs : Sampled kept seen) {r : Report}
    (haccepts : Accepts kept r) : ∃ o' sample, o.record r.time r.tick = .ok o' ∧ o'.pool = o.pool ∧
      o'.Holds (seen ++ [sample]) ∧ Sampled (kept ++ [r]) (seen ++ [sample]) := by
  have hnewest := hs.accepts_iff.1 haccepts
  cases hlast : seen.getLast? with
  | none =>
      -- the flag says that nothing was recorded yet
      obtain rfl := List.getLast?_eq_none_iff.1 hlast
      obtain rfl : kept = [] := List.length_eq_zero_iff.1 hs.length_eq.symm
      have hstarted : o.started = false := h.started
      have hset : o.ring.set 0 ⟨r.time, 0⟩ = o.ring.setIfInBounds 0 ⟨r.time, 0⟩ := by
        ext1 i hi
        rw [Vector.getElem_set, Vector.getElem_setIfInBounds]
      have hrecord : o.record r.time r.tick = .ok { o with
          started := true, newest := 0, ring := o.ring.setIfInBounds 0 ⟨r.time, 0⟩ } := by
        simp only [record]
        rw [if_pos (by rw [hstarted]; rfl), hset]
      exact ⟨_, _, hrecord, rfl, h.push rfl _, .singleton r⟩
  | some last =>
      obtain ⟨hstarted, hplace, hring⟩ := h.newest_eq hlast
      have hlater : ¬ r.time ≤ last.time := Nat.not_le.2 (hnewest last hlast)
      have hpos := List.length_pos_iff.2 (List.ne_nil_of_mem (List.mem_of_getLast? hlast))
      have hnext : (o.newest + 1) % 32 = seen.length % 32 := by
        have := h.newest
        omega
      have hrecord : o.record r.time r.tick = .ok { o with
          started := true, newest := (o.newest + 1) % 32,
          ring := o.ring.setIfInBounds ((o.newest + 1) % 32) ⟨r.time,
            last.cumulative + BitVec.ofInt 64 (r.tick * ((r.time : Int) - last.time))⟩ } := by
        simp only [record]
        rw [if_neg (by rw [hstarted]; decide), dif_pos hplace, hring, if_neg hlater, hstarted,
          Int.natCast_sub (Nat.le_of_not_le hlater)]
      exact ⟨_, _, hrecord, rfl, h.push hnext _, hs.concat hlast r⟩

/-- **The observation ring.** For every history of reports to a new oracle: none of them fails, and the
oracle holds, up to the newest, the last 32 of the observations made by the accepted reports. These have
increasing times; the first observation has added up nothing, and each later one adds its tick for the time
since the one before. A report that is not accepted after the history changes nothing. -/
theorem observation_ring (pool : Key) (reports : List Report) :
    ∃ o seen, (fresh pool).recordAll reports = .ok o ∧ o.pool = pool ∧ o.Holds seen ∧
      Sampled (accepted reports) seen ∧ (seen.Pairwise fun u v => u.time < v.time) ∧
      ∀ r, ¬ Accepts (accepted reports) r → o.record r.time r.tick = .ok o := by
  suffices h : ∃ o seen, (fresh pool).recordAll reports = .ok o ∧ o.pool = pool ∧ o.Holds seen ∧
      Sampled (accepted reports) seen by
    obtain ⟨o, seen, hrun, hpool, hholds, hsampled⟩ := h
    exact ⟨o, seen, hrun, hpool, hholds, hsampled, hsampled.increases (accepted_increases reports),
      fun r => hholds.record_rejected hsampled⟩
  induction reports using List.reverseRecOn with
  | nil => exact ⟨fresh pool, [], rfl, rfl, holds_fresh pool, .nil⟩
  | append_singleton reports r ih =>
      obtain ⟨o, seen, hrun, hpool, hholds, hsampled⟩ := ih
      have hstep : (fresh pool).recordAll (reports ++ [r]) = o.record r.time r.tick := by
        simp only [recordAll] at hrun ⊢
        rw [List.foldlM_append, hrun]
        exact bind_pure (o.record r.time r.tick)
      rw [accepted_concat, hstep]
      by_cases haccepts : Accepts (accepted reports) r
      · rw [if_pos haccepts]
        obtain ⟨o', sample, hrecord, hsame, hholds', hsampled'⟩ :=
          hholds.record_accepted hsampled haccepts
        exact ⟨o', _, hrecord, hsame.trans hpool, hholds', hsampled'⟩
      · rw [if_neg haccepts]
        exact ⟨o, seen, hholds.record_rejected hsampled haccepts, hpool, hholds, hsampled⟩

end Oracle

end Clmm
