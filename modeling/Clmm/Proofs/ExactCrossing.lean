import Clmm.Proofs.Reachable

/-!
# Clmm.Proofs.ExactCrossing

**A swap crosses exactly the ticks between its first and its last tick** (`swap_crosses_exactly`): those
in use, each once, in the order of the walk. Every other place of the supplied arrays stays as it was.

A walk reads ticks from arrays that it does not change and the crossings are written at the end, so a
place crossed twice would lose one of them (`writeCrossings_places`).
-/

namespace Clmm

open TickTable

/-- A move from one tick to another passes tick `t`: downward it leaves `t` above, upward it has reached
`t`. -/
def Direction.Passes (d : Direction) (before after t : Int) : Prop :=
  match d with
  | .down => after < t ∧ t ≤ before
  | .up => before < t ∧ t ≤ after

theorem Direction.passes_iff {d : Direction} {before after t : Int} :
    d.Passes before after t ↔ d.Ahead before t ∧ ¬ d.Ahead after t := by
  cases d with
  | down => exact ⟨fun h => ⟨h.2, Int.not_le.2 h.1⟩, fun h => ⟨Int.not_le.1 h.2, h.1⟩⟩
  | up => exact ⟨fun h => ⟨h.1, Int.not_lt.2 h.2⟩, fun h => ⟨h.1, Int.not_lt.1 h.2⟩⟩

namespace Swap

/-- The place of a crossing holds, among the supplied arrays, the tick that is crossed. -/
theorem Crossing.Fits.place {x : Crossing} {c : Course} {arrays supplied : List TickArray}
    {spacing : Nat} (h : x.Fits c arrays supplied) (hl : Laid arrays spacing)
    (hown : ∀ a ∈ supplied, a ∈ arrays) :
    ∃ a, supplied[x.index]? = some a ∧ ∃ _ : x.offset < arraySize, ∃ growth,
      x.tick = a.ticks[x.offset].cross (c.growth.set c.direction.input growth) := by
  obtain ⟨a, ha, ⟨hat, -⟩, hoffset, growth, hx⟩ := h
  rw [List.getElem?_map, Option.map_eq_some_iff] at hat
  obtain ⟨b, hb, hstart⟩ := hat
  obtain rfl := hl.eq_of_start_eq (hown b (List.mem_of_getElem? hb)) ha hstart
  exact ⟨b, hb, hoffset, growth, hx⟩

/-- **Writing the crossings, place by place.** Where no index is crossed twice, the place of each
crossing holds its tick afterwards, and every other place and all else of the arrays is as before. -/
theorem writeCrossings_places {supplied : List TickArray} {xs : List Crossing}
    (hnodup : (xs.map (·.tick.index)).Nodup)
    (hplace : ∀ x ∈ xs, ∀ a, supplied[x.index]? = some a → ∀ _ : x.offset < arraySize,
      x.tick.index = a.ticks[x.offset].index) {j : Nat} {a : TickArray} (ha : supplied[j]? = some a) :
    ∃ a', (writeCrossings supplied xs)[j]? = some a' ∧ { a' with ticks := a.ticks } = a ∧
      ∀ (i : Nat) (_ : i < arraySize),
        (∀ x ∈ xs, x.index = j → x.offset = i → a'.ticks[i] = x.tick) ∧
        ((∀ x ∈ xs, ¬ (x.index = j ∧ x.offset = i)) → a'.ticks[i] = a.ticks[i]) := by
  induction xs using List.reverseRecOn with
  | nil => exact ⟨a, ha, rfl, fun i _ => ⟨fun x hx => absurd hx List.not_mem_nil, fun _ => rfl⟩⟩
  | append_singleton xs y ih =>
      rw [List.map_append, List.nodup_append] at hnodup
      obtain ⟨hxs, -, hdisjoint⟩ := hnodup
      obtain ⟨a', ha', hframe, hslots⟩ := ih hxs fun x hx => hplace x (List.mem_append_left _ hx)
      have hy : y ∈ xs ++ [y] := List.mem_append_right _ (List.mem_singleton.2 rfl)
      have hwrite : (writeCrossings supplied (xs ++ [y]))[j]? =
          some (if y.index = j then a'.setSlot y.offset y.tick else a') := by
        simp only [writeCrossings] at ha' ⊢
        rw [List.foldl_append, List.foldl_cons, List.foldl_nil, List.getElem?_modify, ha']
        split <;> rfl
      refine ⟨_, hwrite, ?_, fun i hi => ?_⟩
      · split
        · exact hframe
        · exact hframe
      · obtain ⟨hcrossed, hkept⟩ := hslots i hi
        by_cases hhere : y.index = j ∧ y.offset = i
        · -- the new crossing is written here, and no older one was
          obtain ⟨hindex, hoffset⟩ := hhere
          have hnew : (a'.setSlot y.offset y.tick).ticks[i] = y.tick := by
            simp only [TickArray.setSlot]
            rw [Vector.getElem_setIfInBounds, if_pos hoffset]
          rw [if_pos hindex, hnew]
          refine ⟨?_, fun hnone => absurd ⟨hindex, hoffset⟩ (hnone y hy)⟩
          intro x hx hxj hxi
          -- an older crossing of this place would be one of the same tick
          rcases List.mem_append.1 hx with hold | hself
          · have hxa := hplace x hx a (by rw [hxj]; exact ha) (by rw [hxi]; exact hi)
            have hya := hplace y hy a (by rw [hindex]; exact ha) (by rw [hoffset]; exact hi)
            have hsame : x.tick.index = y.tick.index := by
              rw [hxa, hya]
              congr 2
              exact hxi.trans hoffset.symm
            exact absurd hsame
              (hdisjoint _ (List.mem_map.2 ⟨x, hold, rfl⟩) _ (List.mem_singleton.2 rfl))
          · rw [List.mem_singleton.1 hself]
        · have hold : (if y.index = j then a'.setSlot y.offset y.tick else a').ticks[i] =
              a'.ticks[i] := by
            split
            · rename_i hindex
              simp only [TickArray.setSlot]
              rw [Vector.getElem_setIfInBounds, if_neg fun hoffset => hhere ⟨hindex, hoffset⟩]
            · rfl
          rw [hold]
          constructor
          · intro x hx hxj hxi
            rcases List.mem_append.1 hx with hx | hself
            · exact hcrossed x hx hxj hxi
            · rw [List.mem_singleton.1 hself] at hxj hxi
              exact absurd ⟨hxj, hxi⟩ hhere
          · intro hnone
            exact hkept fun x hx => hnone x (List.mem_append_left _ hx)

end Swap

namespace Market

/-- **Exact crossing.** The ticks that a swap with sight crosses are those in use that it passes, each
once and in the order of the walk. The place of each holds the tick as crossed, and every other place
and all else of the supplied arrays is unchanged. -/
theorem swap_crosses_exactly {m : Market} {total : Payment} (h : Reached m total) {s : Supply}
    {r : SwapRequest} {time : Nat} {result : SwapResult} {b' : SwapBook} (hamount : r.amount < 2 ^ 64)
    (hsighted : m.Sighted s)
    (hswap : Clmm.swap m.config (m.supplied s) r time ⟨m.pool, m.pick s.starts⟩ = .ok result b') :
    ∃ crossings : List Swap.Crossing,
      (∀ t, t ∈ crossings.map (·.tick.index) ↔ (m.tickState t).isInitialized = true ∧
        r.direction.Passes m.pool.tick b'.pool.tick t) ∧
      (crossings.map (·.tick.index)).Pairwise r.direction.Beyond ∧
      result.crossed = crossings.length ∧
      (∀ x ∈ crossings, ∃ a, (m.pick s.starts)[x.index]? = some a ∧
        ∃ _ : x.offset < arraySize, ∃ growth,
          x.tick = a.ticks[x.offset].cross (m.pool.growth.set r.direction.input growth)) ∧
      b'.arrays.length = (m.pick s.starts).length ∧
      ∀ (j : Nat) (a : TickArray), (m.pick s.starts)[j]? = some a →
        ∃ a', b'.arrays[j]? = some a' ∧ { a' with ticks := a.ticks } = a ∧
          ∀ (i : Nat) (_ : i < arraySize),
            (∀ x ∈ crossings, x.index = j → x.offset = i → a'.ticks[i] = x.tick) ∧
            ((∀ x ∈ crossings, ¬ (x.index = j ∧ x.offset = i)) → a'.ticks[i] = a.ticks[i]) := by
  have hm := h.wellFormed
  obtain ⟨c, cursor, w, hswapped⟩ := Swap.swap_eq_ok hswap
  have hw := hswapped.walking hm hamount (Or.inl hsighted)
  obtain ⟨edges, -, hc⟩ := Swap.course_eq_ok hswapped.course_eq
  have hdirection : c.direction = r.direction := by rw [hc]
  have hgrowth : c.growth = m.pool.growth := by rw [hc]
  have htick : b'.pool.tick = w.tick := by rw [hswapped.pool]
  have hplaces : ∀ x ∈ w.crossings, ∃ a, (m.pick s.starts)[x.index]? = some a ∧
      ∃ _ : x.offset < arraySize, ∃ growth,
        x.tick = a.ticks[x.offset].cross (m.pool.growth.set r.direction.input growth) := by
    intro x hx
    have := (hw.fits x hx).place hm.laid fun _ ha => mem_of_mem_pick ha
    rwa [hgrowth, hdirection] at this
  have hlength : b'.arrays.length = (m.pick s.starts).length := by
    obtain ⟨hstarts, -⟩ :=
      Swap.writeCrossings_spec hm.laid (fun _ ha => mem_of_mem_pick ha) hw.fits
    rw [hswapped.arrays]
    simpa using congrArg List.length hstarts
  have hsettles := Swap.settle_eq_ok hswapped.settle_eq
  refine ⟨w.crossings, fun t => ?_, ?_, hsettles.crossed, hplaces, hlength, fun j a ha => ?_⟩
  · have := hw.crossed t
    rw [hm.inUse_iff, hdirection, ← Direction.passes_iff] at this
    rw [htick]
    exact this
  · rw [← hdirection]
    exact hw.ordered
  · rw [hswapped.arrays]
    refine Swap.writeCrossings_places ?_ ?_ ha
    · exact hw.ordered.imp fun hbeyond => hbeyond.ne.symm
    · intro x hx b hb hoffset
      obtain ⟨b₁, hb₁, _, growth, hxtick⟩ := hplaces x hx
      obtain rfl := Option.some.inj (hb.symm.trans hb₁)
      rw [hxtick]
      rfl

theorem swap_crosses_exactly_openings : ∃ m total result b', sample 10 5 openings = .ok (m, total) ∧
    Clmm.swap m.config (m.supplied ⟨[0, -600], true⟩) ⟨900, 0, 0, .exactIn, .down⟩ 0
      ⟨m.pool, m.pick [0, -600]⟩ = .ok result b' ∧
    result.crossed = 1 ∧ b'.pool.tick = -11 ∧
    ∃ crossings : List Swap.Crossing,
      (∀ t, t ∈ crossings.map (·.tick.index) ↔ (m.tickState t).isInitialized = true ∧
        Direction.down.Passes m.pool.tick b'.pool.tick t) ∧
      result.crossed = crossings.length := by
  obtain ⟨m, total, hsample, hrun⟩ := exists_of_sample (P := fun x =>
      succeedsWith (fun (result : SwapResult) (b' : SwapBook) =>
          decide (result.crossed = 1 ∧ b'.pool.tick = -11))
        (Clmm.swap x.1.config (x.1.supplied ⟨[0, -600], true⟩) ⟨900, 0, 0, .exactIn, .down⟩ 0
          ⟨x.1.pool, x.1.pick [0, -600]⟩))
    (show (sample 10 5 openings).toOption.any _ = true by decide +kernel)
  obtain ⟨result, b', hswap, hends⟩ := exists_of_succeedsWith hrun
  obtain ⟨hcrossed, htick⟩ := of_decide_eq_true hends
  obtain ⟨crossings, hmem, -, hlength, -⟩ := swap_crosses_exactly (reached_of_sample hsample)
    (by decide) (Or.inl rfl) hswap
  exact ⟨m, total, result, b', hsample, hswap, hcrossed, htick, crossings, hmem, hlength⟩

end Market

end Clmm
