import Clmm.Proofs.StartSet

/-!
# Clmm.Proofs.IndexRepresentation

**What the tick arrays and the bitmap stand for** (`index_represents_ticks`). In every market that a run
leads to, the arrays lie at valid starts and hold the ticks of their places; a tick that nothing refers
to is blank; an array counts its ticks in use; and the bitmap shows a valid start as used exactly when
there is an array with a count there.

Starts, places, counts and bits are part of what a market keeps (`Attained.orderly`). That unused ticks
are blank (`Blank`) is shown here. Two things write ticks. A change of liquidity leaves a tick without
liquidity only by clearing it (`Tick.Changed.blank`). A swap turns the growth of the ticks that it
crosses, and it heads for ticks in use only (`Heads.isInitialized`), so it never turns that of a blank
one.
-/

namespace Clmm

open TickTable

/-! ### Ticks that are changed -/

/-- A tick that a change of liquidity leaves without liquidity is blank, if it was blank without
liquidity before. -/
theorem Tick.Changed.blank {k u k' : Tick} {bound : Tick.Bound} {delta : Int}
    (h : Tick.Changed k u k' bound delta) (hk : k.gross = 0 → k = Tick.empty k.index)
    (hzero : k'.gross = 0) : k' = Tick.empty k.index := by
  rcases h.cleared hzero with rfl | hcleared
  · exact hk hzero
  · exact hcleared

/-! ### Ticks that are crossed -/

theorem TickArray.isUsed_of_nextUsed? {a : TickArray} {spacing offset : Nat} (hspacing : 0 < spacing)
    {current : Int} {d : Direction} (h : a.nextUsed? current spacing d = .ok (some offset)) :
    a.isUsed offset = true := by
  have hfound := nextUsed?_eq_ok hspacing h
  cases d with
  | down => exact (isAhead_eq_true.1 (greatestBelow?_eq_some_iff.1 hfound.symm).2.1).2
  | up => exact (isAhead_eq_true.1 (leastBelow?_eq_some_iff.1 hfound.symm).2.1).2

namespace Swap

variable {c : Course} {w w' : Walk} {k : Cursor} {offset : Nat} {t : Int}

/-- A step that heads for a tick heads for one in use, whatever array holds it. -/
theorem Heads.isInitialized (h : Heads c w (some (k, offset)) t) (hspacing : 0 < c.spacing)
    (hlt : offset < arraySize) : k.array.ticks[offset].isInitialized = true := by
  have htarget := h.target_eq
  simp only [target] at htarget
  cases hcursor : w.cursor with
  | none =>
      rw [hcursor] at htarget
      cases htarget
  | some k' =>
      rw [hcursor] at htarget
      have hused := TickArray.isUsed_of_nextUsed? hspacing (nextUsed?_of_seek htarget)
      rwa [TickArray.isUsed_eq hlt] at hused

/-- All crossed ticks are in use. -/
def CrossesUsed (w : Walk) : Prop := ∀ x ∈ w.crossings, x.tick.isInitialized = true

theorem step_crossesUsed (hspacing : 0 < c.spacing) (hw : CrossesUsed w) (h : step c w = .ok w') :
    CrossesUsed w' := by
  obtain ⟨found, t, s, split, growth, moved, hl, hend⟩ := step_cases h
  have hcrossings : moved.crossings = w.crossings := by rw [hl.settled.rest]
  have hmoved : CrossesUsed moved := by
    simp only [CrossesUsed]
    rwa [hcrossings]
  cases hend with
  | reachesEdge hprice => exact hmoved
  | @crosses k offset arrived hprice hcross =>
      obtain ⟨hlt, liquidity, -, rfl⟩ := crossTick_eq_ok hcross
      intro x hx
      rcases List.mem_append.1 hx with hold | hnew
      · exact hmoved x hold
      · -- crossing a tick leaves its liquidity as it was
        rw [List.mem_singleton.1 hnew]
        exact hl.heads.isInitialized hspacing hlt
  | stops hprice hsqrt htick => exact hmoved
  | stays hprice hsame => exact hmoved

/-- A tick in a table with crossings written into it is as it was, or one of those crossed. -/
theorem crossedTable_cases (table : Int → Tick) (xs : List Crossing) (t : Int) :
    crossedTable table xs t = table t ∨ ∃ x ∈ xs, crossedTable table xs t = x.tick := by
  induction xs using List.reverseRecOn with
  | nil => exact Or.inl rfl
  | append_singleton xs x ih =>
      rw [crossedTable_concat]
      by_cases ht : t = x.tick.index
      · right
        refine ⟨x, List.mem_append_right _ (List.mem_singleton.2 rfl), ?_⟩
        rw [ht, Function.update_self]
      · rw [Function.update_of_ne ht]
        refine ih.imp_right fun hold => ?_
        obtain ⟨y, hy, heq⟩ := hold
        exact ⟨y, List.mem_append_left _ hy, heq⟩

end Swap

/-! ### Blank ticks -/

namespace Market

variable {m m' : Market} {paid : Payment}

/-- A tick that nothing refers to is blank. -/
def Blank (m : Market) : Prop := ∀ t, (m.tickState t).gross = 0 → m.tickState t = Tick.empty t

theorem Blank.congr (hb : m.Blank) (h : lookup m'.arrays = lookup m.arrays) : m'.Blank := by
  simp only [Blank, tickState]
  rw [h]
  exact hb

theorem Blank.setUpPosition (hb : m.Blank) (lower upper : Int) :
    (m.setUpPosition lower upper).Blank := hb

theorem Blank.change (hb : m.Blank) {p p' : Position} {delta : Int} {amounts : Pair Nat}
    {lowerMade lower upperMade upper : Tick}
    (hc : Changed m m' p p' delta amounts lowerMade lower upperMade upper) : m'.Blank := by
  intro t hzero
  simp only [tickState] at hzero ⊢
  rcases hc.lookup_cases t with hkept | ⟨made, bound, hchanged⟩
  · rw [hkept] at hzero ⊢
    exact hb t hzero
  · -- what the change left of a boundary tick is blank if it has no liquidity
    have hblank := hchanged.blank (by rw [index_lookup]; exact hb t) hzero
    rwa [index_lookup] at hblank

theorem Blank.increase (hb : m.Blank) (hm : m.Orderly) {i n : Nat} {d : Deposit} {derived : Bool}
    {s : Supply} {change : LiquidityChange} (h : m.increase i d derived s = .ok (m', n, change)) :
    m'.Blank := by
  obtain ⟨_, _, m₁, _, _, _, _, -, -, hc, rfl⟩ := increase_eq_ok hm h
  exact (hb.change hc).congr rfl

theorem Blank.swap (hb : m.Blank) (hm : m.Orderly) {r : SwapRequest} {time : Nat} {s : Supply}
    {result : SwapResult} (hamount : r.amount < 2 ^ 64)
    (h : m.swap r time s = .ok (m', result)) : m'.Blank := by
  obtain ⟨c, cursor, w, b', hswapped, -, hm'⟩ := swap_eq_ok h
  have hspacing : 0 < c.spacing := by
    obtain ⟨edges, -, rfl⟩ := Swap.course_eq_ok hswapped.course_eq
    exact hm.spacing_pos
  have hused : Swap.CrossesUsed w :=
    Swap.walk_induct (Swap.step_crossesUsed hspacing) (fun _ hx => absurd hx List.not_mem_nil)
      hswapped.walk_eq
  obtain ⟨-, htable⟩ := hswapped.written hm (hswapped.afoot hm hamount).fits
  have harrays : m'.arrays = putBack m.arrays b'.arrays := by rw [hm']
  intro t hzero
  simp only [tickState] at hzero ⊢
  rw [harrays, htable] at hzero ⊢
  rcases Swap.crossedTable_cases (lookup m.arrays) w.crossings t with hsame | ⟨x, hx, hcrossed⟩
  · rw [hsame] at hzero ⊢
    exact hb t hzero
  · -- a crossed tick has liquidity
    rw [hcrossed] at hzero
    exact absurd hzero (of_decide_eq_true (hused x hx))

/-- Every operation leaves unused ticks blank. -/
theorem Performs.blank {op : Operation} (h : m.Performs op m' paid) (hm : m.Orderly)
    (hallows : m.Allows op) (hb : m.Blank) : m'.Blank := by
  cases h with
  | setUpArray h =>
      obtain ⟨a, ha, rfl⟩ := addArray_eq_ok h
      exact hb.congr (lookup_insertArray hm.laid ha hallows).2
  | setUpPosition => exact hb
  | openPosition h => exact (hb.setUpPosition _ _).increase (hm.setUpPosition _ _) h
  | increase h => exact hb.increase hm h
  | decrease h =>
      obtain ⟨_, _, m₁, _, _, _, _, -, hc, -, rfl⟩ := decrease_eq_ok hm h
      exact (hb.change hc).congr rfl
  | swap h => exact hb.swap hm hallows h
  | takeProtocolFees => exact hb
  | takeFundFees => exact hb

theorem Attained.blank (h : Attained m) : m.Blank := by
  induction h with
  | created hconfig hcreate =>
      obtain ⟨_, -, rfl⟩ := create_eq_ok hcreate
      exact fun _ _ => rfl
  | performed op hattained hallows hperform ih =>
      exact (performs_of_perform hperform).blank hattained.orderly hallows ih

/-! ### The representation -/

/-- **The arrays and the bitmap stand for the ticks**, in every market that a run leads to. -/
theorem index_represents_ticks (h : Attained m) :
    (∀ a ∈ m.arrays, TickArray.isValidStart a.start m.pool.spacing = true ∧
      (∀ i (hi : i < arraySize), a.ticks[i].index = a.start + (i : Int) * m.pool.spacing) ∧
      (∀ i (hi : i < arraySize), a.ticks[i].gross = 0 →
        a.ticks[i].net = 0 ∧ a.ticks[i].outside = Pair.both 0) ∧
      a.count = a.ticks.countP (fun k => k.gross ≠ 0)) ∧
    ∀ s, TickArray.isValidStart s m.pool.spacing = true →
      ∃ used, m.bitmap.isUsed s = .ok used ∧
        (used = true ↔ ∃ a ∈ m.arrays, a.start = s ∧ 0 < a.count) := by
  have hm := h.orderly
  refine ⟨fun a ha => ?_, fun s hs => ?_⟩
  · have haligned := hm.laid.aligned a ha
    refine ⟨haligned.valid, haligned.index, fun i hi hzero => ?_, hm.counted a ha⟩
    have hlookup : m.tickState a.ticks[i].index = a.ticks[i] :=
      lookup_of_mem hm.laid (mem_ticks.2 ⟨a, ha, i, hi, rfl⟩)
    have hblank := h.blank a.ticks[i].index (by rw [hlookup]; exact hzero)
    rw [hlookup] at hblank
    rw [hblank]
    exact ⟨rfl, rfl⟩
  · have hreads : m.bitmap.Reads s := Or.inl rfl
    obtain ⟨used, hused, hiff⟩ := hreads.exists_isUsed hs
    refine ⟨used, hused, (hiff.trans (hm.marked s)).trans ?_⟩
    simp only [Nat.pos_iff_ne_zero]

/-- A swap down crossed tick 0, and then the first position was withdrawn. Its lower tick was the only
one in use of its array; its upper one shared an array with the second position's. -/
theorem index_represents_ticks_withdrawn : ∃ m total,
    sample 10 5 (openings ++ [.swap ⟨900, 0, 0, .exactIn, .down⟩ 0 ⟨[0, -600], true⟩,
      .decrease 0 1000000 ⟨0, 0⟩ ⟨[0, -600], true⟩]) = .ok (m, total) ∧
    m.arrays.map (fun a => (a.start, a.count)) = [(-600, 0), (0, 2)] ∧
    (∀ a ∈ m.arrays, ∀ i (hi : i < arraySize), a.ticks[i].gross = 0 →
      a.ticks[i].net = 0 ∧ a.ticks[i].outside = Pair.both 0) ∧
    m.bitmap.isUsed (-600) = .ok false ∧ m.bitmap.isUsed 0 = .ok true := by
  obtain ⟨m, total, hsample, hrun⟩ := exists_of_sample (P := fun x =>
      decide (x.1.pool.spacing = 10 ∧
        x.1.arrays.map (fun a => (a.start, a.count)) = [(-600, 0), (0, 2)]))
    (show (sample 10 5 (openings ++ [.swap ⟨900, 0, 0, .exactIn, .down⟩ 0 ⟨[0, -600], true⟩,
      .decrease 0 1000000 ⟨0, 0⟩ ⟨[0, -600], true⟩])).toOption.any _ = true by decide +kernel)
  obtain ⟨hspacing, hcounts⟩ := of_decide_eq_true hrun
  obtain ⟨hslots, hbits⟩ := index_represents_ticks (reached_of_sample hsample).attained
  have hcounted : ∀ s, (∃ a ∈ m.arrays, a.start = s ∧ 0 < a.count) ↔
      ∃ x ∈ m.arrays.map (fun a => (a.start, a.count)), x.1 = s ∧ 0 < x.2 := by simp
  simp only [hcounted, hcounts] at hbits
  refine ⟨m, total, hsample, hcounts, fun a ha => (hslots a ha).2.2.1, ?_, ?_⟩
  · obtain ⟨used, hused, hiff⟩ := hbits (-600) (by rw [hspacing]; decide)
    cases used with
    | false => exact hused
    | true => exact absurd (hiff.1 rfl) (by decide)
  · obtain ⟨used, hused, hiff⟩ := hbits 0 (by rw [hspacing]; decide)
    cases used with
    | true => exact hused
    | false => exact absurd (hiff.2 (by decide)) (by decide)

end Market

end Clmm
