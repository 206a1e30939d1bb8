import Clmm.Proofs.IndexRepresentation

/-!
# Clmm.Proofs.UndoneChange

**A change of liquidity that is taken back leaves no trace** outside the position (`Changed.undone`): the
pool, its bitmap, the extension and all tick arrays are what they were.

The gross and the net of a boundary tick add up to what they were. Growth does not add up, but it needs
not: a tick that was in use keeps its own, and one that was put in use is cleared, as it was before
(`Tick.Changed.undone`). All else follows from the ticks. They determine the counts and with these the
arrays (`eq_of_lookup_eq`); the counts determine what the bitmap marks, and this determines its words
(`eq_of_marks`).
-/

namespace Clmm

open TickTable

/-! ### What determines arrays and bitmaps -/

/-- Arrays that count their ticks in use are told by their labels and their table of ticks. -/
theorem TickTable.eq_of_lookup_eq {arrays arrays' : List TickArray} {spacing : Nat}
    (hl : Laid arrays spacing) (hl' : Laid arrays' spacing)
    (hcounted : ∀ a ∈ arrays, a.count = a.usedCount) (hcounted' : ∀ a ∈ arrays', a.count = a.usedCount)
    (hlabels : arrays'.map (·.label) = arrays.map (·.label)) (hlookup : lookup arrays' = lookup arrays) :
    arrays' = arrays := by
  have hlength : arrays'.length = arrays.length := by simpa using congrArg List.length hlabels
  -- arrays with one label are equal
  have hone : ∀ a ∈ arrays, ∀ b ∈ arrays', b.label = a.label → b = a := by
    intro a ha b hb hlabel
    obtain ⟨hpool, hrest⟩ := Prod.mk.inj hlabel
    obtain ⟨hstart, hbump⟩ := Prod.mk.inj hrest
    have hticks : b.ticks = a.ticks := by
      ext1 j hj
      have hindex : b.ticks[j].index = a.ticks[j].index := by
        rw [(hl'.aligned b hb).index j hj, (hl.aligned a ha).index j hj, hstart]
      rw [← lookup_of_mem hl (mem_ticks.2 ⟨a, ha, j, hj, rfl⟩),
        ← lookup_of_mem hl' (mem_ticks.2 ⟨b, hb, j, hj, rfl⟩), hindex, hlookup]
    have hcount : b.count = a.count := by
      rw [hcounted' b hb, hcounted a ha]
      simp only [TickArray.usedCount]
      rw [hticks]
    cases a
    cases b
    simp only at hpool hstart hbump hticks hcount
    subst hpool hstart hbump hticks hcount
    rfl
  refine List.ext_getElem hlength fun i hi' hi => ?_
  refine hone _ (List.getElem_mem hi) _ (List.getElem_mem hi') ?_
  have hat := congrArg (·[i]?) hlabels
  simpa [hi, hi'] using hat

/-- Words are told by their bits. -/
theorem Bits.eq_of_holds {n : Nat} {words words' : Vector Word n}
    (h : ∀ b < 64 * n, Holds (words'[·]?) b ↔ Holds (words[·]?) b) : words' = words := by
  ext1 i hi
  refine BitVec.eq_of_getLsbD_eq fun j hj => ?_
  have hword : (64 * i + j) / 64 = i := by omega
  have hbit : (64 * i + j) % 64 = j := by omega
  have hiff := h (64 * i + j) (by omega)
  rw [holds_iff_getLsbD (w := words'[i]) (by rw [hword]; exact Vector.getElem?_eq_getElem hi),
    holds_iff_getLsbD (w := words[i]) (by rw [hword]; exact Vector.getElem?_eq_getElem hi), hbit] at hiff
  exact Bool.eq_iff_iff.2 hiff

open Bitmap in
/-- Both parts of a bitmap are told by what it marks, and by the pool that the extension belongs to. -/
theorem BitmapView.eq_of_marks {native native' : NativeBitmap} {extension extension' : BitmapExtension}
    {spacing : Nat} (hspacing : 0 < spacing) (hpool : extension'.pool = extension.pool)
    (h : ∀ s, (whole native' extension' spacing).Marks s ↔ (whole native extension spacing).Marks s) :
    native' = native ∧ extension' = extension := by
  have hbits : ∀ b, Bits.Holds (whole native' extension' spacing).wordAt b ↔
      Bits.Holds (whole native extension spacing).wordAt b := by
    intro b
    have hmarks := h (startAt b spacing)
    exact (marks_startAt (v := whole native' extension' spacing) hspacing).symm.trans
      (hmarks.trans (marks_startAt (v := whole native extension spacing) hspacing))
  simp only [holds_whole] at hbits
  have hside : sideWords = 112 := rfl
  have hnative : nativeWords = 16 := rfl
  have hpositive : positiveStart = 128 := rfl
  refine ⟨Bits.eq_of_holds fun b hb => ?_, ?_⟩
  · have hbit := hbits (64 * sideWords + b)
    rwa [if_neg (by omega), if_pos (by omega), if_neg (by omega), if_pos (by omega),
      Nat.add_sub_cancel_left] at hbit
  · have hnegative : extension'.negative = extension.negative := by
      refine Bits.eq_of_holds fun b hb => ?_
      have hbit := hbits b
      rwa [if_pos (by omega), if_pos (by omega)] at hbit
    have hupper : extension'.positive = extension.positive := by
      refine Bits.eq_of_holds fun b hb => ?_
      have hbit := hbits (64 * positiveStart + b)
      rwa [if_neg (by omega), if_neg (by omega), if_neg (by omega), if_neg (by omega),
        Nat.add_sub_cancel_left] at hbit
    cases extension
    cases extension'
    simp only at hpool hnegative hupper
    subst hpool hnegative hupper
    rfl

theorem Market.Orderly.setPositions {m : Market} (h : m.Orderly) (positions : List Position) :
    ({ m with positions } : Market).Orderly :=
  ⟨h.spacing_pos, h.laid, h.counted, h.marked, h.price, h.oracle⟩

/-- **A market is told by its ticks**, up to its counts and its bitmap, which follow from them. -/
theorem Market.Orderly.eq_of_lookup_eq {m m' : Market} (hm : m.Orderly) (hm' : m'.Orderly)
    (hlookup : lookup m'.arrays = lookup m.arrays)
    (hlabels : m'.arrays.map (·.label) = m.arrays.map (·.label))
    (hpool : m'.pool = { m.pool with bitmap := m'.pool.bitmap })
    (hextension : m'.extension.pool = m.extension.pool)
    (hrest : m' = { m with pool := m'.pool, arrays := m'.arrays, extension := m'.extension }) :
    m' = m := by
  have hspacing : m'.pool.spacing = m.pool.spacing := by rw [hpool]
  have harrays : m'.arrays = m.arrays :=
    TickTable.eq_of_lookup_eq hm.laid (hspacing ▸ hm'.laid) hm.counted hm'.counted hlabels hlookup
  -- what is counted is marked, in both markets
  have hmarks : ∀ s, m'.bitmap.Marks s ↔ m.bitmap.Marks s := by
    intro s
    rw [hm'.marked s, hm.marked s, harrays]
  simp only [Market.bitmap] at hmarks
  rw [hspacing] at hmarks
  obtain ⟨hnative, hsame⟩ := BitmapView.eq_of_marks hm.spacing_pos hextension hmarks
  rw [hnative] at hpool
  rw [hrest, hpool, harrays, hsame]

/-! ### One boundary tick -/

/-- **A boundary tick that gains liquidity and loses it again** is as it was, if it was blank without
liquidity. -/
theorem Tick.Changed.undone {k u k' u' k'' : Tick} {bound : Tick.Bound} {delta : Int} (hpos : 0 < delta)
    (hblank : k.gross = 0 → k = Tick.empty k.index) (h : Tick.Changed k u k' bound delta)
    (h' : Tick.Changed k' u' k'' bound (-delta)) : k'' = k := by
  have hgross := h.gross
  have hgross' := h'.gross
  have hindex : k''.index = k.index := h'.index.trans h.index
  have hused : k'.gross ≠ 0 := by omega
  by_cases hzero : k.gross = 0
  · -- it was put in use, so the last change took its last liquidity
    rcases h'.cleared (by omega) with hkept | hcleared
    · exact absurd (hkept ▸ hgross') (by omega)
    · rw [hcleared, h.index, ← hblank hzero]
  · have hstill : k''.gross ≠ 0 := by omega
    have hnet := h.net hused
    have hnet' := h'.net hstill
    have hsigned : bound.signed (-delta) = -bound.signed delta := by
      cases bound <;> rfl
    have houtside : k''.outside = k.outside := by
      rw [h'.kept hstill, h'.outside hused, h.kept hused, h.outside hzero]
    have hsameGross : k''.gross = k.gross := by omega
    have hsameNet : k''.net = k.net := by omega
    cases k
    cases k''
    simp only at hindex hsameGross hsameNet houtside
    subst hindex hsameGross hsameNet houtside
    rfl

/-! ### The whole change -/

namespace Changed

variable {m m₁ m₂ : Market} {p p' p'' : Position} {positions : List Position} {delta : Int}
  {amounts amounts' : Pair Nat}
  {lowerMade lower upperMade upper lowerMade' lower' upperMade' upper' : Tick}

/-- The ticks are as they were. -/
theorem lookup_undone (hblank : m.Blank) (hpos : 0 < delta)
    (h : Changed m m₁ p p' delta amounts lowerMade lower upperMade upper)
    (h' : Changed { m₁ with positions } m₂ p' p'' (-delta) amounts' lowerMade' lower' upperMade' upper') :
    TickTable.lookup m₂.arrays = TickTable.lookup m.arrays := by
  obtain ⟨hlower, hupper, -⟩ := h.bounds
  have hblankAt : ∀ t, (TickTable.lookup m.arrays t).gross = 0 →
      TickTable.lookup m.arrays t = Tick.empty (TickTable.lookup m.arrays t).index := by
    intro t hzero
    rw [index_lookup]
    exact hblank t hzero
  have hback := h'.lowerChanged
  have hback' := h'.upperChanged
  change Tick.Changed (TickTable.lookup m₁.arrays p'.lower) _ _ _ _ at hback
  change Tick.Changed (TickTable.lookup m₁.arrays p'.upper) _ _ _ _ at hback'
  rw [hlower, h.lookup_lower] at hback
  rw [hupper, h.lookup_upper] at hback'
  have hnew := h'.lookup_lower
  have hnew' := h'.lookup_upper
  rw [hlower] at hnew
  rw [hupper] at hnew'
  funext t
  by_cases htu : t = p.upper
  · subst htu
    rw [hnew']
    exact h.upperChanged.undone hpos (hblankAt _) hback'
  · by_cases htl : t = p.lower
    · subst htl
      rw [hnew]
      exact h.lowerChanged.undone hpos (hblankAt _) hback
    · rw [h'.lookup_other (hlower ▸ htl) (hupper ▸ htu)]
      exact h.lookup_other htl htu

/-- The pool is as it was, but for its part of the bitmap. -/
theorem pool_undone (h : Changed m m₁ p p' delta amounts lowerMade lower upperMade upper)
    (h' : Changed { m₁ with positions } m₂ p' p'' (-delta) amounts' lowerMade' lower' upperMade' upper') :
    m₂.pool = { m.pool with bitmap := m₂.pool.bitmap } := by
  obtain ⟨hlower, hupper, -⟩ := h.bounds
  have htick : m₁.pool.tick = m.pool.tick := by rw [h.pool]
  have hcovers : p'.Covers m₁.pool.tick ↔ p.Covers m.pool.tick := by
    simp only [Position.Covers]
    rw [hlower, hupper, htick]
  have hliquidity : m₂.pool.liquidity = m.pool.liquidity := by
    have hfirst := h.liquidity
    have hsecond := h'.liquidity
    change (m₂.pool.liquidity : Int) = m₁.pool.liquidity +
      if p'.Covers m₁.pool.tick then -delta else 0 at hsecond
    by_cases hin : p.Covers m.pool.tick
    · rw [if_pos (hcovers.2 hin)] at hsecond
      rw [if_pos hin] at hfirst
      omega
    · rw [if_neg (mt hcovers.1 hin)] at hsecond
      rw [if_neg hin] at hfirst
      omega
  have hpool := h'.pool
  change m₂.pool = { m₁.pool with
    liquidity := m₂.pool.liquidity, bitmap := m₂.pool.bitmap } at hpool
  rw [h.pool, hliquidity] at hpool
  exact hpool

/-- **A change that is taken back leaves no trace**: the pool, the extension and the tick arrays are as
before it. -/
theorem undone (hm : m.Orderly) (hblank : m.Blank) (hpos : 0 < delta)
    (h : Changed m m₁ p p' delta amounts lowerMade lower upperMade upper)
    (h' : Changed { m₁ with positions } m₂ p' p'' (-delta) amounts' lowerMade' lower' upperMade' upper') :
    m₂ = { m with positions } := by
  have hm₁ : ({ m₁ with positions } : Market).Orderly := h.orderly hm positions
  have hm₂ : m₂.Orderly := h'.orderly hm₁ m₂.positions
  have hlookup := lookup_undone hblank hpos h h'
  have hpool := pool_undone h h'
  have hrest := h'.rest
  rw [h.rest] at hrest
  exact (hm.setPositions positions).eq_of_lookup_eq hm₂ hlookup (h'.labels.trans h.labels) hpool
    (h'.extension.trans h.extension) hrest

end Changed

end Clmm
