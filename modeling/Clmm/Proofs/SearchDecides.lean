import Clmm.Proofs.Configured
import Clmm.Proofs.Faults

/-!
# Clmm.Proofs.SearchDecides

**No search of a swap faults.** All that a search computes besides comparing bits and ticks are indices,
and these fit 32 bits: a tick lies in the tick range, an array starts less than `2 ^ 23` away from tick 0,
and a bit that the bitmap shows stands for the start of an array (`Course.Charted`). So a swap that looks
for its first array, for the next tick in use, or for the edge of what the bitmap shows, either finds it
or refuses.
-/

namespace Clmm

open TickTable Outcome

/-! ### Starts in 32 bits -/

theorem TickArray.isValidStart_bounds {start : Int} {spacing : Nat}
    (h : isValidStart start spacing = true) (hwidth : spacing < 2 ^ 16) :
    -2 ^ 23 ≤ start ∧ start ≤ maxTick := by
  obtain ⟨hpos, -, hlow, hhigh⟩ := isValidStart_iff.1 h
  exact ⟨(floorStart_bounds hpos hwidth (Int.le_refl _) (by decide)).1.trans hlow,
    hhigh.trans (floorStart_bounds hpos hwidth (by decide) (Int.le_refl _)).2⟩

namespace Bitmap

variable {start : Int} {spacing b : Nat}

theorem decides_bitIndex : Decides (bitIndex start spacing) :=
  decides_require.bind fun _ _ => decides_require.bind fun _ _ => decides_pure _

theorem succeeds_startOfBit (hb : b < totalBits) (hlow : -2 ^ 31 ≤ startAt b spacing)
    (hhigh : startAt b spacing < 2 ^ 31) : Succeeds (startOfBit b spacing) := by
  have htotal : totalBits = 15360 := rfl
  have hside : sideWords = 112 := rfl
  have hbmod : Int.bmod b (2 ^ 32) = b := by
    rw [Int.bmod_eq_of_le] <;> omega
  have hsteps : (b : Int) - (64 * sideWords : Nat) - 512 = b - zeroBit := by
    unfold zeroBit
    omega
  simp only [startOfBit]
  rw [hbmod]
  refine (succeeds_signedWithin (by omega) (by omega)).bind fun fromSide h => ?_
  obtain ⟨-, rfl⟩ := signedWithin_eq_ok.1 h
  refine (succeeds_signedWithin (by omega) (by omega)).bind fun fromZero h => ?_
  obtain ⟨-, rfl⟩ := signedWithin_eq_ok.1 h
  rw [hsteps]
  exact succeeds_signedWithin hlow hhigh

end Bitmap

namespace BitmapView

open Bitmap

variable {v : BitmapView} {start t : Int} {d : Direction}

theorem decides_isUsed : Decides (v.isUsed start) := by
  refine decides_bitIndex.bind fun bit _ => ?_
  cases v.wordAt (bit / 64) with
  | some w => exact decides_pure _
  | none => exact decides_refused _

/-- A search among the bits decides if every start that is shown fits. -/
theorem decides_nextUsed? (hshown : ∀ s, v.Marks s → -2 ^ 31 ≤ s ∧ s < 2 ^ 31) :
    Decides (v.nextUsed? start d) := by
  cases hb : bitIndex start v.spacing with
  | error e =>
      intro e' he'
      simp only [nextUsed?] at he'
      rw [hb] at he'
      obtain rfl := Except.error.inj he'
      exact decides_bitIndex _ hb
  | ok b =>
      cases hfound : v.nextBit? b d with
      | none =>
          rw [nextUsed?_of_none hb hfound]
          exact decides_ok _
      | some b' =>
          rw [nextUsed?_of_some hb hfound]
          -- the bit that was found is shown
          have hholds := (nextBit?_eq_some hfound).1
          obtain ⟨hlow, hhigh⟩ := hshown _ ⟨b', rfl, hholds⟩
          exact (succeeds_startOfBit (lt_totalBits_of_isSome hholds.isSome) hlow hhigh).decides.bind
            fun _ _ => decides_pure _

theorem decides_firstUsed? (hpos : 0 < v.spacing) (hle : v.spacing ≤ maxTickSpacing)
    (hmin : minTick ≤ t) (hmax : t ≤ maxTick) (hshown : ∀ s, v.Marks s → -2 ^ 31 ≤ s ∧ s < 2 ^ 31) :
    Decides (v.firstUsed? t d) := by
  simp only [firstUsed?]
  rw [TickArray.startOf_eq hpos (TickArray.spacing_lt_of_le hle) hmin hmax, ok_bind]
  refine decides_isUsed.bind fun used _ => ?_
  cases used with
  | true => exact decides_pure _
  | false => exact decides_nextUsed? hshown

theorem decides_visibleTicks (hle : v.spacing ≤ maxTickSpacing) : Decides v.visibleTicks := by
  simp only [maxTickSpacing] at hle
  have hbegin : startAt (64 * sideWords) v.spacing = -512 * (60 * v.spacing) := rfl
  have hend : startAt (64 * positiveStart) v.spacing = 512 * (60 * v.spacing) := rfl
  refine .ite (fun _ => decides_ok _) fun _ => ?_
  exact (succeeds_startOfBit (by decide) (by omega) (by omega)).decides.bind fun _ _ =>
    (succeeds_startOfBit (by decide) (by omega) (by omega)).decides.bind fun _ _ => decides_pure _

end BitmapView

/-! ### Inside an array -/

namespace TickArray

variable {a : TickArray} {spacing offset : Nat} {t : Int} {d : Direction}

/-- The search ends in an answer, and never refuses. -/
theorem succeeds_nextUsed? (hpos : 0 < spacing) (hlow : -2 ^ 31 ≤ t - a.start)
    (hhigh : t - a.start < 2 ^ 31 - 1) : Succeeds (a.nextUsed? t spacing d) := by
  simp only [nextUsed?]
  refine (succeeds_signedWithin hlow (by omega)).bind fun relative h => ?_
  obtain ⟨-, rfl⟩ := signedWithin_eq_ok.1 h
  cases d with
  | down =>
      exact .ite (fun _ => succeeds_pure _) fun _ =>
        (succeeds_guardFault hpos.ne').bind fun _ _ => succeeds_pure _
  | up =>
      refine .ite (fun _ => succeeds_pure _) fun hnonneg =>
        (succeeds_guardFault hpos.ne').bind fun _ _ => ?_
      have hquot := Int.ediv_le_self (spacing : Int) (Int.not_lt.1 hnonneg)
      have hnonneg' := Int.ediv_nonneg (Int.not_lt.1 hnonneg) (Int.natCast_nonneg spacing)
      refine (succeeds_signedWithin ?_ ?_).bind fun _ _ => succeeds_pure _
      · omega
      · omega

theorem succeeds_indexAt (hwidth : spacing < 2 ^ 16) (hoffset : offset < arraySize)
    (hlow : -2 ^ 23 ≤ a.start) (hhigh : a.start ≤ maxTick) : Succeeds (a.indexAt offset spacing) := by
  have hsize : arraySize = 60 := rfl
  simp only [maxTick] at hhigh
  have hbmod : Int.bmod offset (2 ^ 32) = offset := by
    rw [Int.bmod_eq_of_le] <;> omega
  have hdistance : offset * spacing ≤ 60 * 2 ^ 16 := Nat.mul_le_mul (by omega) hwidth.le
  simp only [indexAt]
  rw [hbmod, ← Int.natCast_mul]
  refine (succeeds_signedWithin (by omega) (by omega)).bind fun distance h => ?_
  obtain ⟨-, rfl⟩ := signedWithin_eq_ok.1 h
  exact succeeds_signedWithin (by omega) (by omega)

end TickArray

/-! ### Where a walk looks -/

namespace Swap

/-- The course's arrays have indices of 32 bits, and its bitmap shows no others. -/
structure Course.Charted (c : Course) (arrays supplied : List TickArray) : Prop where
  surveys : c.Surveys arrays supplied
  spacing_pos : 0 < c.spacing
  spacing_le : c.spacing ≤ maxTickSpacing
  marked : ∀ s, c.view.Marks s → ∃ a ∈ arrays, a.start = s

namespace Course.Charted

variable {c : Course} {arrays supplied : List TickArray} {t : Int}

theorem spacing_lt (hc : c.Charted arrays supplied) : c.spacing < 2 ^ 16 :=
  TickArray.spacing_lt_of_le hc.spacing_le

theorem start_bounds (hc : c.Charted arrays supplied) {a : TickArray} (ha : a ∈ arrays) :
    -2 ^ 23 ≤ a.start ∧ a.start ≤ maxTick :=
  TickArray.isValidStart_bounds (hc.surveys.laid.aligned a ha).valid hc.spacing_lt

theorem shown_bounds (hc : c.Charted arrays supplied) {s : Int} (hs : c.view.Marks s) :
    -2 ^ 31 ≤ s ∧ s < 2 ^ 31 := by
  obtain ⟨a, ha, rfl⟩ := hc.marked s hs
  have hbounds := hc.start_bounds ha
  simp only [maxTick] at hbounds
  omega

/-- A search inside an array of the market decides. -/
theorem decides_nextUsed? (hc : c.Charted arrays supplied) (hmin : minTick ≤ t) (hmax : t ≤ maxTick)
    {a : TickArray} (ha : a ∈ arrays) : Decides (a.nextUsed? t c.spacing c.direction) := by
  have hbounds := hc.start_bounds ha
  simp only [minTick] at hmin
  simp only [maxTick] at hmax hbounds
  exact (TickArray.succeeds_nextUsed? hc.spacing_pos (by omega) (by omega)).decides

/-- A search through arrays of the market decides. -/
theorem decides_seek (hc : c.Charted arrays supplied) (hmin : minTick ≤ t) (hmax : t ≤ maxTick)
    {index : Nat} {a : TickArray} {rest : List TickArray} (hown : ∀ b ∈ a :: rest, b ∈ arrays) :
    Decides (seek c t index a rest) := by
  have hview : ∀ {start}, Decides (c.view.nextUsed? start c.direction) :=
    BitmapView.decides_nextUsed? fun _ => hc.shown_bounds
  -- the recursion takes the supplied arrays one by one
  induction rest generalizing index a with
  | nil =>
      unfold seek
      refine (hc.decides_nextUsed? hmin hmax (hown a List.mem_cons_self)).bind fun found _ => ?_
      cases found with
      | some offset => exact decides_pure _
      | none =>
          refine hview.bind fun next _ => ?_
          cases next with
          | none => exact decides_pure _
          | some start => exact decides_refused _
  | cons b rest ih =>
      unfold seek
      refine (hc.decides_nextUsed? hmin hmax (hown a List.mem_cons_self)).bind fun found _ => ?_
      cases found with
      | some offset => exact decides_pure _
      | none =>
          refine hview.bind fun next _ => ?_
          cases next with
          | none => exact decides_pure _
          | some start =>
              exact decides_require.bind fun _ _ => ih fun b' hb' => hown b' (List.mem_cons_of_mem _ hb')

theorem decides_firstCursor (hc : c.Charted arrays supplied) (hmin : minTick ≤ t)
    (hmax : t ≤ maxTick) : Decides (firstCursor c supplied t) := by
  have hspacing := hc.surveys.spacing
  refine (BitmapView.decides_firstUsed? (hspacing ▸ hc.spacing_pos) (hspacing ▸ hc.spacing_le) hmin
    hmax fun _ => hc.shown_bounds).bind fun first _ => ?_
  cases first with
  | none => exact decides_pure _
  | some start =>
      cases supplied with
      | nil => exact decides_refused _
      | cons a rest => exact decides_require.bind fun _ _ => decides_pure _

/-- What a step heads for is found or refused. -/
theorem decides_target (hc : c.Charted arrays supplied) {w : Walk}
    (hw : Afoot c arrays supplied w) : Decides (target c w) := by
  have hready := hw.ready
  simp only [target]
  cases hcursor : w.cursor with
  | none => exact decides_pure _
  | some k =>
      rw [hcursor] at hready
      apply hc.decides_seek hw.price.min_le hw.price.le_max
      intro b hb
      rw [← Cursor.Ready.place hready] at hb
      exact hc.surveys.own b (List.mem_of_mem_drop hb)

/-- The tick at which a step ends at the latest is known or refused. -/
theorem decides_bound (hc : c.Charted arrays supplied) {w : Walk} (hw : Afoot c arrays supplied w)
    {found : Option (Cursor × Nat)} (htarget : target c w = .ok found) : Decides (bound c w found) := by
  cases found with
  | none =>
      simp only [bound, edge]
      cases c.direction with
      | down => exact decides_require.bind fun _ _ => decides_pure _
      | up => exact decides_require.bind fun _ _ => decides_pure _
  | some place =>
      obtain ⟨hready, hlt, -⟩ := finds_of_target hc.surveys hw.ready htarget
      obtain ⟨hlow, hhigh⟩ := hc.start_bounds (hc.surveys.own _ hready.mem)
      exact (TickArray.succeeds_indexAt hc.spacing_lt hlt hlow hhigh).decides

end Course.Charted

end Swap

end Clmm
