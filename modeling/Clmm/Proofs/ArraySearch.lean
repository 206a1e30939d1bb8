import Clmm.Proofs.SearchDecides
import Mathlib.Order.Bounds.Basic
import Mathlib.Order.Minimal

/-!
# Clmm.Proofs.ArraySearch

**The search inside an array finds the next tick in use, and every usable tick is found at its place**
(`search_and_addressing`). Nothing is asked of what the array holds: the ticks of its places are told by
their indices, which start and spacing give. Downward the search answers with the greatest place in use
at or below the current tick, upward with the least above it; and since all indices fit 32 bits, it
answers from every tick there is, inside the array or not.
-/

namespace Clmm

/-! ### Extreme members of a set -/

section Extremes

variable {p : Nat → Bool} {n i : Nat}

theorem greatestBelow?_eq_some_iff_isGreatest :
    greatestBelow? p n = some i ↔ IsGreatest {j | j < n ∧ p j = true} i := by
  rw [greatestBelow?_eq_some_iff, ← maximal_iff_isGreatest, maximal_iff_forall_gt]
  simp only [Set.mem_ofPred_eq, not_and, Bool.not_eq_true, and_assoc]
  exact and_congr_right' (and_congr_right' (forall_congr' fun j => forall_comm))

theorem leastBelow?_eq_some_iff_isLeast :
    leastBelow? p n = some i ↔ IsLeast {j | j < n ∧ p j = true} i := by
  rw [leastBelow?_eq_some_iff, ← minimal_iff_isLeast, minimal_iff_forall_lt]
  simp only [Set.mem_ofPred_eq, not_and, Bool.not_eq_true, and_assoc]
  refine and_congr_right fun hi => and_congr_right' (forall_congr' fun j => ?_)
  exact ⟨fun h hji _ => h hji, fun h hji => h hji (hji.trans hi)⟩

theorem eq_empty_iff_forall_false :
    {j | j < n ∧ p j = true} = ∅ ↔ ∀ j < n, p j = false := by
  rw [Set.eq_empty_iff_forall_notMem]
  refine forall_congr' fun j => ?_
  rw [Set.mem_ofPred_eq, not_and, Bool.not_eq_true]

end Extremes

namespace TickArray

variable {a : TickArray} {spacing i : Nat} {current t : Int} {d : Direction}

/-! ### The places ahead -/

/-- The places of the array that hold a tick in use ahead of the current one. -/
def placesAhead (a : TickArray) (current : Int) (spacing : Nat) (d : Direction) : Set Nat :=
  {i | a.isUsed i = true ∧ ∃ t, a.indexAt i spacing = .ok t ∧ d.Ahead current t}

theorem lt_of_isUsed (h : a.isUsed i = true) : i < arraySize := by
  by_contra hi
  unfold isUsed at h
  rw [dif_neg hi] at h
  cases h

theorem indexAt_eq (hvalid : isValidStart a.start spacing = true) (hwidth : spacing < 2 ^ 16)
    (hi : i < arraySize) : a.indexAt i spacing = .ok (a.start + (i : Int) * spacing) := by
  obtain ⟨hlow, hhigh⟩ := isValidStart_bounds hvalid hwidth
  obtain ⟨t, ht⟩ := succeeds_indexAt hwidth hi hlow hhigh
  rw [ht, indexAt_eq_ok ht hi]

theorem placesAhead_eq (hvalid : isValidStart a.start spacing = true) (hwidth : spacing < 2 ^ 16) :
    a.placesAhead current spacing d =
      {j | j < arraySize ∧ a.isAhead current spacing d j = true} := by
  ext j
  simp only [placesAhead, Set.mem_ofPred_eq, isAhead_eq_true]
  constructor
  · rintro ⟨hused, t, ht, hahead⟩
    have hj := lt_of_isUsed hused
    rw [indexAt_eq hvalid hwidth hj] at ht
    obtain rfl := Except.ok.inj ht
    exact ⟨hj, hahead, hused⟩
  · rintro ⟨hj, hahead, hused⟩
    exact ⟨hused, _, indexAt_eq hvalid hwidth hj, hahead⟩

/-! ### The search -/

/-- From a tick of the tick range a search in an array at a valid start always answers. -/
theorem succeeds_nextUsed?_of_valid (hvalid : isValidStart a.start spacing = true)
    (hwidth : spacing < 2 ^ 16) (hmin : minTick ≤ current) (hmax : current ≤ maxTick) :
    (a.nextUsed? current spacing d).Succeeds := by
  obtain ⟨hlow, hhigh⟩ := isValidStart_bounds hvalid hwidth
  simp only [minTick] at hmin
  simp only [maxTick] at hmax hhigh
  exact succeeds_nextUsed? (isValidStart_iff.1 hvalid).1 (by omega) (by omega)

theorem nextUsed?_down (hvalid : isValidStart a.start spacing = true) (hwidth : spacing < 2 ^ 16)
    (hmin : minTick ≤ current) (hmax : current ≤ maxTick) :
    a.nextUsed? current spacing .down =
      .ok (greatestBelow? (a.isAhead current spacing .down) arraySize) := by
  obtain ⟨found, h⟩ := succeeds_nextUsed?_of_valid (d := .down) hvalid hwidth hmin hmax
  rw [h, nextUsed?_eq_ok (isValidStart_iff.1 hvalid).1 h]

theorem nextUsed?_up (hvalid : isValidStart a.start spacing = true) (hwidth : spacing < 2 ^ 16)
    (hmin : minTick ≤ current) (hmax : current ≤ maxTick) :
    a.nextUsed? current spacing .up =
      .ok (leastBelow? (a.isAhead current spacing .up) arraySize) := by
  obtain ⟨found, h⟩ := succeeds_nextUsed?_of_valid (d := .up) hvalid hwidth hmin hmax
  rw [h, nextUsed?_eq_ok (isValidStart_iff.1 hvalid).1 h]

/-! ### The place of a tick -/

/-- A usable tick has one place in its array, and that place has its index. -/
theorem exists_place (hpos : 0 < spacing) (hwidth : spacing < 2 ^ 16) (hmin : minTick ≤ t)
    (hmax : t ≤ maxTick) (hmod : t % (spacing : Int) = 0)
    (hstart : startOf t spacing = .ok a.start) :
    ∃ offset < arraySize, a.offsetOf t spacing = .ok offset ∧ a.indexAt offset spacing = .ok t := by
  obtain ⟨offset, hoffset⟩ := exists_offsetOf hmod hstart
  obtain ⟨-, hfloor, hlt, hindex⟩ := offsetOf_eq_ok hoffset
  obtain ⟨hlow, hhigh⟩ := floorStart_bounds hpos hwidth hmin hmax
  obtain ⟨s, hs⟩ := succeeds_indexAt hwidth hlt (hfloor ▸ hlow) (hfloor ▸ hhigh)
  rw [← indexAt_eq_ok hs hlt, hindex] at hs
  exact ⟨offset, hlt, hoffset, hs⟩

/-- **In-array search and addressing.** For every spacing of 16 bits, every array at a valid start and
whatever it holds: every place has its index, and from every tick the search downward answers with the
greatest place in use whose index is at or below the tick, the search upward with the least whose index is
above it, and either with none exactly if there is none. And every usable tick has a place in the array at
its start, whose index it is. -/
theorem search_and_addressing (hpos : 0 < spacing) (hwidth : spacing < 2 ^ 16) :
    (∀ a : TickArray, isValidStart a.start spacing = true →
      (∀ i < arraySize, a.indexAt i spacing = .ok (a.start + (i : Int) * spacing)) ∧
      ∀ current, minTick ≤ current → current ≤ maxTick →
        (∀ d, (a.nextUsed? current spacing d).Succeeds) ∧
        (∀ i, a.nextUsed? current spacing .down = .ok (some i) ↔
          IsGreatest (a.placesAhead current spacing .down) i) ∧
        (a.nextUsed? current spacing .down = .ok none ↔ a.placesAhead current spacing .down = ∅) ∧
        (∀ i, a.nextUsed? current spacing .up = .ok (some i) ↔
          IsLeast (a.placesAhead current spacing .up) i) ∧
        (a.nextUsed? current spacing .up = .ok none ↔ a.placesAhead current spacing .up = ∅)) ∧
    ∀ t, minTick ≤ t → t ≤ maxTick → t % (spacing : Int) = 0 →
      ∃ start, startOf t spacing = .ok start ∧ isValidStart start spacing = true ∧
        ∀ a : TickArray, a.start = start →
          ∃ offset < arraySize,
            a.offsetOf t spacing = .ok offset ∧ a.indexAt offset spacing = .ok t := by
  constructor
  · intro a hvalid
    refine ⟨fun i hi => indexAt_eq hvalid hwidth hi, fun current hmin hmax => ?_⟩
    simp only [placesAhead_eq hvalid hwidth, nextUsed?_down hvalid hwidth hmin hmax,
      nextUsed?_up hvalid hwidth hmin hmax, Except.ok.injEq, eq_empty_iff_forall_false]
    exact ⟨fun d => succeeds_nextUsed?_of_valid hvalid hwidth hmin hmax,
      fun i => greatestBelow?_eq_some_iff_isGreatest, greatestBelow?_eq_none_iff,
      fun i => leastBelow?_eq_some_iff_isLeast, leastBelow?_eq_none_iff⟩
  · intro t hmin hmax hmod
    refine ⟨floorStart t spacing, startOf_eq hpos hwidth hmin hmax, ?_, fun a hstart => ?_⟩
    · exact isValidStart_iff.2 ⟨hpos, floorStart_emod t spacing, floorStart_mono hmin hpos,
        floorStart_mono hmax hpos⟩
    · exact exists_place hpos hwidth hmin hmax hmod (hstart ▸ startOf_eq hpos hwidth hmin hmax)

/-- An array of the ticks from -3000 to -50, fifty apart, of which -1000 and -50 are in use. -/
def lowArray : TickArray :=
  ({ zeroed with start := -3000 }.setSlot 40 { Tick.empty (-1000) with gross := 1 }).setSlot 59
    { Tick.empty (-50) with gross := 1 }

/-- At tick -1000 that tick is the next one downward and -50 the next one upward; below the array none is
left. -/
theorem search_and_addressing_below_zero :
    0 < 50 ∧ 50 < 2 ^ 16 ∧ isValidStart lowArray.start 50 = true ∧
    IsGreatest (lowArray.placesAhead (-1000) 50 .down) 40 ∧
    IsLeast (lowArray.placesAhead (-1000) 50 .up) 59 ∧
    lowArray.placesAhead (-3001) 50 .down = ∅ ∧
    ∃ offset < arraySize,
      lowArray.offsetOf (-1000) 50 = .ok offset ∧ lowArray.indexAt offset 50 = .ok (-1000) := by
  have hvalid : isValidStart lowArray.start 50 = true := by decide +kernel
  obtain ⟨hsearch, haddress⟩ := @search_and_addressing 50 (by decide) (by decide)
  obtain ⟨-, hsearch⟩ := hsearch lowArray hvalid
  obtain ⟨-, hdown, -, hup, -⟩ := hsearch (-1000) (by decide) (by decide)
  obtain ⟨-, -, hnone, -, -⟩ := hsearch (-3001) (by decide) (by decide)
  obtain ⟨start, hstart, -, hplace⟩ := haddress (-1000) (by decide) (by decide) (by decide)
  obtain rfl : start = -3000 := Except.ok.inj (hstart.symm.trans (by decide +kernel))
  exact ⟨by decide, by decide, hvalid, (hdown 40).1 (by decide +kernel),
    (hup 59).1 (by decide +kernel), hnone.1 (by decide +kernel), hplace lowArray rfl⟩

end TickArray

end Clmm
