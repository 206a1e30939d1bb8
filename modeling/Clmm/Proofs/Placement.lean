import Clmm.TickArray
import Clmm.Proofs.Heading
import Mathlib.Tactic.Linarith
import Mathlib.Tactic.Ring

/-!
# Clmm.Proofs.Placement

**Where a tick is kept, and what a search inside one array finds.** The array of tick `t` starts at
the last multiple of the span at or below `t`, and every usable tick has one place in its array
(`offsetOf_eq_ok`). In an array whose ticks carry the indices of their places, the search from any
tick, inside the array or not, finds the nearest tick in use of that array (`nextUsed?_eq_some`,
`nextUsed?_eq_none`).
-/

namespace Clmm

namespace TickArray

/-! ### Starts -/

theorem span_pos {spacing : Nat} (h : 0 < spacing) : 0 < span spacing := by
  unfold span
  omega

theorem floorStart_le (t : Int) {spacing : Nat} (h : 0 < spacing) : floorStart t spacing ≤ t :=
  Int.ediv_mul_le t (span_pos h).ne'

theorem lt_floorStart_add (t : Int) {spacing : Nat} (h : 0 < spacing) :
    t < floorStart t spacing + span spacing := by
  have := Int.lt_ediv_add_one_mul_self t (span_pos h)
  unfold floorStart
  linarith

theorem floorStart_emod (t : Int) (spacing : Nat) : floorStart t spacing % span spacing = 0 :=
  Int.mul_emod_left _ _

theorem floorStart_mono {s t : Int} (hst : s ≤ t) {spacing : Nat} (h : 0 < spacing) :
    floorStart s spacing ≤ floorStart t spacing :=
  Int.mul_le_mul_of_nonneg_right (Int.ediv_le_ediv (span_pos h) hst) (span_pos h).le

/-- Two multiples of the span less than a span apart are equal. -/
theorem eq_of_emod_span {s t : Int} {spacing : Nat} (h : 0 < spacing)
    (hs : s % span spacing = 0) (ht : t % span spacing = 0) (hst : s < t + span spacing)
    (hts : t < s + span spacing) : s = t := by
  have hpos := span_pos h
  obtain ⟨a, rfl⟩ := Int.dvd_of_emod_eq_zero hs
  obtain ⟨b, rfl⟩ := Int.dvd_of_emod_eq_zero ht
  -- as multiples of the span they differ by less than one
  have hab : a < b + 1 := by
    apply lt_of_mul_lt_mul_left (a := span spacing) _ hpos.le
    linarith
  have hba : b < a + 1 := by
    apply lt_of_mul_lt_mul_left (a := span spacing) _ hpos.le
    linarith
  rw [show a = b by omega]

/-- The multiple of the span that a tick's array starts at is the only one within a span below. -/
theorem floorStart_eq {s t : Int} {spacing : Nat} (h : 0 < spacing) (hs : s % span spacing = 0)
    (hle : s ≤ t) (hlt : t < s + span spacing) : floorStart t spacing = s := by
  have := floorStart_le t h
  have := lt_floorStart_add t h
  exact eq_of_emod_span h (floorStart_emod t spacing) hs (by omega) (by omega)

/-- A multiple of the span lies at or below a tick if it does for the start of the tick's array. -/
theorem le_floorStart_iff {s t : Int} {spacing : Nat} (h : 0 < spacing)
    (hs : s % span spacing = 0) : s ≤ floorStart t spacing ↔ s ≤ t := by
  constructor
  · intro hle
    exact hle.trans (floorStart_le t h)
  · intro hle
    have hself : floorStart s spacing = s :=
      floorStart_eq h hs le_rfl (lt_add_of_pos_right s (span_pos h))
    rw [← hself]
    exact floorStart_mono hle h

theorem startOf_eq_ok {t start : Int} {spacing : Nat} (h : startOf t spacing = .ok start) :
    0 < spacing ∧ floorStart t spacing = start := by
  unfold startOf at h
  obtain ⟨_, hspacing, h⟩ := Outcome.bind_eq_ok.1 h
  rw [guardFault_eq_ok] at hspacing
  rw [signedWithin_eq_ok] at h
  exact ⟨Nat.pos_of_ne_zero hspacing, h.2⟩

theorem isValidStart_iff {start : Int} {spacing : Nat} :
    isValidStart start spacing = true ↔ 0 < spacing ∧ start % span spacing = 0 ∧
      floorStart minTick spacing ≤ start ∧ start ≤ floorStart maxTick spacing := by
  unfold isValidStart
  simp [Nat.pos_iff_ne_zero, and_assoc]

/-! ### Places -/

/-- The place of a usable tick lies in its array, at the tick's distance from the start. -/
theorem offsetOf_eq_ok {a : TickArray} {t : Int} {spacing offset : Nat}
    (h : a.offsetOf t spacing = .ok offset) :
    0 < spacing ∧ floorStart t spacing = a.start ∧ offset < arraySize ∧
      a.start + (offset : Int) * spacing = t := by
  unfold offsetOf at h
  simp only [Outcome.bind_eq_ok, guardFault_eq_ok, require_eq_ok, pure, Except.pure,
    Except.ok.injEq] at h
  obtain ⟨-, -, -, hmod, start, hstart, -, rfl, rfl⟩ := h
  obtain ⟨hpos, hfloor⟩ := startOf_eq_ok hstart
  -- a span is sixty spacings, so the distance to the start is a whole number of them
  have hspan : (spacing : Int) ∣ span spacing := ⟨60, by unfold span; ring⟩
  have hdvd : (spacing : Int) ∣ t - a.start := by
    rw [← hfloor]
    apply Int.dvd_sub (Int.dvd_of_emod_eq_zero hmod)
    exact Int.dvd_trans hspan (Int.dvd_of_emod_eq_zero (floorStart_emod t spacing))
  have hle := floorStart_le t hpos
  have hlt := lt_floorStart_add t hpos
  obtain ⟨k, hk⟩ := hdvd
  have hspos : (0 : Int) < spacing := by omega
  have hk0 : 0 ≤ k := by
    by_contra hneg
    have : (spacing : Int) * k ≤ spacing * (-1) :=
      Int.mul_le_mul_of_nonneg_left (by omega) hspos.le
    omega
  have hk60 : k < 60 := by
    apply lt_of_mul_lt_mul_left (a := (spacing : Int)) _ hspos.le
    unfold span at hlt
    linarith
  have hdiv : (t - a.start) / (spacing : Int) = k := by
    rw [hk]
    exact Int.mul_ediv_cancel_left k hspos.ne'
  refine ⟨hpos, hfloor, ?_, ?_⟩
  · rw [hdiv]
    unfold arraySize
    omega
  · rw [hdiv, Int.toNat_of_nonneg hk0]
    linarith

/-- In the array that a usable tick belongs to, it has a place. -/
theorem exists_offsetOf {a : TickArray} {t : Int} {spacing : Nat} (hmod : t % (spacing : Int) = 0)
    (hstart : startOf t spacing = .ok a.start) : ∃ offset, a.offsetOf t spacing = .ok offset := by
  obtain ⟨hpos, -⟩ := startOf_eq_ok hstart
  refine ⟨((t - a.start) / (spacing : Int)).toNat, ?_⟩
  unfold offsetOf
  rw [guardFault, if_pos hpos.ne', Outcome.ok_bind, require, if_pos hmod, Outcome.ok_bind, hstart,
    Outcome.ok_bind, require, if_pos rfl]
  rfl

@[simp] theorem slot_eq_ok {a : TickArray} {offset : Nat} {k : Tick} :
    a.slot offset = .ok k ↔ ∃ h : offset < arraySize, a.ticks[offset] = k := by
  unfold slot
  by_cases h : offset < arraySize <;> simp [h]

theorem indexAt_eq_ok {a : TickArray} {offset spacing : Nat} {t : Int}
    (h : a.indexAt offset spacing = .ok t) (hoffset : offset < arraySize) :
    a.start + (offset : Int) * spacing = t := by
  unfold arraySize at hoffset
  have hbmod : Int.bmod offset (2 ^ 32) = offset := by
    rw [Int.bmod_eq_of_le] <;> omega
  unfold indexAt at h
  rw [hbmod] at h
  obtain ⟨distance, hdistance, h⟩ := Outcome.bind_eq_ok.1 h
  rw [signedWithin_eq_ok] at hdistance h
  rw [hdistance.2]
  exact h.2

/-! ### Aligned arrays -/

/-- An array at a valid start whose ticks carry the indices of their places. -/
structure Aligned (a : TickArray) (spacing : Nat) : Prop where
  valid : isValidStart a.start spacing = true
  index : ∀ i (h : i < arraySize), a.ticks[i].index = a.start + (i : Int) * spacing

/-- The array holds tick `t` in use. -/
def Uses (a : TickArray) (t : Int) : Prop :=
  ∃ i, ∃ h : i < arraySize, a.ticks[i].isInitialized = true ∧ a.ticks[i].index = t

namespace Aligned

variable {a : TickArray} {spacing : Nat}

theorem spacing_pos (ha : a.Aligned spacing) : 0 < spacing :=
  (isValidStart_iff.1 ha.valid).1

theorem start_emod (ha : a.Aligned spacing) : a.start % span spacing = 0 :=
  (isValidStart_iff.1 ha.valid).2.1

/-- The ticks of an array lie within its span, so its start is the start of each. -/
theorem floorStart_index (ha : a.Aligned spacing) {i : Nat} (h : i < arraySize) :
    floorStart a.ticks[i].index spacing = a.start := by
  have hpos := ha.spacing_pos
  rw [ha.index i h]
  unfold arraySize at h
  apply floorStart_eq hpos ha.start_emod
  · have : (0 : Int) ≤ (i : Int) * spacing := by positivity
    omega
  · have : (i : Int) * spacing < 60 * spacing :=
      Int.mul_lt_mul_of_pos_right (by omega) (by omega)
    unfold span
    omega

/-- Different places hold different ticks. -/
theorem index_inj (ha : a.Aligned spacing) {i j : Nat} (hi : i < arraySize) (hj : j < arraySize)
    (h : a.ticks[i].index = a.ticks[j].index) : i = j := by
  have hpos := ha.spacing_pos
  rw [ha.index i hi, ha.index j hj] at h
  have : (i : Int) * spacing = j * spacing := by omega
  have := Int.eq_of_mul_eq_mul_right (by omega) this
  omega

theorem floorStart_of_uses (ha : a.Aligned spacing) {t : Int} (ht : a.Uses t) :
    floorStart t spacing = a.start := by
  obtain ⟨i, hi, -, rfl⟩ := ht
  exact ha.floorStart_index hi

end Aligned

/-! ### The search inside an array -/

theorem isUsed_eq {a : TickArray} {i : Nat} (h : i < arraySize) :
    a.isUsed i = a.ticks[i].isInitialized := by
  unfold isUsed
  rw [dif_pos h]

/-- The tick of a place against a current tick, as a quotient. -/
theorem place_le_iff {spacing : Nat} (h : 0 < spacing) (start current : Int) (i : Nat) :
    start + (i : Int) * spacing ≤ current ↔ (i : Int) ≤ (current - start) / (spacing : Int) := by
  have hpos : (0 : Int) < spacing := Int.natCast_pos.2 h
  rw [Int.le_ediv_iff_mul_le hpos]
  omega

/-- The place holds a tick in use that lies ahead. -/
def isAhead (a : TickArray) (current : Int) (spacing : Nat) (d : Direction) (i : Nat) : Bool :=
  decide (d.Ahead current (a.start + (i : Int) * spacing)) && a.isUsed i

theorem isAhead_eq_true {a : TickArray} {current : Int} {spacing : Nat} {d : Direction} {i : Nat} :
    a.isAhead current spacing d i = true ↔
      d.Ahead current (a.start + (i : Int) * spacing) ∧ a.isUsed i = true := by
  unfold isAhead
  rw [Bool.and_eq_true, decide_eq_true_eq]

/-- The search finds the first place, in its direction, that holds a tick in use ahead. Wherever the
current tick lies, this is what the clipped bounds of the search come to. -/
theorem nextUsed?_eq_ok {a : TickArray} {spacing : Nat} (hspacing : 0 < spacing) {current : Int}
    {d : Direction} {found : Option Nat} (h : a.nextUsed? current spacing d = .ok found) :
    found = match d with
      | .down => greatestBelow? (a.isAhead current spacing d) arraySize
      | .up => leastBelow? (a.isAhead current spacing d) arraySize := by
  have hsize : arraySize = 60 := rfl
  have hplace := place_le_iff hspacing a.start current
  have hnonneg : ∀ i : Nat, (0 : Int) ≤ (i : Int) * spacing := fun i => by positivity
  unfold nextUsed? at h
  obtain ⟨relative, hrelative, h⟩ := Outcome.bind_eq_ok.1 h
  obtain ⟨-, rfl⟩ := signedWithin_eq_ok.1 hrelative
  cases d with
  | down =>
      dsimp only at h ⊢
      by_cases hneg : current - a.start < 0
      · -- the current tick lies below the array, and nothing of it is ahead
        rw [if_pos hneg] at h
        obtain rfl := Except.ok.inj h
        symm
        rw [greatestBelow?_eq_none_iff]
        intro i _
        apply Bool.eq_false_iff.2
        intro hahead
        have hle : a.start + (i : Int) * spacing ≤ current := (isAhead_eq_true.1 hahead).1
        have := hnonneg i
        omega
      · rw [if_neg hneg, Outcome.bind_eq_ok] at h
        obtain ⟨_, -, h⟩ := h
        obtain rfl := Except.ok.inj h
        have hquot : 0 ≤ (current - a.start) / (spacing : Int) :=
          Int.ediv_nonneg (Int.not_lt.1 hneg) (Int.natCast_nonneg _)
        apply greatestBelow?_congr
        intro i
        simp only [isAhead_eq_true, Direction.Ahead, hplace, ← and_assoc]
        exact and_congr_left fun _ => by omega
  | up =>
      dsimp only at h ⊢
      by_cases hneg : current - a.start < 0
      · -- the current tick lies below the array, and all of it is ahead
        rw [if_pos hneg] at h
        obtain rfl := Except.ok.inj h
        apply leastBelow?_congr
        intro i
        have := hnonneg i
        simp only [isAhead_eq_true, Direction.Ahead, ← and_assoc]
        exact and_congr_left fun _ => by omega
      · rw [if_neg hneg, Outcome.bind_eq_ok] at h
        obtain ⟨_, -, h⟩ := h
        rw [Outcome.bind_eq_ok] at h
        obtain ⟨start, hstart, h⟩ := h
        obtain ⟨-, rfl⟩ := signedWithin_eq_ok.1 hstart
        obtain rfl := Except.ok.inj h
        apply leastBelow?_congr
        intro i
        have := hplace i
        simp only [isAhead_eq_true, Direction.Ahead, Bool.and_eq_true, decide_eq_true_eq,
          ← and_assoc]
        exact and_congr_left fun _ => by omega

/-- Whatever the array holds, a place that the search finds lies ahead. -/
theorem ahead_of_nextUsed? {a : TickArray} {spacing offset : Nat} {current : Int} {d : Direction}
    (h : a.nextUsed? current spacing d = .ok (some offset)) :
    offset < arraySize ∧ d.Ahead current (a.start + (offset : Int) * spacing) := by
  rcases Nat.eq_zero_or_pos spacing with rfl | hpos
  · -- without a spacing, only a search upward from before the array gets anywhere
    unfold nextUsed? at h
    obtain ⟨relative, hrelative, h⟩ := Outcome.bind_eq_ok.1 h
    obtain ⟨-, rfl⟩ := signedWithin_eq_ok.1 hrelative
    cases d with
    | down =>
        dsimp only at h
        by_cases hneg : current - a.start < 0
        · rw [if_pos hneg] at h
          cases h
        · rw [if_neg hneg] at h
          cases h
    | up =>
        dsimp only at h
        by_cases hneg : current - a.start < 0
        · rw [if_pos hneg] at h
          obtain ⟨hlt, -, -⟩ := leastBelow?_eq_some_iff.1 (Except.ok.inj h)
          refine ⟨hlt, ?_⟩
          change current < a.start + (offset : Int) * (0 : Nat)
          omega
        · rw [if_neg hneg] at h
          cases h
  · have hfound := nextUsed?_eq_ok hpos h
    cases d with
    | down =>
        obtain ⟨hlt, hahead, -⟩ := greatestBelow?_eq_some_iff.1 hfound.symm
        exact ⟨hlt, (isAhead_eq_true.1 hahead).1⟩
    | up =>
        obtain ⟨hlt, hahead, -⟩ := leastBelow?_eq_some_iff.1 hfound.symm
        exact ⟨hlt, (isAhead_eq_true.1 hahead).1⟩

theorem Aligned.isAhead_iff {a : TickArray} {spacing : Nat} (ha : a.Aligned spacing)
    {current : Int} {d : Direction} {i : Nat} (hi : i < arraySize) :
    a.isAhead current spacing d i = true ↔
      d.Ahead current a.ticks[i].index ∧ a.ticks[i].isInitialized = true := by
  rw [isAhead_eq_true, ha.index i hi, isUsed_eq hi]

/-- Places further on hold ticks further on. -/
theorem Aligned.index_lt {a : TickArray} {spacing : Nat} (ha : a.Aligned spacing) {i j : Nat}
    (hi : i < arraySize) (hj : j < arraySize) (h : i < j) : a.ticks[i].index < a.ticks[j].index := by
  have hpos := ha.spacing_pos
  have hmul : (i : Int) * spacing < j * spacing := Int.mul_lt_mul_of_pos_right (by omega) (by omega)
  rw [ha.index i hi, ha.index j hj]
  omega

/-- The search finds, among the ticks of the array, the nearest one in use. -/
theorem nextUsed?_eq_some {a : TickArray} {spacing : Nat} (ha : a.Aligned spacing) {current : Int}
    {d : Direction} {offset : Nat} (h : a.nextUsed? current spacing d = .ok (some offset)) :
    ∃ hoffset : offset < arraySize, d.Nearest a.Uses current a.ticks[offset].index := by
  have hfound := nextUsed?_eq_ok ha.spacing_pos h
  cases d with
  | down =>
      obtain ⟨hoffset, hahead, hgreatest⟩ := greatestBelow?_eq_some_iff.1 hfound.symm
      rw [ha.isAhead_iff hoffset] at hahead
      refine ⟨hoffset, ⟨offset, hoffset, hahead.2, rfl⟩, hahead.1, ?_⟩
      intro s hs hsahead
      obtain ⟨j, hj, hjused, rfl⟩ := hs
      rcases Nat.lt_trichotomy j offset with hlt | rfl | hgt
      · -- a place before lies further on, since the walk goes down
        exact Or.inr (ha.index_lt hj hoffset hlt)
      · exact Or.inl rfl
      · have hnot := hgreatest j hj hgt
        rw [(ha.isAhead_iff hj).2 ⟨hsahead, hjused⟩] at hnot
        cases hnot
  | up =>
      obtain ⟨hoffset, hahead, hleast⟩ := leastBelow?_eq_some_iff.1 hfound.symm
      rw [ha.isAhead_iff hoffset] at hahead
      refine ⟨hoffset, ⟨offset, hoffset, hahead.2, rfl⟩, hahead.1, ?_⟩
      intro s hs hsahead
      obtain ⟨j, hj, hjused, rfl⟩ := hs
      rcases Nat.lt_trichotomy j offset with hlt | rfl | hgt
      · have hnot := hleast j hlt
        rw [(ha.isAhead_iff hj).2 ⟨hsahead, hjused⟩] at hnot
        cases hnot
      · exact Or.inl rfl
      · exact Or.inr (ha.index_lt hoffset hj hgt)

/-- Where the search finds nothing, no tick in use of the array lies ahead. -/
theorem nextUsed?_eq_none {a : TickArray} {spacing : Nat} (ha : a.Aligned spacing) {current : Int}
    {d : Direction} (h : a.nextUsed? current spacing d = .ok none) {t : Int} (ht : a.Uses t) :
    ¬ d.Ahead current t := by
  have hfound := nextUsed?_eq_ok ha.spacing_pos h
  obtain ⟨i, hi, hused, rfl⟩ := ht
  intro hahead
  have hnot : a.isAhead current spacing d i = false := by
    cases d with
    | down => exact greatestBelow?_eq_none_iff.1 hfound.symm i hi
    | up => exact leastBelow?_eq_none_iff.1 hfound.symm i hi
  rw [(ha.isAhead_iff hi).2 ⟨hahead, hused⟩] at hnot
  cases hnot

end TickArray

end Clmm
