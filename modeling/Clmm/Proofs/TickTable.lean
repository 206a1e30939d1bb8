import Clmm.Market
import Clmm.Proofs.Placement
import Mathlib.Data.List.Nodup
import Mathlib.Logic.Function.Basic

/-!
# Clmm.Proofs.TickTable

**The tick arrays of a pool as one table of ticks.** `lookup` reads a tick by its index and gives the
empty tick where none is kept. In a *laid out* list of arrays (starts ascending, every tick at its
place) an index has at most one tick, so writing one place of one array is an update of the table at
one index (`lookup_modifyAt`).

Operations work on a selection of the arrays, named by their places in it. `putBack_modify` carries a
write at a place of the selection over to the array with that start; it asks that the place be the
first one with its start, since later copies are never looked at.
-/

namespace Clmm

/-- What an array keeps from when it is set up. -/
def TickArray.label (a : TickArray) : Key × Int × Nat := (a.pool, a.start, a.bump)

namespace TickTable

/-! ### The table -/

/-- All ticks of all arrays, in order. -/
def ticks (arrays : List TickArray) : List Tick := arrays.flatMap (·.ticks.toList)

/-- The tick with index `t`; an empty one if no array keeps it. -/
def lookup (arrays : List TickArray) (t : Int) : Tick :=
  ((ticks arrays).find? (·.index = t)).getD (Tick.empty t)

/-- The arrays stand in order, and each keeps its ticks at their places. -/
structure Laid (arrays : List TickArray) (spacing : Nat) : Prop where
  sorted : arrays.Pairwise (·.start < ·.start)
  aligned : ∀ a ∈ arrays, a.Aligned spacing

variable {arrays arrays' : List TickArray} {spacing : Nat} {t : Int} {k : Tick}

theorem mem_ticks :
    k ∈ ticks arrays ↔ ∃ a ∈ arrays, ∃ i, ∃ h : i < arraySize, a.ticks[i] = k := by
  simp only [ticks]
  simp only [List.mem_flatMap, Vector.mem_toList_iff, Vector.mem_iff_getElem]

theorem Laid.nodup_starts (hl : Laid arrays spacing) : (arrays.map (·.start)).Nodup :=
  List.pairwise_map.2 (hl.sorted.imp fun hlt => Int.ne_of_lt hlt)

theorem Laid.eq_of_start_eq (hl : Laid arrays spacing) {a b : TickArray} (ha : a ∈ arrays)
    (hb : b ∈ arrays) (h : a.start = b.start) : a = b :=
  List.inj_on_of_nodup_map hl.nodup_starts ha hb h

/-- No two ticks of the table have the same index. -/
theorem Laid.eq_of_index_eq (hl : Laid arrays spacing) {k' : Tick} (hk : k ∈ ticks arrays)
    (hk' : k' ∈ ticks arrays) (h : k.index = k'.index) : k = k' := by
  obtain ⟨a, ha, i, hi, rfl⟩ := mem_ticks.1 hk
  obtain ⟨b, hb, j, hj, rfl⟩ := mem_ticks.1 hk'
  -- the index of a tick tells its array
  have hstart : a.start = b.start := by
    rw [← (hl.aligned a ha).floorStart_index hi, ← (hl.aligned b hb).floorStart_index hj, h]
  obtain rfl := hl.eq_of_start_eq ha hb hstart
  obtain rfl := (hl.aligned a ha).index_inj hi hj h
  rfl

theorem lookup_of_mem (hl : Laid arrays spacing) (hk : k ∈ ticks arrays) :
    lookup arrays k.index = k := by
  simp only [lookup]
  cases hfind : (ticks arrays).find? (·.index = k.index) with
  | none =>
      rw [List.find?_eq_none] at hfind
      exact absurd (hfind k hk) (by simp)
  | some k' =>
      have hindex := List.find?_some hfind
      exact hl.eq_of_index_eq (List.mem_of_find?_eq_some hfind) hk (by simpa using hindex)

theorem lookup_of_forall_ne (h : ∀ k ∈ ticks arrays, k.index ≠ t) :
    lookup arrays t = Tick.empty t := by
  simp only [lookup]
  rw [List.find?_eq_none.2 fun k hk => by simpa using h k hk]
  rfl

@[simp] theorem index_lookup : (lookup arrays t).index = t := by
  simp only [lookup]
  cases hfind : (ticks arrays).find? (·.index = t) with
  | none => rfl
  | some k => simpa using List.find?_some hfind

/-- A tick that differs from an empty one is kept in some array. -/
theorem lookup_mem_of_ne (h : lookup arrays t ≠ Tick.empty t) : lookup arrays t ∈ ticks arrays := by
  simp only [lookup] at *
  cases hfind : (ticks arrays).find? (·.index = t) with
  | none => exact absurd (by rw [hfind]; rfl) h
  | some k => exact List.mem_of_find?_eq_some hfind

theorem lookup_mem_of_isInitialized (h : (lookup arrays t).isInitialized = true) :
    lookup arrays t ∈ ticks arrays := by
  apply lookup_mem_of_ne
  intro heq
  rw [heq] at h
  exact absurd h (by simp [Tick.isInitialized, Tick.empty])

/-- Tables with the same ticks of one index agree there. -/
theorem lookup_congr (hl : Laid arrays spacing) (hl' : Laid arrays' spacing)
    (h : ∀ k : Tick, k.index = t → (k ∈ ticks arrays ↔ k ∈ ticks arrays')) :
    lookup arrays t = lookup arrays' t := by
  by_cases hk : ∃ k ∈ ticks arrays, k.index = t
  · obtain ⟨k, hk, rfl⟩ := hk
    rw [lookup_of_mem hl hk, lookup_of_mem hl' ((h k rfl).1 hk)]
  · have hne : ∀ k ∈ ticks arrays, k.index ≠ t := fun k hk' heq => hk ⟨k, hk', heq⟩
    have hne' : ∀ k ∈ ticks arrays', k.index ≠ t := fun k hk' heq =>
      hne k ((h k heq).2 hk') heq
    rw [lookup_of_forall_ne hne, lookup_of_forall_ne hne']

/-- The ticks in use are those that some array uses. -/
theorem isInitialized_lookup (hl : Laid arrays spacing) :
    (lookup arrays t).isInitialized = true ↔ ∃ a ∈ arrays, a.Uses t := by
  constructor
  · intro h
    obtain ⟨a, ha, i, hi, heq⟩ := mem_ticks.1 (lookup_mem_of_isInitialized h)
    refine ⟨a, ha, i, hi, ?_, ?_⟩
    · rw [heq]
      exact h
    · rw [heq, index_lookup]
  · intro huses
    obtain ⟨a, ha, i, hi, hused, rfl⟩ := huses
    rw [lookup_of_mem hl (mem_ticks.2 ⟨a, ha, i, hi, rfl⟩)]
    exact hused

/-- A tick in use lies in the array around it. -/
theorem exists_uses (hl : Laid arrays spacing) (h : (lookup arrays t).gross ≠ 0) :
    ∃ a ∈ arrays, a.start = TickArray.floorStart t spacing ∧ a.Uses t := by
  obtain ⟨a, ha, huses⟩ := (isInitialized_lookup hl).1 (decide_eq_true h)
  exact ⟨a, ha, ((hl.aligned a ha).floorStart_of_uses huses).symm, huses⟩

/-- The indices of the table ascend. -/
theorem pairwise_index (hl : Laid arrays spacing) :
    (ticks arrays).Pairwise (·.index < ·.index) := by
  simp only [ticks]
  rw [List.pairwise_flatMap]
  constructor
  · intro a ha
    rw [List.pairwise_iff_getElem]
    intro i j hi hj hij
    have haligned := hl.aligned a ha
    have hpos := haligned.spacing_pos
    simp only [Vector.length_toList] at hi hj
    simp only [Vector.getElem_toList]
    rw [haligned.index i hi, haligned.index j hj]
    have : (i : Int) * spacing < j * spacing := Int.mul_lt_mul_of_pos_right (by omega) (by omega)
    omega
  · -- ticks of a later array lie beyond its start, which those of an earlier one do not reach
    refine hl.sorted.imp_of_mem fun {a b} ha hb hlt k hk k' hk' => ?_
    obtain ⟨i, hi, rfl⟩ := Vector.mem_iff_getElem.1 (Vector.mem_toList_iff.1 hk)
    obtain ⟨j, hj, rfl⟩ := Vector.mem_iff_getElem.1 (Vector.mem_toList_iff.1 hk')
    by_contra hge
    have hpos := (hl.aligned a ha).spacing_pos
    have := TickArray.floorStart_mono (Int.not_lt.1 hge) hpos
    rw [(hl.aligned a ha).floorStart_index hi, (hl.aligned b hb).floorStart_index hj] at this
    omega

/-! ### Writing one array -/

/-- Changes the array at a start. -/
def modifyAt (arrays : List TickArray) (start : Int) (f : TickArray → TickArray) :
    List TickArray :=
  arrays.map fun a => if a.start = start then f a else a

theorem mem_modifyAt {start : Int} {f : TickArray → TickArray} {b : TickArray} :
    b ∈ modifyAt arrays start f ↔
      ∃ a ∈ arrays, (if a.start = start then f a else a) = b := by
  simp only [modifyAt]
  rw [List.mem_map]

/-- What a change of an array leaves alone stays so in the whole list. -/
theorem map_modifyAt {α : Type} {g : TickArray → α} {start : Int} {f : TickArray → TickArray}
    (hf : ∀ a, g (f a) = g a) : (modifyAt arrays start f).map g = arrays.map g := by
  simp only [modifyAt]
  rw [List.map_map]
  apply List.map_congr_left
  intro a _
  simp only [Function.comp]
  split
  · exact hf a
  · rfl

theorem map_start_modifyAt_setSlot (arrays : List TickArray) (start : Int) (offset : Nat)
    (k : Tick) : (modifyAt arrays start (·.setSlot offset k)).map (·.start) =
      arrays.map (·.start) :=
  map_modifyAt fun _ => rfl

theorem map_label_modifyAt_setSlot (arrays : List TickArray) (start : Int) (offset : Nat)
    (k : Tick) : (modifyAt arrays start (·.setSlot offset k)).map (·.label) =
      arrays.map (·.label) :=
  map_modifyAt fun _ => rfl

/-- An array keeps its ticks at their places when a change of it does. -/
theorem Laid.modifyAt (hl : Laid arrays spacing) {start : Int} {f : TickArray → TickArray}
    (hstart : ∀ a, (f a).start = a.start)
    (hf : ∀ a ∈ arrays, a.start = start → (f a).Aligned spacing) :
    Laid (modifyAt arrays start f) spacing := by
  constructor
  · have hstarts : ((TickTable.modifyAt arrays start f).map (·.start)).Pairwise (· < ·) := by
      rw [map_modifyAt hstart]
      exact List.pairwise_map.2 hl.sorted
    exact List.pairwise_map.1 hstarts
  · intro b hb
    obtain ⟨a, ha, rfl⟩ := mem_modifyAt.1 hb
    split
    · rename_i heq
      exact hf a ha heq
    · exact hl.aligned a ha

theorem aligned_setSlot {a : TickArray} (ha : a.Aligned spacing) {offset : Nat}
    (hk : k.index = a.start + (offset : Int) * spacing) :
    (a.setSlot offset k).Aligned spacing := by
  refine ⟨ha.valid, ?_⟩
  intro i hi
  simp only [TickArray.setSlot]
  simp only [Vector.getElem_setIfInBounds]
  split
  · rename_i heq
    rw [hk, heq]
  · exact ha.index i hi

theorem aligned_setCount {a : TickArray} (ha : a.Aligned spacing) (count : Nat) :
    ({ a with count } : TickArray).Aligned spacing :=
  ⟨ha.valid, ha.index⟩

variable {start : Int} {offset : Nat}

theorem laid_setSlot (hl : Laid arrays spacing)
    (hk : k.index = start + (offset : Int) * spacing) :
    Laid (modifyAt arrays start (·.setSlot offset k)) spacing :=
  hl.modifyAt (fun _ => rfl) fun a ha hstart => aligned_setSlot (hl.aligned a ha) (by rw [hk, hstart])

/-- **Writing one place updates the table at one index.** -/
theorem lookup_setSlot (hl : Laid arrays spacing) (hmem : start ∈ arrays.map (·.start))
    (hoffset : offset < arraySize) (hk : k.index = start + (offset : Int) * spacing) :
    lookup (modifyAt arrays start (·.setSlot offset k)) =
      Function.update (lookup arrays) k.index k := by
  have hl' := laid_setSlot hl hk
  obtain ⟨a, ha, rfl⟩ := List.mem_map.1 hmem
  funext t
  by_cases ht : t = k.index
  · subst ht
    rw [Function.update_self]
    apply lookup_of_mem hl'
    refine mem_ticks.2 ⟨a.setSlot offset k, mem_modifyAt.2 ⟨a, ha, if_pos rfl⟩, offset, hoffset, ?_⟩
    simp [TickArray.setSlot]
  · rw [Function.update_of_ne ht]
    apply lookup_congr hl' hl
    rintro k' rfl
    simp only [mem_ticks]
    constructor
    · intro hmem
      obtain ⟨b, hb, i, hi, rfl⟩ := hmem
      obtain ⟨a', ha', rfl⟩ := mem_modifyAt.1 hb
      refine ⟨a', ha', i, hi, ?_⟩
      by_cases heq : a'.start = a.start
      · simp only [if_pos heq] at ht ⊢
        simp only [TickArray.setSlot, Vector.getElem_setIfInBounds] at ht ⊢
        -- the place that was written holds `k` now, whose index is another
        by_cases hplace : offset = i
        · rw [if_pos hplace] at ht
          exact absurd rfl ht
        · rw [if_neg hplace]
      · simp only [if_neg heq]
    · intro hmem
      obtain ⟨a', ha', i, hi, rfl⟩ := hmem
      refine ⟨_, mem_modifyAt.2 ⟨a', ha', rfl⟩, i, hi, ?_⟩
      by_cases heq : a'.start = a.start
      · simp only [if_pos heq, TickArray.setSlot, Vector.getElem_setIfInBounds]
        rw [if_neg]
        rintro rfl
        apply ht
        rw [(hl.aligned a' ha').index _ hi, hk, heq]
      · simp only [if_neg heq]

theorem laid_setCount (hl : Laid arrays spacing) (start : Int) (count : Nat) :
    Laid (modifyAt arrays start ({ · with count })) spacing :=
  hl.modifyAt (fun _ => rfl) fun a ha _ => aligned_setCount (hl.aligned a ha) count

/-! ### Adding an empty array -/

theorem mem_insertArray {a b : TickArray} (h : a.start ∉ arrays.map (·.start)) :
    b ∈ Market.insertArray a arrays ↔ b = a ∨ b ∈ arrays := by
  induction arrays with
  | nil => simp [Market.insertArray]
  | cons c rest ih =>
      simp only [List.map_cons, List.mem_cons, not_or] at h
      simp only [Market.insertArray]
      by_cases hlt : a.start < c.start
      · simp [hlt]
      · rw [if_neg hlt, if_neg h.1, List.mem_cons, ih h.2, List.mem_cons]
        tauto

theorem sorted_insertArray {a : TickArray} (h : a.start ∉ arrays.map (·.start))
    (hs : arrays.Pairwise (·.start < ·.start)) :
    (Market.insertArray a arrays).Pairwise (·.start < ·.start) := by
  induction arrays with
  | nil => simp [Market.insertArray]
  | cons c rest ih =>
      simp only [List.map_cons, List.mem_cons, not_or] at h
      rw [List.pairwise_cons] at hs
      simp only [Market.insertArray]
      by_cases hlt : a.start < c.start
      · rw [if_pos hlt, List.pairwise_cons, List.pairwise_cons]
        refine ⟨?_, hs⟩
        intro b hb
        rcases List.mem_cons.1 hb with rfl | hb
        · exact hlt
        · exact Int.lt_trans hlt (hs.1 b hb)
      · rw [if_neg hlt, if_neg h.1, List.pairwise_cons]
        refine ⟨?_, ih h.2 hs.2⟩
        intro b hb
        rcases (mem_insertArray h.2).1 hb with rfl | hb
        · omega
        · exact hs.1 b hb

theorem aligned_fresh {pool : Key} {bump : Nat} {a : TickArray}
    (h : TickArray.fresh pool start spacing bump = .ok a) :
    a.Aligned spacing ∧ a.start = start ∧ a.count = 0 ∧
      ∀ i (hi : i < arraySize), a.ticks[i] = Tick.empty (start + (i : Int) * spacing) := by
  simp only [TickArray.fresh] at h
  rw [Outcome.bind_eq_ok] at h
  obtain ⟨_, hvalid, h⟩ := h
  rw [require_eq_ok] at hvalid
  obtain rfl := Except.ok.inj h
  refine ⟨⟨hvalid, fun i hi => ?_⟩, rfl, rfl, fun i hi => ?_⟩ <;>
    simp [Tick.empty]

/-- A fresh array leaves the table as it is. -/
theorem lookup_insertArray (hl : Laid arrays spacing) {pool : Key} {bump : Nat} {a : TickArray}
    (h : TickArray.fresh pool start spacing bump = .ok a) (hnew : start ∉ arrays.map (·.start)) :
    Laid (Market.insertArray a arrays) spacing ∧
      lookup (Market.insertArray a arrays) = lookup arrays := by
  obtain ⟨haligned, rfl, -, hempty⟩ := aligned_fresh h
  have hl' : Laid (Market.insertArray a arrays) spacing :=
    ⟨sorted_insertArray hnew hl.sorted, fun b hb => by
      rcases (mem_insertArray hnew).1 hb with rfl | hb
      · exact haligned
      · exact hl.aligned b hb⟩
  refine ⟨hl', ?_⟩
  funext t
  by_cases ht : ∃ i, ∃ hi : i < arraySize, a.ticks[i].index = t
  · obtain ⟨i, hi, rfl⟩ := ht
    have hmem : a.ticks[i] ∈ ticks (Market.insertArray a arrays) :=
      mem_ticks.2 ⟨a, (mem_insertArray hnew).2 (Or.inl rfl), i, hi, rfl⟩
    rw [lookup_of_mem hl' hmem, lookup_of_forall_ne, hempty i hi]
    · rfl
    · intro k hk heq
      obtain ⟨b, hb, j, hj, rfl⟩ := mem_ticks.1 hk
      apply hnew
      rw [← haligned.floorStart_index hi, ← heq, (hl.aligned b hb).floorStart_index hj]
      exact List.mem_map_of_mem hb
  · apply lookup_congr hl' hl
    rintro k rfl
    simp only [mem_ticks, mem_insertArray hnew]
    constructor
    · intro hmem
      obtain ⟨b, hor, i, hi, rfl⟩ := hmem
      rcases hor with rfl | hb
      · exact absurd ⟨i, hi, rfl⟩ ht
      · exact ⟨b, hb, i, hi, rfl⟩
    · intro hmem
      obtain ⟨b, hb, i, hi, rfl⟩ := hmem
      exact ⟨b, Or.inr hb, i, hi, rfl⟩

/-! ### Writing through a selection -/

/-- Place `i` of the selection is the first one with start `s`. -/
def FirstAt (starts : List Int) (i : Nat) (s : Int) : Prop :=
  starts[i]? = some s ∧ s ∉ starts.take i

/-- A place and its start determine each other. -/
theorem FirstAt.index_inj {starts : List Int} {i j : Nat} {s : Int} (hi : FirstAt starts i s)
    (hj : FirstAt starts j s) : i = j := by
  -- of two places the later one would not be the first
  have key : ∀ {i j : Nat}, FirstAt starts i s → FirstAt starts j s → ¬ i < j := by
    intro i j hi hj hlt
    apply hj.2
    rw [List.mem_take_iff_getElem]
    obtain ⟨hlen, heq⟩ := List.getElem?_eq_some_iff.1 hi.1
    exact ⟨i, by omega, heq⟩
  have h1 := key hi hj
  have h2 := key hj hi
  omega

variable {selection : List TickArray} {i : Nat} {f : TickArray → TickArray}

theorem map_start_modify (hf : ∀ a, (f a).start = a.start) :
    (selection.modify i f).map (·.start) = selection.map (·.start) := by
  induction selection generalizing i with
  | nil => simp
  | cons a rest ih =>
      cases i with
      | zero => simp [hf]
      | succ i => simp [ih]

theorem find?_modify (hfirst : FirstAt (selection.map (·.start)) i start)
    (hf : ∀ a, (f a).start = a.start) (s : Int) :
    (selection.modify i f).find? (·.start = s) =
      (selection.find? (·.start = s)).map fun a => if s = start then f a else a := by
  induction selection generalizing i with
  | nil => simp [FirstAt] at hfirst
  | cons a rest ih =>
      cases i with
      | zero =>
          obtain rfl : a.start = start := by simpa [FirstAt] using hfirst.1
          rw [List.modify_zero_cons]
          by_cases hs : a.start = s
          · rw [List.find?_cons_of_pos (by simp [hf, hs]), List.find?_cons_of_pos (by simp [hs]),
              Option.map_some, if_pos hs.symm]
          · rw [List.find?_cons_of_neg (by simp [hf, hs]), List.find?_cons_of_neg (by simp [hs])]
            simp [Ne.symm hs]
      | succ i =>
          obtain ⟨hat, hbefore⟩ := hfirst
          simp only [List.map_cons, List.take_succ_cons, List.mem_cons, not_or] at hbefore
          rw [List.modify_succ_cons]
          by_cases hs : a.start = s
          · have hne : s ≠ start := by
              rw [← hs]
              exact Ne.symm hbefore.1
            rw [List.find?_cons_of_pos (by simp [hs]), List.find?_cons_of_pos (by simp [hs]),
              Option.map_some, if_neg hne]
          · rw [List.find?_cons_of_neg (by simp [hs]), List.find?_cons_of_neg (by simp [hs])]
            exact ih ⟨by simpa using hat, hbefore.2⟩

/-- A write at a place of the selection is a write of the array with that start. -/
theorem putBack_modify (hfirst : FirstAt (selection.map (·.start)) i start)
    (hf : ∀ a, (f a).start = a.start) :
    Market.putBack arrays (selection.modify i f) =
      modifyAt (Market.putBack arrays selection) start f := by
  have hkeep : ∀ a : TickArray,
      ((selection.find? (·.start = a.start)).getD a).start = a.start := fun a => by
    cases hfind : selection.find? (·.start = a.start) with
    | none => rfl
    | some b => simpa using List.find?_some hfind
  simp only [Market.putBack, modifyAt]
  rw [List.map_map]
  apply List.map_congr_left
  intro a _
  simp only [Function.comp, hkeep a, find?_modify hfirst hf]
  cases hfind : selection.find? (·.start = a.start) with
  | none =>
      -- the place is among the selected ones, so its start is found
      have hmem : start ∈ selection.map (·.start) := List.mem_of_getElem? hfirst.1
      obtain ⟨b, hb, rfl⟩ := List.mem_map.1 hmem
      rw [List.find?_eq_none] at hfind
      have := hfind b hb
      simp only [Option.map_none, Option.getD_none]
      rw [if_neg]
      intro heq
      exact this (by simp [heq])
  | some b => rfl

theorem putBack_setCount (hfirst : FirstAt (selection.map (·.start)) i start) (count : Nat) :
    Market.putBack arrays (selection.modify i ({ · with count })) =
      modifyAt (Market.putBack arrays selection) start ({ · with count }) :=
  putBack_modify hfirst fun _ => rfl

theorem putBack_setSlot (hfirst : FirstAt (selection.map (·.start)) i start) (offset : Nat)
    (k : Tick) :
    Market.putBack arrays (selection.modify i (·.setSlot offset k)) =
      modifyAt (Market.putBack arrays selection) start (·.setSlot offset k) :=
  putBack_modify hfirst fun _ => rfl

theorem map_start_setCount (i count : Nat) :
    (selection.modify i ({ · with count })).map (·.start) = selection.map (·.start) :=
  map_start_modify fun _ => rfl

theorem map_start_setSlot (i offset : Nat) (k : Tick) :
    (selection.modify i (·.setSlot offset k)).map (·.start) = selection.map (·.start) :=
  map_start_modify fun _ => rfl

/-- Putting back an unchanged selection changes nothing. -/
theorem putBack_self (hl : Laid arrays spacing) (h : ∀ a ∈ selection, a ∈ arrays) :
    Market.putBack arrays selection = arrays := by
  simp only [Market.putBack]
  conv_rhs => rw [← List.map_id arrays]
  apply List.map_congr_left
  intro a ha
  cases hfind : selection.find? (·.start = a.start) with
  | none => rfl
  | some b =>
      have hb := h b (List.mem_of_find?_eq_some hfind)
      exact hl.eq_of_start_eq hb ha (by simpa using List.find?_some hfind)

theorem mem_of_mem_pick {m : Market} {starts : List Int} {a : TickArray}
    (h : a ∈ m.pick starts) : a ∈ m.arrays := by
  simp only [Market.pick] at h
  obtain ⟨s, -, hs⟩ := List.mem_filterMap.1 h
  exact List.mem_of_find?_eq_some hs

end TickTable

end Clmm
