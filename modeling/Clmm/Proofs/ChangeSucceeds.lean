import Clmm.Proofs.Configured
import Clmm.Proofs.PositionBalance
import Clmm.Proofs.Progress

/-!
# Clmm.Proofs.ChangeSucceeds

**When liquidity can be removed** (`succeeds_decrease`). A withdrawal is planned from the market as it
stands and then committed. In an orderly market little of this can fail: a boundary tick in use has its
array, and the counts are those of the ticks in use. What is left to ask for (`Removable`) is that the
boundary ticks and the pool have the liquidity, that the arrays are supplied, and the bitmap extension if
it holds the bit of an array that turns unused; and that the new nets, the owed fees and the released
amounts keep their widths.
-/

namespace Clmm

open TickTable Outcome

/-! ### Bits -/

theorem Bits.succeeds_flipBit {n b : Nat} (words : Vector Word n) (h : b / 64 < n) :
    Succeeds (Bits.flipBit words b) := by
  simp only [Bits.flipBit]
  rw [dif_pos h]
  exact succeeds_ok _

/-- Every valid start has a bit, whatever the spacing. -/
theorem Bitmap.exists_bitIndex {start : Int} {spacing : Nat}
    (h : TickArray.isValidStart start spacing = true) :
    ∃ bit < totalBits, Bitmap.bitIndex start spacing = .ok bit := by
  obtain ⟨hpos, -, hlow, hhigh⟩ := TickArray.isValidStart_iff.1 h
  have hspan := TickArray.span_pos hpos
  have hleast : 60 ≤ TickArray.span spacing := by
    simp only [TickArray.span]
    omega
  have hbelow : -7394 ≤ start / TickArray.span spacing := by
    have hfirst : -7394 ≤ minTick / TickArray.span spacing := by
      rw [Int.le_ediv_iff_mul_le hspan]
      simp only [minTick]
      omega
    exact hfirst.trans ((Int.le_ediv_iff_mul_le hspan).2 hlow)
  have habove : start / TickArray.span spacing < 7394 := by
    rw [Int.ediv_lt_iff_lt_mul hspan]
    have := TickArray.floorStart_le maxTick hpos
    simp only [maxTick] at this hhigh
    omega
  have hzero : (zeroBit : Int) = 7680 := rfl
  have htotal : totalBits = 15360 := rfl
  refine ⟨(start / TickArray.span spacing + zeroBit).toNat, by omega, ?_⟩
  simp only [bitIndex]
  rw [bind_eq_ok]
  refine ⟨(), require_eq_ok.2 h, ?_⟩
  rw [bind_eq_ok]
  exact ⟨(), require_eq_ok.2 ⟨by omega, by omega⟩, rfl⟩

/-- A bit that is stored at hand can be inverted. -/
theorem Bitmap.exists_flip {start : Int} {spacing bit : Nat} {extension : Option BitmapExtension}
    (native : NativeBitmap) (hbit : bitIndex start spacing = .ok bit)
    (hhand : isNative bit = true ∨ extension.isSome = true) :
    ∃ native' extension', Bitmap.flip native extension start spacing = .ok (native', extension') ∧
      extension'.isSome = extension.isSome := by
  obtain ⟨-, hlt, -⟩ := bitIndex_eq_ok hbit
  have hside : sideWords = 112 := rfl
  have hnative : nativeWords = 16 := rfl
  have hpositive : positiveStart = 128 := rfl
  have htotal : totalBits = 15360 := rfl
  simp only [flip]
  rw [hbit, ok_bind]
  by_cases hin : isNative bit = true
  · rw [if_pos hin]
    simp only [isNative, Bool.and_eq_true, decide_eq_true_eq] at hin
    obtain ⟨words, hwords⟩ := Bits.succeeds_flipBit native (b := bit - 64 * sideWords) (by omega)
    refine ⟨words, extension, ?_, rfl⟩
    rw [hwords]
    rfl
  · obtain ⟨e, rfl⟩ := Option.isSome_iff_exists.1 (hhand.resolve_left hin)
    rw [if_neg hin]
    dsimp only
    simp only [isNative, Bool.and_eq_true, decide_eq_true_eq] at hin
    by_cases hbelow : bit < 64 * sideWords
    · obtain ⟨words, hwords⟩ := Bits.succeeds_flipBit e.negative (b := bit) (by omega)
      refine ⟨native, some { e with negative := words }, ?_, rfl⟩
      rw [if_pos hbelow, hwords]
      rfl
    · obtain ⟨words, hwords⟩ := Bits.succeeds_flipBit e.positive
        (b := bit - 64 * positiveStart) (by omega)
      refine ⟨native, some { e with positive := words }, ?_, rfl⟩
      rw [if_neg hbelow, hwords]
      rfl

/-- The start has a bit, and it is stored at hand. -/
def Bitmap.AtHand (start : Int) (spacing : Nat) (extension : Option BitmapExtension) : Prop :=
  ∃ bit, bitIndex start spacing = .ok bit ∧ (isNative bit = true ∨ extension.isSome = true)

/-- With the extension every bit is at hand. -/
theorem Bitmap.atHand_of_isSome {start : Int} {spacing : Nat} {extension : Option BitmapExtension}
    (hvalid : TickArray.isValidStart start spacing = true) (hext : extension.isSome = true) :
    AtHand start spacing extension := by
  obtain ⟨bit, -, hbit⟩ := exists_bitIndex hvalid
  exact ⟨bit, hbit, Or.inr hext⟩

/-! ### Counts -/

namespace CountUpdate

variable {u : CountUpdate} {counts : List CountUpdate} {b : Book} {spacing : Nat}
  {extension : Option BitmapExtension}

/-- The bit that a new number inverts, if it does, is stored at hand. -/
def AtHand (u : CountUpdate) (spacing : Nat) (extension : Option BitmapExtension) : Prop :=
  u.flips = true → Bitmap.AtHand u.start spacing extension

theorem checkBits_eq_ok :
    ChangePlan.checkBits spacing extension counts = .ok () ↔
      ∀ u ∈ counts, u.AtHand spacing extension := by
  induction counts with
  | nil => simp [ChangePlan.checkBits]
  | cons u rest ih =>
      rw [List.forall_mem_cons, ← ih]
      simp only [ChangePlan.checkBits, AtHand, Bitmap.AtHand]
      by_cases hflips : u.flips = true
      · simp [hflips, bind_eq_ok, ← and_assoc]
      · simp [hflips]

/-- A new number can be written if its bit is at hand, and what is at hand stays so. -/
theorem exists_commit (hbit : u.AtHand b.pool.spacing b.extension) :
    ∃ b', u.commit b = .ok () b' ∧ b'.extension.isSome = b.extension.isSome ∧
      b'.pool.spacing = b.pool.spacing := by
  simp only [commit]
  simp only [Update.bind_eq_ok, Update.modify_eq_ok]
  by_cases hflips : u.flips = true
  · obtain ⟨bit, hbit, hhand⟩ := hbit hflips
    obtain ⟨native, extension, hflip, hsome⟩ := Bitmap.exists_flip b.pool.bitmap hbit hhand
    simp only [hflips, if_true, Update.bind_eq_ok, Update.get_eq_ok, Update.lift_eq_ok,
      Update.set_eq_ok]
    exact ⟨_, ⟨(), _, rfl, _, _, ⟨rfl, rfl⟩, (native, extension), _, ⟨hflip, rfl⟩, rfl⟩, hsome, rfl⟩
  · simp only [hflips]
    exact ⟨_, ⟨(), _, rfl, Update.pure_eq_ok.2 ⟨rfl, rfl⟩⟩, rfl, rfl⟩

theorem exists_commits (hbits : ∀ u ∈ counts, u.AtHand b.pool.spacing b.extension) :
    ∃ b', counts.forM commit b = .ok () b' := by
  induction counts generalizing b with
  | nil => exact ⟨b, rfl⟩
  | cons u rest ih =>
      obtain ⟨t, hcommit, hext, hspacing⟩ := exists_commit (hbits u List.mem_cons_self)
      have hrest : ∀ v ∈ rest, v.AtHand t.pool.spacing t.extension := by
        intro v hv
        simp only [AtHand, Bitmap.AtHand, hspacing, hext]
        exact hbits v (List.mem_cons_of_mem _ hv)
      obtain ⟨b', hrest⟩ := ih hrest
      exact ⟨b', Update.bind_eq_ok.2 ⟨(), t, hcommit, hrest⟩⟩

theorem succeeds_plan {i count : Nat} {a : TickArray} {delta : Int}
    (hcount : (a.count : Int) + delta = count) (hle : count ≤ 60) : Succeeds (plan i a delta) :=
  (succeeds_require ⟨by omega, by omega⟩).bind fun _ _ => succeeds_pure _

end CountUpdate

/-- What a plan was checked for last. -/
theorem ChangePlan.checkBits_of_make {b : Book} {delta : Int} {limits : Pair Nat} {plan : ChangePlan}
    (h : make b delta limits = .ok plan) :
    checkBits b.pool.spacing b.extension plan.counts = .ok () := by
  simp only [make, bind_eq_ok, ite_bind_eq_ok] at h
  obtain ⟨_, -, _, -, _, -, _, -, _, -, _, -, _, -, _, -, _, -, _, -, _, -, _, -, _, -, _, -, counts, -,
    _, hbits, h⟩ := h
  obtain rfl := Except.ok.inj h
  exact hbits

/-- **A planned change can be committed**: whatever the book, the plan's checks leave nothing to fail. -/
theorem ChangePlan.exists_commit {b : Book} {delta : Int} {limits : Pair Nat} {plan : ChangePlan}
    (h : make b delta limits = .ok plan) : ∃ b', plan.commit b = .ok () b' := by
  obtain ⟨t, hcounts⟩ := CountUpdate.exists_commits (CountUpdate.checkBits_eq_ok.1 (checkBits_of_make h))
  exact ⟨_, Update.bind_eq_ok.2 ⟨(), t, hcounts, Update.modify_eq_ok.2 rfl⟩⟩

theorem TickArray.usedCount_le (a : TickArray) : a.usedCount ≤ 60 := Vector.countP_le_size

/-- A count changes for one of the two arrays. -/
theorem ChangePlan.start_of_countUpdates {lower upper : TickPlace} {lowerFlipped upperFlipped : Bool}
    {counts : List CountUpdate}
    (h : countUpdates lower upper lowerFlipped upperFlipped = .ok counts) :
    ∀ u ∈ counts, u.start = lower.array.start ∨ u.start = upper.array.start := by
  simp only [countUpdates] at h
  by_cases hindex : lower.index = upper.index
  · rw [if_pos hindex, bind_eq_ok] at h
    obtain ⟨v, hplan, h⟩ := h
    obtain rfl := Except.ok.inj h
    intro u hu
    obtain rfl := List.mem_singleton.1 hu
    exact Or.inl (CountUpdate.plan_eq_ok hplan).2.1
  · rw [if_neg hindex, bind_eq_ok] at h
    obtain ⟨v, hplan, h⟩ := h
    rw [bind_eq_ok] at h
    obtain ⟨v', hplan', h⟩ := h
    obtain rfl := Except.ok.inj h
    intro u hu
    rcases List.mem_cons.1 hu with rfl | hu
    · exact Or.inl (CountUpdate.plan_eq_ok hplan).2.1
    · obtain rfl := List.mem_singleton.1 hu
      exact Or.inr (CountUpdate.plan_eq_ok hplan').2.1

section Counting

variable {m : Market} {starts : List Int} {s t : Int} {lower upper : TickPlace} {lowerOld upperOld : Tick}
  {lowerFlipped upperFlipped : Bool} {counts : List CountUpdate} {u : CountUpdate}

/-- The new count of an array is the number of its ticks in use after a write. -/
theorem Found.count_eq {i offset : Nat} {a : TickArray} {old : Tick} (hm : m.Orderly)
    (h : Found (m.pick starts) m.pool.spacing t i a offset old) (k : Tick) :
    (a.count : Int) + (k.isInitialized.toNat - old.isInitialized.toNat) =
      (a.setSlot offset k).usedCount := by
  have hset := TickArray.usedCount_setSlot (a := a) h.offset_lt k
  rw [h.slot] at hset
  rw [hm.counted a (mem_of_mem_pick h.mem)]
  omega

/-- Both ticks lie in one array. -/
theorem Found.count_eq_both {i offset offset' : Nat} {a : TickArray} {old old' : Tick}
    (hm : m.Orderly) (h : Found (m.pick starts) m.pool.spacing s i a offset old)
    (h' : Found (m.pick starts) m.pool.spacing t i a offset' old') (hne : s ≠ t) (k k' : Tick) :
    (a.count : Int) + ((k.isInitialized.toNat - old.isInitialized.toNat) +
        (k'.isInitialized.toNat - old'.isInitialized.toNat)) =
      ((a.setSlot offset k).setSlot offset' k').usedCount := by
  have hoffset : offset ≠ offset' := by
    rintro rfl
    exact hne (h.index_eq.symm.trans h'.index_eq)
  have hlt := h'.offset_lt
  have hset := TickArray.usedCount_setSlot (a := a) h.offset_lt k
  have hset' := TickArray.usedCount_setSlot (a := a.setSlot offset k) h'.offset_lt k'
  -- the first write left the second place alone
  have hkept : (a.setSlot offset k).ticks[offset'] = old' :=
    (Vector.getElem_setIfInBounds_ne h'.offset_lt hoffset).trans h'.slot
  rw [h.slot] at hset
  rw [hkept] at hset'
  rw [hm.counted a (mem_of_mem_pick h.mem)]
  omega

/-- Arrays at one place of the selection are one array. -/
theorem Found.array_eq {i offset offset' : Nat} {a b : TickArray} {old old' : Tick} (hm : m.Orderly)
    (h : Found (m.pick starts) m.pool.spacing s i a offset old)
    (h' : Found (m.pick starts) m.pool.spacing t i b offset' old') : b = a := by
  have hstart : b.start = a.start := by
    have hat := h.first.1
    rw [h'.first.1] at hat
    exact Option.some.inj hat
  exact hm.laid.eq_of_start_eq (mem_of_mem_pick h'.mem) (mem_of_mem_pick h.mem) hstart

theorem succeeds_countUpdates (hm : m.Orderly)
    (hlower : Found (m.pick starts) m.pool.spacing s lower.index lower.array lower.offset lowerOld)
    (hupper : Found (m.pick starts) m.pool.spacing t upper.index upper.array upper.offset upperOld)
    (hne : s ≠ t) (hlowerFlips : lowerFlipped = (lower.tick.isInitialized != lowerOld.isInitialized))
    (hupperFlips : upperFlipped = (upper.tick.isInitialized != upperOld.isInitialized)) :
    Succeeds (ChangePlan.countUpdates lower upper lowerFlipped upperFlipped) := by
  simp only [ChangePlan.countUpdates]
  rw [tickDelta_eq hlowerFlips, tickDelta_eq hupperFlips]
  by_cases hindex : lower.index = upper.index
  · rw [← hindex] at hupper
    have harray := hlower.array_eq hm hupper
    rw [harray] at hupper
    rw [if_pos hindex]
    exact (CountUpdate.succeeds_plan (hlower.count_eq_both hm hupper hne lower.tick upper.tick)
      (TickArray.usedCount_le _)).bind fun _ _ => succeeds_pure _
  · rw [if_neg hindex]
    exact (CountUpdate.succeeds_plan (hlower.count_eq hm lower.tick)
      (TickArray.usedCount_le _)).bind fun _ _ =>
        (CountUpdate.succeeds_plan (hupper.count_eq hm upper.tick)
          (TickArray.usedCount_le _)).bind fun _ _ => succeeds_pure _

/-- An array of the market with both boundary ticks written, if they lie in it. -/
def TickArray.withTicks (a : TickArray) (lower upper : TickPlace) : TickArray :=
  let b := if a.start = lower.array.start then a.setSlot lower.offset lower.tick else a
  if b.start = upper.array.start then b.setSlot upper.offset upper.tick else b

/-- A planned count is the number of ticks that its array will have in use. -/
theorem count_of_countUpdates (hm : m.Orderly)
    (hlower : Found (m.pick starts) m.pool.spacing s lower.index lower.array lower.offset lowerOld)
    (hupper : Found (m.pick starts) m.pool.spacing t upper.index upper.array upper.offset upperOld)
    (hne : s ≠ t) (hlowerFlips : lowerFlipped = (lower.tick.isInitialized != lowerOld.isInitialized))
    (hupperFlips : upperFlipped = (upper.tick.isInitialized != upperOld.isInitialized))
    (hcounts : ChangePlan.countUpdates lower upper lowerFlipped upperFlipped = .ok counts)
    (hu : u ∈ counts) {a : TickArray} (ha : a ∈ m.arrays) (hstart : a.start = u.start) :
    (u.flips = true ↔ ¬ (a.count = 0 ↔ u.count = 0)) ∧
      u.count = (a.withTicks lower upper).usedCount := by
  have hlowerMem := mem_of_mem_pick hlower.mem
  have hupperMem := mem_of_mem_pick hupper.mem
  simp only [ChangePlan.countUpdates] at hcounts
  rw [tickDelta_eq hlowerFlips, tickDelta_eq hupperFlips] at hcounts
  simp only [TickArray.withTicks]
  by_cases hindex : lower.index = upper.index
  · rw [if_pos hindex, bind_eq_ok] at hcounts
    obtain ⟨v, hplan, hcounts⟩ := hcounts
    obtain rfl := Except.ok.inj hcounts
    obtain rfl := List.mem_singleton.1 hu
    obtain ⟨-, hplanStart, hcount, hflips⟩ := CountUpdate.plan_eq_ok hplan
    rw [← hindex] at hupper
    have harray := hlower.array_eq hm hupper
    rw [harray] at hupper
    obtain rfl := hm.laid.eq_of_start_eq ha hlowerMem (hstart.trans hplanStart)
    refine ⟨hflips, ?_⟩
    rw [hlower.count_eq_both hm hupper hne] at hcount
    rw [if_pos rfl, harray]
    exact (Int.ofNat_inj.1 hcount).trans (congrArg _ (if_pos rfl).symm)
  · have hapart : lower.array.start ≠ upper.array.start := fun heq =>
      hindex (FirstAt.index_inj hlower.first (heq ▸ hupper.first))
    rw [if_neg hindex, bind_eq_ok] at hcounts
    obtain ⟨v, hplan, hcounts⟩ := hcounts
    rw [bind_eq_ok] at hcounts
    obtain ⟨v', hplan', hcounts⟩ := hcounts
    obtain rfl := Except.ok.inj hcounts
    rcases List.mem_cons.1 hu with rfl | hu
    · obtain ⟨-, hplanStart, hcount, hflips⟩ := CountUpdate.plan_eq_ok hplan
      obtain rfl := hm.laid.eq_of_start_eq ha hlowerMem (hstart.trans hplanStart)
      refine ⟨hflips, ?_⟩
      rw [hlower.count_eq hm] at hcount
      rw [if_pos rfl]
      exact (Int.ofNat_inj.1 hcount).trans (congrArg _ (if_neg hapart).symm)
    · obtain rfl := List.mem_singleton.1 hu
      obtain ⟨-, hplanStart, hcount, hflips⟩ := CountUpdate.plan_eq_ok hplan'
      obtain rfl := hm.laid.eq_of_start_eq ha hupperMem (hstart.trans hplanStart)
      refine ⟨hflips, ?_⟩
      rw [hupper.count_eq hm] at hcount
      rw [if_neg hapart.symm, if_pos rfl]
      exact Int.ofNat_inj.1 hcount

/-- An array in which some tick will be in use does not turn unused. -/
theorem count_ne_zero_of_uses (hm : m.Orderly)
    (hlower : Found (m.pick starts) m.pool.spacing s lower.index lower.array lower.offset lowerOld)
    (hupper : Found (m.pick starts) m.pool.spacing t upper.index upper.array upper.offset upperOld)
    (hlowerIndex : lower.tick.index = s) (hupperIndex : upper.tick.index = t) {a : TickArray}
    (ha : a ∈ m.arrays) {r : Int} (hstart : TickArray.floorStart r m.pool.spacing = a.start)
    (huse : (Function.update (Function.update (lookup m.arrays) s lower.tick) t upper.tick
      r).isInitialized = true) :
    (a.withTicks lower upper).usedCount ≠ 0 := by
  -- the arrays with both ticks written hold the tick in use
  have hlaid := laid_setSlot hm.laid (hlowerIndex.trans hlower.index_eq.symm)
  have hlaid' := laid_setSlot hlaid (hupperIndex.trans hupper.index_eq.symm)
  have htable : lookup (modifyAt (modifyAt m.arrays lower.array.start
      (·.setSlot lower.offset lower.tick)) upper.array.start (·.setSlot upper.offset upper.tick)) =
      Function.update (Function.update (lookup m.arrays) s lower.tick) t upper.tick := by
    rw [lookup_setSlot hlaid ?_ hupper.offset_lt (hupperIndex.trans hupper.index_eq.symm),
      lookup_setSlot hm.laid (List.mem_map_of_mem (mem_of_mem_pick hlower.mem)) hlower.offset_lt
        (hlowerIndex.trans hlower.index_eq.symm), hlowerIndex, hupperIndex]
    rw [map_start_modifyAt_setSlot]
    exact List.mem_map_of_mem (mem_of_mem_pick hupper.mem)
  rw [← htable, isInitialized_lookup hlaid'] at huse
  obtain ⟨c, hc, huses⟩ := huse
  have hcStart := (hlaid'.aligned c hc).floorStart_of_uses huses
  have hwritten : a.withTicks lower upper ∈ modifyAt (modifyAt m.arrays lower.array.start
      (·.setSlot lower.offset lower.tick)) upper.array.start (·.setSlot upper.offset upper.tick) :=
    mem_modifyAt.2 ⟨_, mem_modifyAt.2 ⟨a, ha, rfl⟩, rfl⟩
  have hwrittenStart : (a.withTicks lower upper).start = a.start := by
    simp only [TickArray.withTicks]
    split <;> split <;> rfl
  obtain rfl := hlaid'.eq_of_start_eq hc hwritten
    (hcStart.symm.trans (hstart.trans hwrittenStart.symm))
  exact TickArray.usedCount_ne_zero.2 ⟨r, huses⟩

end Counting

/-! ### Boundary ticks -/

/-- A tick gives up liquidity that it has, as long as its net keeps its width. -/
theorem Tick.succeeds_update {k : Tick} {current : Int} {n : Nat} {globals : Pair Growth}
    {bound : Tick.Bound} (hpos : 0 < n) (hgross : n ≤ k.gross)
    (hlow : -2 ^ 127 ≤ k.net + bound.signed (-(n : Int)))
    (hhigh : k.net + bound.signed (-(n : Int)) < 2 ^ 127) :
    Succeeds (k.update current (-(n : Int)) globals bound) := by
  simp only [update]
  refine ((succeeds_addSigned_neg hpos hgross).orRefuse _).bind fun _ _ => ?_
  refine Succeeds.bind ?_ fun _ _ => succeeds_pure _
  cases bound with
  | lower => exact succeeds_signedNarrow hlow hhigh
  | upper =>
      have hsub : k.net + Tick.Bound.signed .upper (-(n : Int)) = k.net - -(n : Int) := rfl
      rw [hsub] at hlow hhigh
      exact succeeds_signedNarrow hlow hhigh

theorem findArray_of_mem {arrays : List TickArray} {a : TickArray} (h : a ∈ arrays) :
    ∃ found, findArray a.start arrays = some found := by
  induction arrays with
  | nil => exact absurd h List.not_mem_nil
  | cons b rest ih =>
      simp only [findArray]
      by_cases hb : b.start = a.start
      · exact ⟨(0, b), if_pos hb⟩
      · rcases List.mem_cons.1 h with rfl | hrest
        · exact absurd rfl hb
        · obtain ⟨found, hfound⟩ := ih hrest
          rw [if_neg hb, hfound]
          exact ⟨_, rfl⟩

theorem mem_pick {m : Market} {spacing : Nat} (hl : Laid m.arrays spacing) {a : TickArray}
    (ha : a ∈ m.arrays) {starts : List Int} (hstart : a.start ∈ starts) : a ∈ m.pick starts := by
  simp only [Market.pick]
  refine List.mem_filterMap.2 ⟨a.start, hstart, ?_⟩
  cases hfind : m.arrays.find? (·.start = a.start) with
  | none =>
      rw [List.find?_eq_none] at hfind
      exact absurd (hfind a ha) (by simp)
  | some b =>
      have hb := List.mem_of_find?_eq_some hfind
      exact congrArg some (hl.eq_of_start_eq hb ha (by simpa using List.find?_some hfind))

/-- A tick in use can be read, if its array is among the supplied ones. -/
theorem Market.Orderly.exists_found {m : Market} (hm : m.Orderly)
    (hspacing : m.pool.spacing ≤ maxTickSpacing) {t : Int} (hmin : minTick ≤ t) (hmax : t ≤ maxTick)
    (ht : (lookup m.arrays t).gross ≠ 0) {starts : List Int}
    (hstart : TickArray.floorStart t m.pool.spacing ∈ starts) :
    t % (m.pool.spacing : Int) = 0 ∧
    ∃ i a offset k, arrayFor (m.pick starts) t m.pool.spacing = .ok (i, a) ∧
      a.offsetOf t m.pool.spacing = .ok offset ∧ a.slot offset = .ok k := by
  have hstartOf := TickArray.startOf_eq hm.spacing_pos (TickArray.spacing_lt_of_le hspacing) hmin hmax
  obtain ⟨a, ha, hfloor, huses⟩ := exists_uses hm.laid ht
  have haligned := hm.laid.aligned a ha
  rw [← hfloor] at hstart hstartOf
  have hmod : t % (m.pool.spacing : Int) = 0 := by
    obtain ⟨j, hj, -, rfl⟩ := huses
    -- the start is a multiple of the span, so of the spacing, and the tick lies whole spacings above
    obtain ⟨c, hc⟩ := Int.dvd_of_emod_eq_zero haligned.start_emod
    rw [haligned.index j hj, hc]
    simp only [TickArray.span]
    refine Int.emod_eq_zero_of_dvd ⟨60 * c + j, ?_⟩
    ring
  refine ⟨hmod, ?_⟩
  obtain ⟨⟨i, b⟩, hfind⟩ := findArray_of_mem (mem_pick hm.laid ha hstart)
  obtain ⟨hb, hstartEq, -⟩ := findArray_eq_some hfind
  obtain rfl := hm.laid.eq_of_start_eq (mem_of_mem_pick hb) ha hstartEq
  have harray : arrayFor (m.pick starts) t m.pool.spacing = .ok (i, b) := by
    simp only [arrayFor]
    rw [hstartOf, ok_bind, hfind]
    rfl
  obtain ⟨offset, hoffset⟩ := TickArray.exists_offsetOf hmod hstartOf
  obtain ⟨-, -, hlt, -⟩ := TickArray.offsetOf_eq_ok hoffset
  exact ⟨i, b, offset, b.ticks[offset], harray, hoffset, TickArray.slot_eq_ok.2 ⟨hlt, rfl⟩⟩

/-- A boundary tick is found and gives up liquidity that it has. -/
theorem Market.Orderly.exists_boundary {m : Market} (hm : m.Orderly) (bound : Tick.Bound)
    (hspacing : m.pool.spacing ≤ maxTickSpacing) {n : Nat} (hpos : 0 < n) {t : Int}
    (hmin : minTick ≤ t) (hmax : t ≤ maxTick) (hgross : n ≤ (lookup m.arrays t).gross)
    {starts : List Int} (hstart : TickArray.floorStart t m.pool.spacing ∈ starts)
    (hlow : -2 ^ 127 ≤ (lookup m.arrays t).net + bound.signed (-(n : Int)))
    (hhigh : (lookup m.arrays t).net + bound.signed (-(n : Int)) < 2 ^ 127) :
    t % (m.pool.spacing : Int) = 0 ∧
    ∃ i a offset k, arrayFor (m.pick starts) t m.pool.spacing = .ok (i, a) ∧
      a.offsetOf t m.pool.spacing = .ok offset ∧ a.slot offset = .ok k ∧
      Found (m.pick starts) m.pool.spacing t i a offset k ∧ k = lookup m.arrays t ∧
      ∀ current globals, Succeeds (k.update current (-(n : Int)) globals bound) := by
  obtain ⟨hmod, i, a, offset, k, harray, hoffset, hslot⟩ :=
    hm.exists_found hspacing hmin hmax (Nat.lt_of_lt_of_le hpos hgross).ne' hstart
  have hfound := found_of_eq_ok harray hoffset hslot
  obtain ⟨-, -, hk⟩ := hfound.tickState hm.laid
  refine ⟨hmod, i, a, offset, k, harray, hoffset, hslot, hfound, hk, fun _ _ => ?_⟩
  rw [← hk] at hgross hlow hhigh
  exact Tick.succeeds_update hpos hgross hlow hhigh

/-! ### Planning a withdrawal -/

theorem succeeds_checkRange {lower upper : Int} {spacing : Nat} (hspacing : 0 < spacing)
    (hlt : lower < upper) (hmin : minTick ≤ lower) (hmax : upper ≤ maxTick)
    (hlower : lower % (spacing : Int) = 0) (hupper : upper % (spacing : Int) = 0) :
    Succeeds (checkRange lower upper spacing) :=
  (succeeds_require hlt).bind fun _ _ => (succeeds_require ⟨hmin, hmax⟩).bind fun _ _ =>
    (succeeds_guardFault hspacing.ne').bind fun _ _ => succeeds_require ⟨hlower, hupper⟩

/-- Released amounts reach minima of zero. -/
theorem ChangePlan.succeeds_checkLimits {n : Nat} (hpos : 0 < n) (amounts : Pair Nat) :
    Succeeds (checkLimits (-(n : Int)) amounts ⟨0, 0⟩) := by
  simp only [checkLimits]
  rw [if_neg (by omega), if_pos (by omega)]
  exact succeeds_require ⟨Nat.zero_le _, Nat.zero_le _⟩

theorem Market.isSome_supplied {m : Market} {s : Supply} (h : s.extension = true) :
    (m.supplied s).isSome = true := by
  simp only [supplied]
  rw [if_pos h]
  rfl

/-- Some tick of the array at `start` stays in use when the position `p` loses liquidity `n`. -/
def Market.StaysInUse (m : Market) (p : Position) (n : Nat) (start : Int) : Prop :=
  ∃ t, TickArray.floorStart t m.pool.spacing = start ∧
    (if p.lower = t ∨ p.upper = t then n else 0) < (lookup m.arrays t).gross

/-- Liquidity `n` of the position `p` can be removed with the supply `s`. -/
structure Market.Removable (m : Market) (p : Position) (n : Nat) (s : Supply) : Prop where
  pos : 0 < n
  le : n ≤ p.liquidity
  narrow : n < 2 ^ 127
  spacing_le : m.pool.spacing ≤ maxTickSpacing
  range : minTick ≤ p.lower ∧ p.lower < p.upper ∧ p.upper ≤ maxTick
  lower : TickArray.floorStart p.lower m.pool.spacing ∈ s.starts
  upper : TickArray.floorStart p.upper m.pool.spacing ∈ s.starts
  /-- An array that turns unused has its bit at hand. -/
  bits : ∀ t, p.lower = t ∨ p.upper = t →
    Bitmap.AtHand (TickArray.floorStart t m.pool.spacing) m.pool.spacing (m.supplied s) ∨
      m.StaysInUse p n (TickArray.floorStart t m.pool.spacing)
  lowerGross : n ≤ (lookup m.arrays p.lower).gross
  upperGross : n ≤ (lookup m.arrays p.upper).gross
  lowerNet : -2 ^ 127 ≤ (lookup m.arrays p.lower).net - n ∧ (lookup m.arrays p.lower).net - n < 2 ^ 127
  upperNet : -2 ^ 127 ≤ (lookup m.arrays p.upper).net + n ∧ (lookup m.arrays p.upper).net + n < 2 ^ 127
  liquidity : p.Covers m.pool.tick → n ≤ m.pool.liquidity
  settle : Succeeds (p.settle (m.scene.inside p))
  amounts : Succeeds (amountsFor m.pool.sqrtPrice m.pool.tick p.lower p.upper n .down)

namespace Market.Removable

variable {m : Market} {p : Position} {n i : Nat} {s : Supply} {lower upper : TickPlace}
  {lowerOld lowerMade upperOld upperMade : Tick} {lowerFlipped upperFlipped : Bool}
  {counts : List CountUpdate}

/-- The bits of a planned withdrawal are at hand. -/
theorem atHand (h : m.Removable p n s) (hm : m.Orderly)
    (hlower : Found (m.pick s.starts) m.pool.spacing p.lower lower.index lower.array lower.offset
      lowerOld)
    (hupper : Found (m.pick s.starts) m.pool.spacing p.upper upper.index upper.array upper.offset
      upperOld)
    (hlowerChanged : Tick.Changed lowerOld lowerMade lower.tick .lower (-(n : Int)))
    (hupperChanged : Tick.Changed upperOld upperMade upper.tick .upper (-(n : Int)))
    (hlowerFlips : lowerFlipped = (lower.tick.isInitialized != lowerOld.isInitialized))
    (hupperFlips : upperFlipped = (upper.tick.isInitialized != upperOld.isInitialized))
    (hcounts : ChangePlan.countUpdates lower upper lowerFlipped upperFlipped = .ok counts)
    {u : CountUpdate} (hu : u ∈ counts) : u.AtHand m.pool.spacing (m.supplied s) := by
  obtain ⟨hlowerMem, hlowerIndex, hlowerOld⟩ := hlower.tickState hm.laid
  obtain ⟨hupperMem, hupperIndex, hupperOld⟩ := hupper.tickState hm.laid
  have hpos := h.pos
  have hlowerGross := h.lowerGross
  have hupperGross := h.upperGross
  have hlowerNew := hlowerChanged.gross
  have hupperNew := hupperChanged.gross
  rw [hlowerOld] at hlowerNew
  rw [hupperOld] at hupperNew
  intro hflips
  -- the array of a boundary tick has its bit at hand, or it keeps a tick in use and does not turn
  have hbound : ∀ {t : Int} {a : TickArray}, p.lower = t ∨ p.upper = t → a ∈ m.arrays →
      a.start = TickArray.floorStart t m.pool.spacing → a.start = u.start →
      Bitmap.AtHand u.start m.pool.spacing (m.supplied s) := by
    intro t a ht ha hfloor hstart
    rcases h.bits t ht with hhand | ⟨r, hr, hstays⟩
    · rwa [← hstart, hfloor]
    · have hnew : (a.withTicks lower upper).usedCount ≠ 0 := by
        refine count_ne_zero_of_uses hm hlower hupper (hlowerChanged.index.trans hlowerIndex)
          (hupperChanged.index.trans hupperIndex) ha (hr.trans hfloor.symm) (decide_eq_true ?_)
        by_cases hru : r = p.upper
        · subst hru
          rw [if_pos (Or.inr rfl)] at hstays
          rw [Function.update_self]
          omega
        · rw [Function.update_of_ne hru]
          by_cases hrl : r = p.lower
          · subst hrl
            rw [if_pos (Or.inl rfl)] at hstays
            rw [Function.update_self]
            omega
          · rw [if_neg fun hor => hor.elim (hrl ·.symm) (hru ·.symm)] at hstays
            rw [Function.update_of_ne hrl]
            exact hstays.ne'
      have hold : a.count ≠ 0 := by
        have huse : (lookup m.arrays t).gross ≠ 0 := by rcases ht with rfl | rfl <;> omega
        obtain ⟨b, hb, hbStart, huses⟩ := exists_uses hm.laid huse
        obtain rfl := hm.laid.eq_of_start_eq hb ha (hbStart.trans hfloor.symm)
        rw [hm.counted b hb]
        exact TickArray.usedCount_ne_zero.2 ⟨t, huses⟩
      obtain ⟨hturns, hcount⟩ := count_of_countUpdates hm hlower hupper h.range.2.1.ne hlowerFlips
        hupperFlips hcounts hu ha hstart
      rw [← hcount] at hnew
      exact absurd (iff_of_false hold hnew) (hturns.1 hflips)
  rcases ChangePlan.start_of_countUpdates hcounts u hu with hstart | hstart
  · exact hbound (Or.inl rfl) hlowerMem hlower.start_eq hstart.symm
  · exact hbound (Or.inr rfl) hupperMem hupper.start_eq hstart.symm

theorem succeeds_make (h : m.Removable p n s) (hm : m.Orderly) :
    Succeeds (ChangePlan.make (m.book p s) (-(n : Int)) ⟨0, 0⟩) := by
  have hpos := h.pos
  have hdelta : -(n : Int) ≠ 0 := by omega
  obtain ⟨hmin, hlt, hmax⟩ := h.range
  have hnegated : ∀ z : Int, z + Tick.Bound.signed .upper (-(n : Int)) = z + n := by
    intro z
    simp only [Tick.Bound.signed]
    rw [Int.neg_neg]
  obtain ⟨hlowerMod, il, al, ol, kl, hlowerArray, hlowerOffset, hlowerSlot, hlower, hkl,
      hlowerUpdate⟩ := hm.exists_boundary .lower h.spacing_le hpos hmin (hlt.le.trans hmax)
    h.lowerGross h.lower h.lowerNet.1 h.lowerNet.2
  obtain ⟨hupperMod, iu, au, ou, ku, hupperArray, hupperOffset, hupperSlot, hupper, hku,
      hupperUpdate⟩ := hm.exists_boundary .upper h.spacing_le hpos (hmin.trans hlt.le) hmax
    h.upperGross h.upper (hnegated _ ▸ h.upperNet.1) (hnegated _ ▸ h.upperNet.2)
  simp only [ChangePlan.make, book]
  -- both boundary ticks are found
  refine (succeeds_checkRange hm.spacing_pos hlt hmin hmax hlowerMod hupperMod).bind fun _ _ => ?_
  rw [hlowerArray, ok_bind]
  dsimp only
  rw [hupperArray, ok_bind]
  dsimp only
  rw [hlowerOffset, ok_bind, hupperOffset, ok_bind, hlowerSlot, ok_bind, hupperSlot, ok_bind]
  -- both give up the liquidity
  rw [if_neg hdelta]
  refine (hlowerUpdate _ _).bind fun lowerUpdated hlowerMade => ?_
  obtain ⟨lowerMade, lowerFlipped⟩ := lowerUpdated
  dsimp only
  rw [if_neg hdelta]
  refine (hupperUpdate _ _).bind fun upperUpdated hupperMade => ?_
  obtain ⟨upperMade, upperFlipped⟩ := upperUpdated
  dsimp only
  obtain ⟨hlowerChanged, hlowerFlips⟩ := Tick.changed_of_update hdelta hlowerMade
  obtain ⟨hupperChanged, hupperFlips⟩ := Tick.changed_of_update hdelta hupperMade
  -- the fees are settled as the market shows them
  have hinside : Tick.growthInside lowerMade upperMade m.pool.tick m.pool.growth =
      m.scene.inside p := by
    have hlowerGross := h.lowerGross
    have hupperGross := h.upperGross
    rw [← hkl] at hlowerGross
    rw [← hku] at hupperGross
    apply growthInside_congr
    · exact hlowerChanged.index_made.trans (congrArg (·.index) hkl)
    · exact hupperChanged.index_made.trans (congrArg (·.index) hku)
    · exact (hlowerChanged.outside (by omega)).trans (congrArg (·.outside) hkl)
    · exact (hupperChanged.outside (by omega)).trans (congrArg (·.outside) hku)
  rw [hinside]
  refine h.settle.bind fun _ _ => ?_
  refine ((succeeds_addSigned_neg hpos h.le).orRefuse _).bind fun _ _ => ?_
  rw [if_neg (show ¬ 0 < -(n : Int) by omega), Int.natAbs_neg, Int.natAbs_natCast]
  refine h.amounts.bind fun amounts _ => ?_
  refine (ChangePlan.succeeds_checkLimits hpos amounts).bind fun _ _ => ?_
  refine Succeeds.ite_bind ?_ fun _ _ => ?_
  · -- the liquidity in range includes that of the position
    exact Succeeds.ite (fun hcovers => succeeds_addSigned_neg hpos (h.liquidity hcovers))
      fun _ => succeeds_pure _
  refine (succeeds_countUpdates hm hlower hupper hlt.ne hlowerFlips hupperFlips).bind
    fun counts hcounts => ?_
  exact Succeeds.bind ⟨(), CountUpdate.checkBits_eq_ok.2 fun u hu => h.atHand hm hlower hupper
    hlowerChanged hupperChanged hlowerFlips hupperFlips hcounts hu⟩ fun _ _ => succeeds_pure _

theorem succeeds_modifyPosition (h : m.Removable p n s) (hm : m.Orderly) :
    Update.Succeeds (modifyPosition (-(n : Int)) ⟨0, 0⟩) (m.book p s) := by
  obtain ⟨plan, hmake⟩ := h.succeeds_make hm
  obtain ⟨t, hcommit⟩ := ChangePlan.exists_commit hmake
  simp only [modifyPosition]
  refine Update.succeeds_get.bind fun b b' hget => ?_
  obtain ⟨rfl, rfl⟩ := Update.get_eq_ok.1 hget
  refine (Update.succeeds_lift ⟨plan, hmake⟩).bind fun plan' b' hlift => ?_
  rw [Update.lift_eq_ok, hmake] at hlift
  obtain ⟨rfl, rfl⟩ : plan = plan' ∧ b' = m.book p s := ⟨Except.ok.inj hlift.1, hlift.2⟩
  exact Update.Succeeds.bind ⟨(), t, hcommit⟩ fun _ _ _ => Update.succeeds_pure _

/-- **Liquidity can be removed** under the conditions named. -/
theorem succeeds_decrease (h : m.Removable p n s) (hm : m.Orderly) (hi : m.positions[i]? = some p) :
    Succeeds (m.decrease i n ⟨0, 0⟩ s) := by
  have hrun : Update.Succeeds (decreaseLiquidity n ⟨0, 0⟩) (m.book p s) := by
    simp only [decreaseLiquidity]
    refine Update.succeeds_get.bind fun b b' hget => ?_
    obtain ⟨rfl, rfl⟩ := Update.get_eq_ok.1 hget
    refine (Update.succeeds_lift (succeeds_require h.le)).bind fun _ b' hlift => ?_
    obtain rfl := (Update.lift_eq_ok.1 hlift).2
    refine (Update.succeeds_lift (succeeds_narrow h.narrow)).bind fun delta b' hlift => ?_
    obtain ⟨hnarrow, rfl⟩ := Update.lift_eq_ok.1 hlift
    obtain ⟨-, rfl⟩ := narrow_eq_ok.1 hnarrow
    refine (h.succeeds_modifyPosition hm).bind fun _ _ _ => ?_
    exact Update.succeeds_get.bind fun _ _ _ =>
      (Update.succeeds_modify _).bind fun _ _ _ => Update.succeeds_pure _
  obtain ⟨change, b, hrun⟩ := hrun
  have hposition : m.position i = .ok p := by
    simp only [position]
    rw [hi]
  simp only [decrease, runAt, runOn]
  rw [hposition, ok_bind, hrun]
  exact succeeds_pure _

end Market.Removable

end Clmm
