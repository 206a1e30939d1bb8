import Clmm.LiquidityChange
import Clmm.Proofs.WellFormed

/-!
# Clmm.Proofs.TickChange

**What a change of liquidity does to ticks, counts and bits**, one part at a time.

* A boundary tick's gross and net change by the amount, with the sign of its bound; its growth is
  untouched while some liquidity refers to it; and it is cleared when none is left (`Tick.Changed`).
* A boundary tick is found in the first supplied array with its start (`Found`).
* The planned counts are the old ones plus what the two boundary ticks gained or lost, and committing
  them keeps the bitmap true (`counts_committed`).
-/

namespace Clmm

open TickTable

/-! ### One boundary tick -/

namespace Tick

/-- How a change of a position's liquidity counts in the net of its bound. -/
def Bound.signed (b : Bound) (delta : Int) : Int :=
  match b with
  | .lower => delta
  | .upper => -delta

/-- From tick `k`, a change by `delta` made tick `u`, and `k'` is what is kept of it. -/
structure Changed (k u k' : Tick) (bound : Bound) (delta : Int) : Prop where
  index_made : u.index = k.index
  index : k'.index = k.index
  gross : (k'.gross : Int) = k.gross + delta
  net : k'.gross ≠ 0 → k'.net = k.net + bound.signed delta
  kept : k'.gross ≠ 0 → k' = u
  cleared : k'.gross = 0 → k' = k ∨ k' = empty k.index
  outside : k.gross ≠ 0 → u.outside = k.outside
  fits : k' = k ∨ -2 ^ 127 ≤ k'.net ∧ k'.net < 2 ^ 127

variable {k u : Tick} {current delta : Int} {globals : Pair Growth} {bound : Bound} {flipped : Bool}

theorem isInitialized_eq : k.isInitialized = decide (k.gross ≠ 0) := rfl

/-- A tick that is not in use any more has no net. -/
theorem Changed.net_eq_zero {k' : Tick} (h : Changed k u k' bound delta)
    (hold : k.gross = 0 → k.net = 0) (hzero : k'.gross = 0) : k'.net = 0 := by
  rcases h.cleared hzero with rfl | rfl
  · exact hold hzero
  · rfl

theorem changed_zero (k : Tick) (bound : Bound) : Changed k k k bound 0 :=
  ⟨rfl, rfl, (Int.add_zero _).symm, fun _ => by cases bound <;> exact (Int.add_zero _).symm,
    fun _ => rfl, fun _ => Or.inl rfl, fun _ => rfl, Or.inl rfl⟩

/-- A tick changed and, if its last reference went away, cleared. The flag says whether the tick
turned. -/
theorem changed_of_update (hdelta : delta ≠ 0)
    (h : k.update current delta globals bound = .ok (u, flipped)) :
    Changed k u (u.clearIfUnused flipped) bound delta ∧
      flipped = ((u.clearIfUnused flipped).isInitialized != k.isInitialized) := by
  simp only [update] at h
  simp only [Outcome.bind_eq_ok, Outcome.orRefuse_eq_ok, signedNarrow_eq_ok] at h
  obtain ⟨gross, hgross, net, ⟨hfits, rfl⟩, h⟩ := h
  have hsum := addSigned_eq_ok hgross
  obtain ⟨rfl, rfl⟩ := Prod.mk.inj (Except.ok.inj h)
  by_cases hzero : gross = 0
  · -- the last reference went away, so the tick turned and is cleared
    have hk : k.gross ≠ 0 := by omega
    have hclear : ∀ (t : Tick) (f : Bool), t.gross = gross → f = true →
        t.clearIfUnused f = empty t.index := by
      intro t f ht hf
      simp only [clearIfUnused]
      rw [isInitialized_eq, ht, hf]
      simp [hzero, clear]
    rw [hclear _ _ rfl (by simp [hzero, hk])]
    refine ⟨⟨rfl, rfl, ?_, fun hne => absurd rfl hne, fun hne => absurd rfl hne,
      fun _ => Or.inr rfl, fun _ => if_neg fun hand => hk hand.1, Or.inr ?_⟩, ?_⟩
    · rw [← hsum, hzero]
      rfl
    · simp only [empty]
      decide
    · simp [isInitialized_eq, hzero, hk, empty]
  · have hkeep : ∀ (t : Tick) (f : Bool), t.gross = gross → t.clearIfUnused f = t := by
      intro t f ht
      simp only [clearIfUnused]
      rw [isInitialized_eq, ht]
      simp [hzero]
    rw [hkeep _ _ rfl]
    refine ⟨⟨rfl, rfl, hsum, fun _ => ?_, fun _ => rfl, fun h0 => absurd h0 hzero, fun hk => ?_,
      Or.inr hfits⟩, ?_⟩
    · cases bound
      · rfl
      · exact Int.sub_eq_add_neg
    · exact if_neg fun hand => hk hand.1
    · by_cases hk : k.gross = 0 <;> simp [isInitialized_eq, hzero, hk]

/-- The growth on the far side of a tick once it is in use. -/
def outsideInUse (k : Tick) (current : Int) (globals : Pair Growth) : Pair Growth :=
  if k.gross = 0 ∧ k.index ≤ current then globals else k.outside

theorem outside_of_update (h : k.update current delta globals bound = .ok (u, flipped)) :
    u.outside = k.outsideInUse current globals := by
  simp only [update] at h
  simp only [Outcome.bind_eq_ok] at h
  obtain ⟨_, -, _, -, h⟩ := h
  obtain ⟨rfl, -⟩ := Prod.mk.inj (Except.ok.inj h)
  rfl

end Tick

/-! ### Finding a boundary tick -/

/-- Tick `t`, in state `k`, is at place `offset` of the array `a`, which is number `index` of the
supplied ones and the first with its start. -/
structure Found (arrays : List TickArray) (spacing : Nat) (t : Int) (index : Nat) (a : TickArray)
    (offset : Nat) (k : Tick) : Prop where
  mem : a ∈ arrays
  first : FirstAt (arrays.map (·.start)) index a.start
  start_eq : a.start = TickArray.floorStart t spacing
  offset_lt : offset < arraySize
  slot : a.ticks[offset] = k
  index_eq : a.start + (offset : Int) * spacing = t

theorem findArray_eq_some {arrays : List TickArray} {start : Int} {i : Nat} {a : TickArray}
    (h : findArray start arrays = some (i, a)) :
    a ∈ arrays ∧ a.start = start ∧ FirstAt (arrays.map (·.start)) i start := by
  induction arrays generalizing i with
  | nil => simp [findArray] at h
  | cons b rest ih =>
      simp only [findArray] at h
      by_cases hb : b.start = start
      · rw [if_pos hb] at h
        obtain ⟨rfl, rfl⟩ := Prod.mk.inj (Option.some.inj h)
        exact ⟨List.mem_cons_self, hb, by simp [FirstAt, hb]⟩
      · rw [if_neg hb, Option.map_eq_some_iff] at h
        obtain ⟨⟨j, c⟩, hfind, heq⟩ := h
        obtain ⟨rfl, rfl⟩ := Prod.mk.inj heq
        -- the head has another start, so the place stays the first
        obtain ⟨hmem, hstart, hat, hbefore⟩ := ih hfind
        refine ⟨List.mem_cons_of_mem _ hmem, hstart, ?_, ?_⟩
        · simpa using hat
        · simp only [List.map_cons, List.take_succ_cons, List.mem_cons, not_or]
          exact ⟨Ne.symm hb, hbefore⟩

theorem found_of_eq_ok {arrays : List TickArray} {spacing index offset : Nat} {t : Int}
    {a : TickArray} {k : Tick} (harray : arrayFor arrays t spacing = .ok (index, a))
    (hoffset : a.offsetOf t spacing = .ok offset) (hslot : a.slot offset = .ok k) :
    Found arrays spacing t index a offset k := by
  obtain ⟨-, hstart, hlt, hindex⟩ := TickArray.offsetOf_eq_ok hoffset
  obtain ⟨_, hk⟩ := TickArray.slot_eq_ok.1 hslot
  simp only [arrayFor] at harray
  rw [Outcome.bind_eq_ok] at harray
  obtain ⟨start, -, harray⟩ := harray
  cases hfind : findArray start arrays with
  | none =>
      rw [hfind] at harray
      cases harray
  | some found =>
      rw [hfind] at harray
      obtain rfl := Except.ok.inj harray
      obtain ⟨hmem, rfl, hfirst⟩ := findArray_eq_some hfind
      exact ⟨hmem, hfirst, hstart.symm, hlt, hk, hindex⟩

/-! ### Counts and bits -/

/-- Adds to the count of each array what `gain` says for its start. -/
def recount (arrays : List TickArray) (gain : Int → Int) : List TickArray :=
  arrays.map fun a => { a with count := ((a.count : Int) + gain a.start).toNat }

theorem laid_recount {arrays : List TickArray} {spacing : Nat} (hl : Laid arrays spacing)
    (gain : Int → Int) : Laid (recount arrays gain) spacing := by
  constructor
  · exact List.pairwise_map.2 hl.sorted
  · intro b hb
    obtain ⟨a, ha, rfl⟩ := List.mem_map.1 hb
    exact aligned_setCount (hl.aligned a ha) _

theorem lookup_recount (arrays : List TickArray) (gain : Int → Int) :
    lookup (recount arrays gain) = lookup arrays := by
  have hticks : ticks (recount arrays gain) = ticks arrays := by
    simp only [ticks, recount]
    rw [List.flatMap_map]
  funext t
  simp only [lookup]
  rw [hticks]

theorem map_start_recount (arrays : List TickArray) (gain : Int → Int) :
    (recount arrays gain).map (·.start) = arrays.map (·.start) := by
  simp only [recount]
  rw [List.map_map]
  rfl

theorem map_label_recount (arrays : List TickArray) (gain : Int → Int) :
    (recount arrays gain).map (·.label) = arrays.map (·.label) := by
  simp only [recount]
  rw [List.map_map]
  rfl

/-- The view marks exactly the arrays with a tick in use, as their counts tell. -/
def Tracks (arrays : List TickArray) (v : BitmapView) : Prop :=
  ∀ s, v.Marks s ↔ ∃ a ∈ arrays, a.start = s ∧ a.count ≠ 0

theorem Tracks.setSlot {arrays : List TickArray} {v : BitmapView} (h : Tracks arrays v)
    (start : Int) (offset : Nat) (k : Tick) :
    Tracks (modifyAt arrays start (·.setSlot offset k)) v := by
  intro s
  rw [h s]
  constructor
  · intro hcounted
    obtain ⟨a, ha, hs, hne⟩ := hcounted
    refine ⟨_, mem_modifyAt.2 ⟨a, ha, rfl⟩, ?_, ?_⟩
    · split
      · exact hs
      · exact hs
    · split
      · exact hne
      · exact hne
  · intro hcounted
    obtain ⟨b, hb, hs, hne⟩ := hcounted
    obtain ⟨a, ha, rfl⟩ := mem_modifyAt.1 hb
    split at hs
    · rename_i hstart
      rw [if_pos hstart] at hne
      exact ⟨a, ha, hs, hne⟩
    · rename_i hstart
      rw [if_neg hstart] at hne
      exact ⟨a, ha, hs, hne⟩

/-- The bitmap of a book, completed by the extension `e` if none is supplied. -/
def Book.bitmap (b : Book) (e : BitmapExtension) : BitmapView :=
  BitmapView.whole b.pool.bitmap (b.extension.getD e) b.pool.spacing

namespace CountUpdate

variable {u : CountUpdate} {a : TickArray} {i : Nat} {delta : Int} {b b' : Book}

theorem plan_eq_ok (h : plan i a delta = .ok u) :
    u.index = i ∧ u.start = a.start ∧ (u.count : Int) = a.count + delta ∧
      (u.flips = true ↔ ¬ (a.count = 0 ↔ u.count = 0)) := by
  simp only [plan] at h
  rw [Outcome.bind_eq_ok] at h
  obtain ⟨_, hrange, h⟩ := h
  rw [require_eq_ok] at hrange
  obtain rfl := Except.ok.inj h
  have hcast : ((((a.count : Int) + delta).toNat : Nat) : Int) = a.count + delta :=
    Int.toNat_of_nonneg hrange.1
  have hzero : (a.count : Int) + delta = 0 ↔ ((a.count : Int) + delta).toNat = 0 := by
    rw [← hcast, Int.natCast_eq_zero, hcast]
  refine ⟨rfl, rfl, hcast, ?_⟩
  change decide ((a.count = 0) ≠ ((a.count : Int) + delta = 0)) = true ↔
    ¬ (a.count = 0 ↔ ((a.count : Int) + delta).toNat = 0)
  rw [← hzero, decide_eq_true_iff, ne_eq, eq_iff_iff]

/-- A commit writes one count and, if the array turned, one bit. -/
theorem commit_eq_ok (h : u.commit b = .ok () b') (e : BitmapExtension) :
    b'.arrays = b.arrays.modify u.index ({ · with count := u.count }) ∧
      b'.pool = { b.pool with bitmap := b'.pool.bitmap } ∧ b'.position = b.position ∧
      ∀ s, (b'.bitmap e).Marks s ↔
        if u.flips then ((b.bitmap e).Marks s ↔ s ≠ u.start) else (b.bitmap e).Marks s := by
  simp only [commit] at h
  rw [Update.bind_eq_ok] at h
  obtain ⟨_, t, ht, h⟩ := h
  rw [Update.modify_eq_ok] at ht
  subst ht
  by_cases hflips : u.flips = true
  · simp only [hflips, if_true, Update.bind_eq_ok, Update.get_eq_ok, Update.lift_eq_ok,
      Update.set_eq_ok] at h
    obtain ⟨_, _, ⟨rfl, rfl⟩, ⟨native, extension⟩, _, ⟨hflip, rfl⟩, rfl⟩ := h
    refine ⟨rfl, rfl, rfl, ?_⟩
    intro s
    rw [if_pos hflips]
    exact Bitmap.marks_flip hflip e s
  · rw [if_neg hflips, Update.pure_eq_ok] at h
    obtain rfl := h.2
    refine ⟨rfl, rfl, rfl, ?_⟩
    intro s
    rw [if_neg hflips]
    exact Iff.rfl

/-- A commit leaves an extension with its pool, and supplies none that was not there. -/
theorem pool_extension_of_commit (h : u.commit b = .ok () b') :
    b'.extension.map (·.pool) = b.extension.map (·.pool) := by
  simp only [commit] at h
  rw [Update.bind_eq_ok] at h
  obtain ⟨_, t, ht, h⟩ := h
  rw [Update.modify_eq_ok] at ht
  subst ht
  by_cases hflips : u.flips = true
  · simp only [hflips, if_true, Update.bind_eq_ok, Update.get_eq_ok, Update.lift_eq_ok,
      Update.set_eq_ok] at h
    obtain ⟨_, _, ⟨rfl, rfl⟩, ⟨native, extension⟩, _, ⟨hflip, rfl⟩, rfl⟩ := h
    exact Bitmap.pool_flip hflip
  · rw [if_neg hflips, Update.pure_eq_ok] at h
    obtain rfl := h.2
    rfl

theorem pool_extension_of_commits {counts : List CountUpdate} (h : counts.forM commit b = .ok () b') :
    b'.extension.map (·.pool) = b.extension.map (·.pool) := by
  induction counts generalizing b with
  | nil =>
      obtain ⟨-, rfl⟩ := Update.pure_eq_ok.1 h
      rfl
  | cons u counts ih =>
      obtain ⟨_, t, hcommit, hrest⟩ := Update.bind_eq_ok.1 h
      exact (ih hrest).trans (pool_extension_of_commit hcommit)

/-- A commit keeps the bitmap true: all arrays are tracked after it as before. -/
theorem commit_tracks {arrays : List TickArray} {spacing : Nat} {e : BitmapExtension}
    (hl : Laid arrays spacing) (ha : a ∈ arrays) (hplan : plan i a delta = .ok u)
    (hcommit : u.commit b = .ok () b') (htracks : Tracks arrays (b.bitmap e)) :
    Tracks (modifyAt arrays a.start ({ · with count := u.count })) (b'.bitmap e) := by
  obtain ⟨-, hstart, -, hflips⟩ := plan_eq_ok hplan
  obtain ⟨-, -, -, hmarks⟩ := commit_eq_ok hcommit e
  intro s
  rw [hmarks s, htracks s, hstart]
  simp only [mem_modifyAt]
  by_cases hs : s = a.start
  · -- the array itself: it is marked when its new count is not zero
    subst hs
    have hold : (∃ c ∈ arrays, c.start = a.start ∧ c.count ≠ 0) ↔ a.count ≠ 0 := by
      constructor
      · intro hcounted
        obtain ⟨c, hc, hca, hne⟩ := hcounted
        rwa [hl.eq_of_start_eq hc ha hca] at hne
      · intro hne
        exact ⟨a, ha, rfl, hne⟩
    have hnew : (∃ c, (∃ c' ∈ arrays, (if c'.start = a.start then
        { c' with count := u.count } else c') = c) ∧ c.start = a.start ∧ c.count ≠ 0) ↔
        u.count ≠ 0 := by
      constructor
      · intro hcounted
        obtain ⟨_, ⟨c, hc, rfl⟩, hca, hne⟩ := hcounted
        by_cases heq : c.start = a.start
        · rwa [if_pos heq] at hne
        · rw [if_neg heq] at hca
          exact absurd hca heq
      · intro hne
        exact ⟨_, ⟨a, ha, if_pos rfl⟩, rfl, hne⟩
    rw [hold, hnew]
    by_cases hf : u.flips = true
    · rw [if_pos hf]
      have := hflips.1 hf
      tauto
    · rw [if_neg hf]
      have := mt hflips.2 hf
      tauto
  · -- the bits of the other arrays stay, and so do their counts
    have hother : (if u.flips = true then ((∃ c ∈ arrays, c.start = s ∧ c.count ≠ 0) ↔
        s ≠ a.start) else ∃ c ∈ arrays, c.start = s ∧ c.count ≠ 0) ↔
        ∃ c ∈ arrays, c.start = s ∧ c.count ≠ 0 := by
      split
      · simp [hs]
      · exact Iff.rfl
    rw [hother]
    constructor
    · intro hcounted
      obtain ⟨c, hc, rfl, hne⟩ := hcounted
      exact ⟨c, ⟨c, hc, if_neg hs⟩, rfl, hne⟩
    · intro hcounted
      obtain ⟨_, ⟨c, hc, rfl⟩, hcs, hne⟩ := hcounted
      by_cases heq : c.start = a.start
      · rw [if_pos heq] at hcs
        exact absurd (hcs.symm.trans heq) hs
      · rw [if_neg heq] at hcs hne
        exact ⟨c, hc, hcs, hne⟩

end CountUpdate

/-! ### Both boundary ticks -/

/-- What the two boundary ticks add to the count of the array at a start. -/
def countGain (lower upper : TickPlace) (lowerFlipped upperFlipped : Bool) (s : Int) : Int :=
  (if s = lower.array.start then CountUpdate.tickDelta lowerFlipped lower.tick else 0) +
    if s = upper.array.start then CountUpdate.tickDelta upperFlipped upper.tick else 0

theorem modifyAt_eq_recount {arrays : List TickArray} {spacing : Nat} (hl : Laid arrays spacing)
    {a : TickArray} (ha : a ∈ arrays) {count : Nat} {gain : Int → Int}
    (hcount : (count : Int) = a.count + gain a.start)
    (hother : ∀ s, s ≠ a.start → gain s = 0) :
    modifyAt arrays a.start ({ · with count }) = recount arrays gain := by
  simp only [modifyAt, recount]
  apply List.map_congr_left
  intro c hc
  by_cases hca : c.start = a.start
  · obtain rfl := hl.eq_of_start_eq hc ha hca
    rw [if_pos rfl, ← hcount, Int.toNat_natCast]
  · rw [if_neg hca, hother c.start hca, Int.add_zero, Int.toNat_natCast]

/-- What committing the counts of a change amounts to. -/
structure CountsCommitted (arrays : List TickArray) (gain : Int → Int) (e : BitmapExtension)
    (b b' : Book) : Prop where
  arrays_eq : Market.putBack arrays b'.arrays = recount arrays gain
  starts : b'.arrays.map (·.start) = b.arrays.map (·.start)
  nonneg : ∀ a ∈ arrays, 0 ≤ (a.count : Int) + gain a.start
  tracks : Tracks (recount arrays gain) (b'.bitmap e)
  pool : b'.pool = { b.pool with bitmap := b'.pool.bitmap }
  position : b'.position = b.position

section Committing

variable {arrays : List TickArray} {spacing : Nat} {lower upper : TickPlace}
  {lowerFlipped upperFlipped : Bool} {counts : List CountUpdate} {b b' : Book} {e : BitmapExtension}

/-- Both ticks lie in one array, which is counted once. -/
theorem counts_committed_together (hl : Laid arrays spacing) (hlower : lower.array ∈ arrays)
    (hstart : lower.array.start = upper.array.start)
    (hfirst : FirstAt (b.arrays.map (·.start)) lower.index lower.array.start)
    (hsame : Market.putBack arrays b.arrays = arrays) (htracks : Tracks arrays (b.bitmap e))
    {u : CountUpdate}
    (hplan : CountUpdate.plan lower.index lower.array (CountUpdate.tickDelta lowerFlipped lower.tick +
      CountUpdate.tickDelta upperFlipped upper.tick) = .ok u)
    (hcommit : u.commit b = .ok () b') :
    CountsCommitted arrays (countGain lower upper lowerFlipped upperFlipped) e b b' := by
  obtain ⟨hi, hs, hcount, -⟩ := CountUpdate.plan_eq_ok hplan
  obtain ⟨harrays, hpool, hposition, -⟩ := CountUpdate.commit_eq_ok hcommit e
  have hgain : countGain lower upper lowerFlipped upperFlipped lower.array.start =
      CountUpdate.tickDelta lowerFlipped lower.tick +
        CountUpdate.tickDelta upperFlipped upper.tick := by
    unfold countGain
    rw [if_pos rfl, if_pos hstart]
  have hother : ∀ s, s ≠ lower.array.start →
      countGain lower upper lowerFlipped upperFlipped s = 0 := by
    intro s hne
    simp only [countGain]
    rw [if_neg hne, if_neg (hstart ▸ hne), Int.add_zero]
  have hrecount := modifyAt_eq_recount hl hlower (hgain ▸ hcount) hother
  refine ⟨?_, ?_, ?_, ?_, hpool, hposition⟩
  · rw [harrays, hi, putBack_setCount hfirst, hsame, hrecount]
  · rw [harrays]
    exact map_start_setCount _ _
  · intro a ha
    by_cases has : a.start = lower.array.start
    · rw [hl.eq_of_start_eq ha hlower has, hgain, ← hcount]
      exact Int.natCast_nonneg _
    · rw [hother _ has]
      omega
  · rw [← hrecount]
    exact CountUpdate.commit_tracks hl hlower hplan hcommit htracks

/-- The ticks lie in different arrays, which are counted one after the other. -/
theorem counts_committed_apart (hl : Laid arrays spacing) (hlower : lower.array ∈ arrays)
    (hupper : upper.array ∈ arrays) (hstart : lower.array.start ≠ upper.array.start)
    (hlowerFirst : FirstAt (b.arrays.map (·.start)) lower.index lower.array.start)
    (hupperFirst : FirstAt (b.arrays.map (·.start)) upper.index upper.array.start)
    (hsame : Market.putBack arrays b.arrays = arrays) (htracks : Tracks arrays (b.bitmap e))
    {u u' : CountUpdate} {t : Book}
    (hplan : CountUpdate.plan lower.index lower.array
      (CountUpdate.tickDelta lowerFlipped lower.tick) = .ok u)
    (hplan' : CountUpdate.plan upper.index upper.array
      (CountUpdate.tickDelta upperFlipped upper.tick) = .ok u')
    (hcommit : u.commit b = .ok () t) (hcommit' : u'.commit t = .ok () b') :
    CountsCommitted arrays (countGain lower upper lowerFlipped upperFlipped) e b b' := by
  obtain ⟨hi, -, hcount, -⟩ := CountUpdate.plan_eq_ok hplan
  obtain ⟨hi', -, hcount', -⟩ := CountUpdate.plan_eq_ok hplan'
  obtain ⟨harrays, hpool, hposition, -⟩ := CountUpdate.commit_eq_ok hcommit e
  obtain ⟨harrays', hpool', hposition', -⟩ := CountUpdate.commit_eq_ok hcommit' e
  have hstarts : t.arrays.map (·.start) = b.arrays.map (·.start) := by
    rw [harrays]
    exact map_start_setCount _ _
  have hl₁ := laid_setCount hl lower.array.start u.count
  have hmem₁ : upper.array ∈ modifyAt arrays lower.array.start ({ · with count := u.count }) :=
    mem_modifyAt.2 ⟨_, hupper, if_neg hstart.symm⟩
  have hput : Market.putBack arrays t.arrays =
      modifyAt arrays lower.array.start ({ · with count := u.count }) := by
    rw [harrays, hi, putBack_setCount hlowerFirst, hsame]
  -- an array is the lower tick's, the upper tick's, or neither
  have hrecount : modifyAt (modifyAt arrays lower.array.start ({ · with count := u.count }))
      upper.array.start ({ · with count := u'.count }) =
      recount arrays (countGain lower upper lowerFlipped upperFlipped) := by
    simp only [modifyAt, recount, countGain]
    rw [List.map_map]
    apply List.map_congr_left
    intro c hc
    simp only [Function.comp]
    by_cases hcl : c.start = lower.array.start
    · obtain rfl := hl.eq_of_start_eq hc hlower hcl
      rw [if_pos rfl, if_pos rfl]
      simp only [if_neg hstart, Int.add_zero]
      rw [← hcount, Int.toNat_natCast]
    · rw [if_neg hcl, if_neg hcl]
      by_cases hcu : c.start = upper.array.start
      · obtain rfl := hl.eq_of_start_eq hc hupper hcu
        rw [if_pos rfl, if_pos rfl, Int.zero_add, ← hcount', Int.toNat_natCast]
      · rw [if_neg hcu, if_neg hcu, Int.add_zero, Int.add_zero, Int.toNat_natCast]
  refine ⟨?_, ?_, ?_, ?_, ?_, hposition'.trans hposition⟩
  · rw [harrays', hi', putBack_setCount (hstarts ▸ hupperFirst), hput, hrecount]
  · rw [harrays', map_start_setCount, hstarts]
  · intro a ha
    simp only [countGain]
    by_cases hal : a.start = lower.array.start
    · rw [hl.eq_of_start_eq ha hlower hal, if_pos rfl, if_neg hstart, Int.add_zero, ← hcount]
      exact Int.natCast_nonneg _
    · rw [if_neg hal, Int.zero_add]
      by_cases hau : a.start = upper.array.start
      · rw [hl.eq_of_start_eq ha hupper hau, if_pos rfl, ← hcount']
        exact Int.natCast_nonneg _
      · rw [if_neg hau]
        omega
  · rw [← hrecount]
    exact CountUpdate.commit_tracks hl₁ hmem₁ hplan' hcommit'
      (CountUpdate.commit_tracks hl hlower hplan hcommit htracks)
  · rw [hpool', hpool]

/-- **Committing the planned counts** adds to each count what the two boundary ticks gained or lost
there, and the bitmap stays true. -/
theorem counts_committed (hl : Laid arrays spacing) (hlower : lower.array ∈ arrays)
    (hupper : upper.array ∈ arrays)
    (hlowerFirst : FirstAt (b.arrays.map (·.start)) lower.index lower.array.start)
    (hupperFirst : FirstAt (b.arrays.map (·.start)) upper.index upper.array.start)
    (hsame : Market.putBack arrays b.arrays = arrays) (htracks : Tracks arrays (b.bitmap e))
    (hcounts : ChangePlan.countUpdates lower upper lowerFlipped upperFlipped = .ok counts)
    (hcommit : counts.forM CountUpdate.commit b = .ok () b') :
    CountsCommitted arrays (countGain lower upper lowerFlipped upperFlipped) e b b' := by
  simp only [ChangePlan.countUpdates] at hcounts
  by_cases hindex : lower.index = upper.index
  · have hstart : lower.array.start = upper.array.start := by
      have hat := hlowerFirst.1
      rw [hindex, hupperFirst.1] at hat
      exact (Option.some.inj hat).symm
    rw [if_pos hindex, Outcome.bind_eq_ok] at hcounts
    obtain ⟨u, hplan, hcounts⟩ := hcounts
    obtain rfl := Except.ok.inj hcounts
    simp only [List.forM, Update.bind_eq_ok, Update.pure_eq_ok] at hcommit
    obtain ⟨_, t, hone, -, rfl⟩ := hcommit
    exact counts_committed_together hl hlower hstart hlowerFirst hsame htracks hplan hone
  · have hstart : lower.array.start ≠ upper.array.start := fun heq =>
      hindex (FirstAt.index_inj hlowerFirst (heq ▸ hupperFirst))
    rw [if_neg hindex, Outcome.bind_eq_ok] at hcounts
    obtain ⟨u, hplan, hcounts⟩ := hcounts
    rw [Outcome.bind_eq_ok] at hcounts
    obtain ⟨u', hplan', hcounts⟩ := hcounts
    obtain rfl := Except.ok.inj hcounts
    simp only [List.forM, Update.bind_eq_ok, Update.pure_eq_ok] at hcommit
    obtain ⟨_, t, hone, _, t', htwo, -, rfl⟩ := hcommit
    exact counts_committed_apart hl hlower hupper hstart hlowerFirst hupperFirst hsame htracks
      hplan hplan' hone htwo

end Committing

end Clmm
