import Clmm.Bitmap
import Clmm.Proofs.BitScan
import Clmm.Proofs.Placement

/-!
# Clmm.Proofs.ArrayIndex

**The bitmap as a set of array starts.** Bit `b` stands for the array that starts at `startAt b`, and
`Marks` says which starts a view of the bitmap shows as used. Inverting a bit adds one start to the
set or takes it out (`marks_flip`); a search finds the nearest start in the set, and where it finds
none, no visible start lies ahead (`nextUsed?_eq_some`, `nextUsed?_eq_none`).

A view without the extension sees exactly the native span (`marks_without_extension`). The words it
sees lie side by side, so a search that begins among them meets no hidden word before their end.
-/

namespace Clmm

namespace Bitmap

/-! ### Bits and starts -/

/-- The start of the array that bit `b` stands for. -/
def startAt (b spacing : Nat) : Int := ((b : Int) - zeroBit) * TickArray.span spacing

theorem startAt_lt_startAt {b b' spacing : Nat} (h : 0 < spacing) :
    startAt b spacing < startAt b' spacing ↔ b < b' := by
  simp only [startAt]
  have hspan := TickArray.span_pos h
  constructor
  · intro hlt
    have := lt_of_mul_lt_mul_right hlt hspan.le
    omega
  · intro hlt
    exact Int.mul_lt_mul_of_pos_right (by omega) hspan

theorem startAt_inj {b b' spacing : Nat} (h : 0 < spacing) :
    startAt b spacing = startAt b' spacing ↔ b = b' := by
  constructor
  · intro heq
    have h1 : ¬ b < b' := by rw [← startAt_lt_startAt h, heq]; exact Int.lt_irrefl _
    have h2 : ¬ b' < b := by rw [← startAt_lt_startAt h, heq]; exact Int.lt_irrefl _
    omega
  · intro heq
    exact heq ▸ rfl

theorem startAt_emod (b spacing : Nat) : startAt b spacing % TickArray.span spacing = 0 :=
  Int.mul_emod_left _ _

theorem bitIndex_eq_ok {start : Int} {spacing b : Nat} (h : bitIndex start spacing = .ok b) :
    TickArray.isValidStart start spacing = true ∧ b < totalBits ∧ startAt b spacing = start := by
  simp only [bitIndex] at h
  rw [Outcome.bind_eq_ok] at h
  obtain ⟨_, hvalid, h⟩ := h
  rw [Outcome.bind_eq_ok] at h
  obtain ⟨_, hrange, h⟩ := h
  rw [require_eq_ok] at hvalid hrange
  obtain rfl := Except.ok.inj h
  refine ⟨hvalid, by omega, ?_⟩
  simp only [startAt]
  rw [Int.toNat_of_nonneg hrange.1, Int.add_sub_cancel]
  exact Int.ediv_mul_cancel (Int.dvd_of_emod_eq_zero (TickArray.isValidStart_iff.1 hvalid).2.1)

theorem startOfBit_eq_ok {b spacing : Nat} (hb : b < totalBits) {start : Int}
    (h : startOfBit b spacing = .ok start) : startAt b spacing = start := by
  have hbmod : Int.bmod b (2 ^ 32) = b := by
    have : totalBits = 15360 := rfl
    rw [Int.bmod_eq_of_le] <;> omega
  simp only [startOfBit] at h
  rw [Outcome.bind_eq_ok] at h
  obtain ⟨fromSide, hside, h⟩ := h
  rw [Outcome.bind_eq_ok] at h
  obtain ⟨fromZero, hzero, h⟩ := h
  rw [signedWithin_eq_ok] at hside hzero h
  rw [hbmod] at hside
  rw [← h.2, ← hzero.2, ← hside.2]
  unfold startAt zeroBit
  push_cast
  ring

/-- The start of the first array above the native span. -/
def nativeEnd (spacing : Nat) : Int := startAt (64 * positiveStart) spacing

/-- The start of the first array of the native span. -/
def nativeBegin (spacing : Nat) : Int := startAt (64 * sideWords) spacing

/-- An array of the native span holds ticks of the native span. -/
theorem floorStart_native {t : Int} {spacing : Nat} (h : 0 < spacing) :
    nativeBegin spacing ≤ TickArray.floorStart t spacing ∧
        TickArray.floorStart t spacing < nativeEnd spacing ↔
      nativeBegin spacing ≤ t ∧ t < nativeEnd spacing := by
  have hbegin := TickArray.le_floorStart_iff (t := t) h (startAt_emod (64 * sideWords) spacing)
  have hend := TickArray.le_floorStart_iff (t := t) h (startAt_emod (64 * positiveStart) spacing)
  exact and_congr hbegin (by rw [← Int.not_le, ← Int.not_le]; exact not_congr hend)

end Bitmap

namespace BitmapView

open Bitmap

/-- The view shows the array at `start` as used. -/
def Marks (v : BitmapView) (start : Int) : Prop :=
  ∃ b, startAt b v.spacing = start ∧ Bits.Holds v.wordAt b

/-- The view shows whether the array at `start` is used. -/
def Sees (v : BitmapView) (start : Int) : Prop :=
  ∃ b, startAt b v.spacing = start ∧ (v.wordAt (b / 64)).isSome

theorem Marks.sees {v : BitmapView} {start : Int} (h : v.Marks start) : v.Sees start := by
  obtain ⟨b, hb, hholds⟩ := h
  exact ⟨b, hb, hholds.isSome⟩

theorem marks_startAt {v : BitmapView} (hv : 0 < v.spacing) {b : Nat} :
    v.Marks (startAt b v.spacing) ↔ Bits.Holds v.wordAt b := by
  constructor
  · intro hmarks
    obtain ⟨b', hb', hholds⟩ := hmarks
    rwa [← (startAt_inj hv).1 hb']
  · intro h
    exact ⟨b, rfl, h⟩

/-- The visible words lie side by side: all of them, or the native ones. -/
theorem wordAt_isSome_iff {v : BitmapView} {i : Nat} :
    (v.wordAt i).isSome ↔ i < sideWords + nativeWords + sideWords ∧
      (v.extension.isSome ∨ sideWords ≤ i ∧ i < positiveStart) := by
  have hpositive : positiveStart = sideWords + nativeWords := rfl
  simp only [wordAt]
  by_cases hlow : i < sideWords
  · rw [if_pos hlow]
    cases hext : v.extension with
    | none => simp; omega
    | some e => simp [hlow]; omega
  · rw [if_neg hlow]
    by_cases hmid : i < positiveStart
    · rw [if_pos hmid]
      have : i - sideWords < nativeWords := by omega
      simp [this]
      omega
    · rw [if_neg hmid]
      cases hext : v.extension with
      | none => simp; omega
      | some e => simp; omega

theorem visible_of_isSome {v : BitmapView} {i j : Nat} (hi : (v.wordAt i).isSome)
    (hj : (v.wordAt j).isSome) : Bits.Visible v.wordAt i j := by
  intro k hik hkj
  rw [wordAt_isSome_iff] at *
  refine ⟨by omega, ?_⟩
  rcases hi.2 with h | h
  · exact Or.inl h
  · rcases hj.2 with h' | h'
    · exact Or.inl h'
    · exact Or.inr (by omega)

theorem lt_totalBits_of_isSome {v : BitmapView} {b : Nat} (h : (v.wordAt (b / 64)).isSome) :
    b < totalBits := by
  have := (wordAt_isSome_iff.1 h).1
  simp only [totalBits]
  omega

/-! ### Searching -/

theorem isUsed_eq_ok {v : BitmapView} {start : Int} {used : Bool} (h : v.isUsed start = .ok used) :
    v.Sees start ∧ (used = true ↔ v.Marks start) := by
  simp only [isUsed] at h
  rw [Outcome.bind_eq_ok] at h
  obtain ⟨b, hb, h⟩ := h
  obtain ⟨hvalid, -, rfl⟩ := bitIndex_eq_ok hb
  have hv := (TickArray.isValidStart_iff.1 hvalid).1
  cases hword : v.wordAt (b / 64) with
  | none =>
      rw [hword] at h
      exact absurd h (by simp [throw, throwThe, MonadExceptOf.throw])
  | some w =>
      rw [hword] at h
      obtain rfl := Except.ok.inj h
      rw [marks_startAt hv, Bits.holds_iff_getLsbD hword]
      exact ⟨⟨b, rfl, by rw [hword]; rfl⟩, Iff.rfl⟩

/-- The bit that a search from bit `b` looks for. -/
def nextBit? (v : BitmapView) (b : Nat) (d : Direction) : Option Nat :=
  match d with
  | .down => if b = 0 then none else Bits.scanDown v.wordAt (b - 1)
  | .up => Bits.scanUp v.wordAt (b + 1) totalBits

/-- The bit that is found is the nearest one beyond. -/
theorem nextBit?_eq_some {v : BitmapView} {b b' : Nat} {d : Direction}
    (h : v.nextBit? b d = some b') : Bits.Holds v.wordAt b' ∧ d.Beyond (b : Int) b' ∧
      ∀ c : Nat, Bits.Holds v.wordAt c → d.Beyond (b : Int) c → c = b' ∨ d.Beyond (b' : Int) c := by
  simp only [nextBit?] at h
  cases d with
  | down =>
      dsimp only at h
      by_cases hzero : b = 0
      · rw [if_pos hzero] at h
        cases h
      · rw [if_neg hzero] at h
        obtain ⟨hle, hholds, hnearest⟩ := Bits.scanDown_eq_some h
        refine ⟨hholds, by simp only [Direction.Beyond]; omega, ?_⟩
        intro c hc hbeyond
        have hfar := hnearest c
        simp only [Direction.Beyond] at hbeyond ⊢
        by_contra hne
        exact hfar (by omega) (by omega) hc
  | up =>
      obtain ⟨hle, hholds, hnearest⟩ := Bits.scanUp_eq_some h
      refine ⟨hholds, by simp only [Direction.Beyond]; omega, ?_⟩
      intro c hc hbeyond
      have hfar := hnearest c
      simp only [Direction.Beyond] at hbeyond ⊢
      by_contra hne
      exact hfar (by omega) (by omega) hc

theorem nextBit?_eq_none {v : BitmapView} {b : Nat} {d : Direction} (h : v.nextBit? b d = none)
    (hsome : (v.wordAt (b / 64)).isSome) {c : Nat} (hc : Bits.Holds v.wordAt c) :
    ¬ d.Beyond (b : Int) c := by
  intro hbeyond
  simp only [nextBit?] at h
  cases d with
  | down =>
      simp only [Direction.Beyond] at hbeyond
      dsimp only at h
      rw [if_neg (by omega)] at h
      refine Bits.scanDown_eq_none h (by omega) ?_ hc
      intro k hk hk'
      exact visible_of_isSome hc.isSome hsome k hk (by omega)
  | up =>
      simp only [Direction.Beyond] at hbeyond
      refine Bits.scanUp_eq_none h (by omega) (lt_totalBits_of_isSome hc.isSome)
        (fun k hk hk' => ?_) hc
      exact visible_of_isSome hsome hc.isSome k (by omega) hk'

theorem nextUsed?_of_none {v : BitmapView} {start : Int} {d : Direction} {b : Nat}
    (hb : bitIndex start v.spacing = .ok b) (h : v.nextBit? b d = none) :
    v.nextUsed? start d = .ok none := by
  simp only [nextUsed?]
  rw [hb]
  cases d with
  | down =>
      simp only [nextBit?] at h
      simp only [Outcome.ok_bind, h]
      rfl
  | up =>
      simp only [nextBit?] at h
      simp only [Outcome.ok_bind, h]
      rfl

theorem nextUsed?_of_some {v : BitmapView} {start : Int} {d : Direction} {b b' : Nat}
    (hb : bitIndex start v.spacing = .ok b) (h : v.nextBit? b d = some b') :
    v.nextUsed? start d = do return some (← startOfBit b' v.spacing) := by
  simp only [nextUsed?]
  rw [hb]
  cases d with
  | down =>
      simp only [nextBit?] at h
      simp only [Outcome.ok_bind, h]
  | up =>
      simp only [nextBit?] at h
      simp only [Outcome.ok_bind, h]

/-- The search for a start is the search for its bit. -/
theorem nextUsed?_eq_ok {v : BitmapView} {start : Int} {d : Direction} {next : Option Int}
    (h : v.nextUsed? start d = .ok next) : ∃ b, 0 < v.spacing ∧ startAt b v.spacing = start ∧
      next = (v.nextBit? b d).map (startAt · v.spacing) := by
  obtain ⟨b, hb, -⟩ := Outcome.bind_eq_ok.1 h
  obtain ⟨hvalid, -, hstart⟩ := bitIndex_eq_ok hb
  refine ⟨b, (TickArray.isValidStart_iff.1 hvalid).1, hstart, ?_⟩
  cases hfound : v.nextBit? b d with
  | none =>
      rw [nextUsed?_of_none hb hfound] at h
      exact (Except.ok.inj h).symm
  | some b' =>
      rw [nextUsed?_of_some hb hfound] at h
      obtain ⟨s, hs, h⟩ := Outcome.bind_eq_ok.1 h
      obtain rfl := Except.ok.inj h
      -- a bit that was found is visible, so its start can be computed
      have hvisible := (nextBit?_eq_some hfound).1.isSome
      rw [Option.map_some, startOfBit_eq_ok (lt_totalBits_of_isSome hvisible) hs]

/-- Bits lie as their starts do. -/
theorem beyond_startAt {d : Direction} {b c spacing : Nat} (h : 0 < spacing) :
    d.Beyond (startAt b spacing) (startAt c spacing) ↔ d.Beyond (b : Int) c := by
  cases d with
  | down => exact (startAt_lt_startAt h).trans Int.ofNat_lt.symm
  | up => exact (startAt_lt_startAt h).trans Int.ofNat_lt.symm

/-- The next start that the view finds is the nearest one in use. -/
theorem nextUsed?_eq_some {v : BitmapView} {start next : Int} {d : Direction}
    (h : v.nextUsed? start d = .ok (some next)) :
    v.Marks next ∧ d.Beyond start next ∧
      ∀ s, v.Marks s → d.Beyond start s → s = next ∨ d.Beyond next s := by
  obtain ⟨b, hv, rfl, hnext⟩ := nextUsed?_eq_ok h
  obtain ⟨b', hfound, rfl⟩ := Option.map_eq_some_iff.1 hnext.symm
  obtain ⟨hholds, hbeyond, hnearest⟩ := nextBit?_eq_some hfound
  refine ⟨(marks_startAt hv).2 hholds, (beyond_startAt hv).2 hbeyond, ?_⟩
  intro s hs hbeyond
  obtain ⟨c, rfl, hc⟩ := hs
  rw [beyond_startAt hv, startAt_inj hv]
  exact hnearest c hc ((beyond_startAt hv).1 hbeyond)

/-- Where the view finds no next start from one it sees, none that it shows lies ahead. -/
theorem nextUsed?_eq_none {v : BitmapView} {start : Int} {d : Direction} (hsees : v.Sees start)
    (h : v.nextUsed? start d = .ok none) {s : Int} (hs : v.Marks s) : ¬ d.Beyond start s := by
  obtain ⟨b, hv, rfl, hnext⟩ := nextUsed?_eq_ok h
  obtain ⟨b', hb', hsome⟩ := hsees
  obtain rfl := (startAt_inj hv).1 hb'
  obtain ⟨c, rfl, hc⟩ := hs
  rw [beyond_startAt hv]
  exact nextBit?_eq_none (Option.map_eq_none_iff.1 hnext.symm) hsome hc

/-- The array with which a walk at tick `t` begins: it is in use, and no other array in use lies
before it. -/
theorem firstUsed?_eq_some {v : BitmapView} {t first : Int} {d : Direction}
    (h : v.firstUsed? t d = .ok (some first)) :
    v.Marks first ∧ v.Sees (TickArray.floorStart t v.spacing) ∧
      (first = TickArray.floorStart t v.spacing ∨
        d.Beyond (TickArray.floorStart t v.spacing) first) ∧
      ∀ s, v.Marks s → s = TickArray.floorStart t v.spacing ∨
        d.Beyond (TickArray.floorStart t v.spacing) s → s = first ∨ d.Beyond first s := by
  simp only [firstUsed?] at h
  rw [Outcome.bind_eq_ok] at h
  obtain ⟨start, hstart, h⟩ := h
  obtain ⟨-, rfl⟩ := TickArray.startOf_eq_ok hstart
  rw [Outcome.bind_eq_ok] at h
  obtain ⟨used, hused, h⟩ := h
  obtain ⟨hsees, hmarks⟩ := isUsed_eq_ok hused
  cases used with
  | true =>
      obtain rfl := Option.some.inj (Except.ok.inj h)
      exact ⟨hmarks.1 rfl, hsees, Or.inl rfl, fun s _ hs => hs⟩
  | false =>
      obtain ⟨hnext, hbeyond, hfirst⟩ := nextUsed?_eq_some h
      refine ⟨hnext, hsees, Or.inr hbeyond, ?_⟩
      intro s hs hfrom
      rcases hfrom with rfl | hfrom
      · -- the array around the tick is not in use, so the next one comes first
        exact absurd (hmarks.2 hs) (by simp)
      · exact hfirst s hs hfrom

theorem firstUsed?_eq_none {v : BitmapView} {t : Int} {d : Direction}
    (h : v.firstUsed? t d = .ok none) :
    v.Sees (TickArray.floorStart t v.spacing) ∧ ∀ s, v.Marks s →
      s ≠ TickArray.floorStart t v.spacing ∧ ¬ d.Beyond (TickArray.floorStart t v.spacing) s := by
  simp only [firstUsed?] at h
  rw [Outcome.bind_eq_ok] at h
  obtain ⟨start, hstart, h⟩ := h
  obtain ⟨-, rfl⟩ := TickArray.startOf_eq_ok hstart
  rw [Outcome.bind_eq_ok] at h
  obtain ⟨used, hused, h⟩ := h
  obtain ⟨hsees, hmarks⟩ := isUsed_eq_ok hused
  cases used with
  | true => exact absurd (Except.ok.inj h) (by simp)
  | false =>
      refine ⟨hsees, fun s hs => ⟨?_, nextUsed?_eq_none hsees h hs⟩⟩
      intro heq
      subst heq
      exact absurd (hmarks.2 hs) (by simp)

/-! ### With and without the extension -/

/-- The view of the whole bitmap. -/
def whole (native : NativeBitmap) (extension : BitmapExtension) (spacing : Nat) : BitmapView :=
  ⟨native, some extension, spacing⟩

/-- A bit of the whole string, looked up where it is stored. -/
theorem holds_whole {native : NativeBitmap} {extension : BitmapExtension} {spacing b : Nat} :
    Bits.Holds (whole native extension spacing).wordAt b ↔
      if b < 64 * sideWords then Bits.Holds (extension.negative[·]?) b
      else if b < 64 * positiveStart then Bits.Holds (native[·]?) (b - 64 * sideWords)
      else Bits.Holds (extension.positive[·]?) (b - 64 * positiveStart) := by
  simp only [Bits.Holds, whole, wordAt]
  by_cases hlow : b < 64 * sideWords
  · rw [if_pos hlow, if_pos (by omega)]
    rfl
  · rw [if_neg hlow, if_neg (by omega)]
    by_cases hmid : b < 64 * positiveStart
    · rw [if_pos hmid, if_pos (by omega), show (b - 64 * sideWords) / 64 = b / 64 - sideWords by omega,
        show (b - 64 * sideWords) % 64 = b % 64 by omega]
    · rw [if_neg hmid, if_neg (by omega),
        show (b - 64 * positiveStart) / 64 = b / 64 - positiveStart by omega,
        show (b - 64 * positiveStart) % 64 = b % 64 by omega]
      rfl

/-- Without the extension a view shows, of all used arrays, those of the native span. -/
theorem marks_without_extension {native : NativeBitmap} {extension : BitmapExtension}
    {spacing : Nat} (h : 0 < spacing) {s : Int} :
    (BitmapView.mk native none spacing).Marks s ↔
      (whole native extension spacing).Marks s ∧ nativeBegin spacing ≤ s ∧ s < nativeEnd spacing := by
  -- on the native words both views agree
  have hword : ∀ b, 64 * sideWords ≤ b → b < 64 * positiveStart →
      (BitmapView.mk native none spacing).wordAt (b / 64) =
        (whole native extension spacing).wordAt (b / 64) := fun b hb hb' => by
    simp only [wordAt, whole]
    rw [if_neg (by omega), if_pos (by omega), if_neg (by omega), if_pos (by omega)]
  have hrange : ∀ b, nativeBegin spacing ≤ startAt b spacing ∧
      startAt b spacing < nativeEnd spacing ↔ 64 * sideWords ≤ b ∧ b < 64 * positiveStart :=
    fun b => by
      simp only [nativeBegin, nativeEnd]
      rw [startAt_lt_startAt h, ← Int.not_lt, startAt_lt_startAt h, Nat.not_lt]
  constructor
  · intro hmarks
    obtain ⟨b, rfl, hholds⟩ := hmarks
    have hnative := (wordAt_isSome_iff.1 hholds.isSome).2.resolve_left (by simp)
    have hb : 64 * sideWords ≤ b ∧ b < 64 * positiveStart := by omega
    refine ⟨⟨b, rfl, ?_⟩, (hrange b).2 hb⟩
    obtain ⟨w, hw, hbit⟩ := hholds
    exact ⟨w, by rw [← hword b hb.1 hb.2]; exact hw, hbit⟩
  · intro hmarks
    obtain ⟨⟨b, rfl, w, hw, hbit⟩, hnative⟩ := hmarks
    have hb := (hrange b).1 hnative
    exact ⟨b, rfl, w, by rw [hword b hb.1 hb.2]; exact hw, hbit⟩

/-- The edges of what a view shows: of the whole tick range, or of the native span. -/
theorem visibleTicks_eq_ok {v : BitmapView} {edges : Int × Int} (h : v.visibleTicks = .ok edges) :
    edges = if v.extension.isSome then (minTick, maxTick)
      else (max (nativeBegin v.spacing) minTick, min (nativeEnd v.spacing) maxTick) := by
  simp only [visibleTicks] at h
  by_cases hext : v.extension.isSome
  · rw [if_pos hext] at h ⊢
    exact (Except.ok.inj h).symm
  · rw [if_neg hext] at h ⊢
    rw [Outcome.bind_eq_ok] at h
    obtain ⟨low, hlow, h⟩ := h
    rw [Outcome.bind_eq_ok] at h
    obtain ⟨high, hhigh, h⟩ := h
    simp only [nativeBegin, nativeEnd]
    rw [startOfBit_eq_ok (by decide) hlow, startOfBit_eq_ok (by decide) hhigh]
    exact (Except.ok.inj h).symm

/-- What a view without the extension sees lies in the native span. -/
theorem sees_without_extension {native : NativeBitmap} {spacing : Nat} (h : 0 < spacing) {s : Int}
    (hs : (BitmapView.mk native none spacing).Sees s) :
    nativeBegin spacing ≤ s ∧ s < nativeEnd spacing := by
  obtain ⟨b, rfl, hsome⟩ := hs
  have hnative := (wordAt_isSome_iff.1 hsome).2.resolve_left (by simp)
  simp only at *
  simp only [nativeBegin, nativeEnd]
  rw [startAt_lt_startAt h, ← Int.not_lt, startAt_lt_startAt h]
  omega

end BitmapView

/-! ### Inverting a bit -/

namespace Bitmap

open BitmapView

/-- Inverting the bit of a start inverts that bit of the whole string, wherever it is stored. -/
theorem holds_flip {native native' : NativeBitmap} {extension extension' : Option BitmapExtension}
    {start : Int} {spacing : Nat}
    (h : flip native extension start spacing = .ok (native', extension')) (e : BitmapExtension) :
    ∃ b, 0 < spacing ∧ startAt b spacing = start ∧
      ∀ c, Bits.Holds (whole native' (extension'.getD e) spacing).wordAt c ↔
        (Bits.Holds (whole native (extension.getD e) spacing).wordAt c ↔ c ≠ b) := by
  simp only [flip] at h
  rw [Outcome.bind_eq_ok] at h
  obtain ⟨b, hb, h⟩ := h
  obtain ⟨hvalid, htotal, hstart⟩ := bitIndex_eq_ok hb
  refine ⟨b, (TickArray.isValidStart_iff.1 hvalid).1, hstart, ?_⟩
  intro c
  simp only [holds_whole]
  unfold isNative at h
  -- the bit is stored in the pool itself or on one side of the extension
  by_cases hnative : 64 * sideWords ≤ b ∧ b < 64 * positiveStart
  · rw [if_pos (by simpa using hnative)] at h
    rw [Outcome.bind_eq_ok] at h
    obtain ⟨words, hwords, h⟩ := h
    obtain ⟨rfl, rfl⟩ := Prod.mk.inj (Except.ok.inj h)
    by_cases hlow : c < 64 * sideWords
    · simp only [if_pos hlow, show c ≠ b by omega, ne_eq, not_false_iff, iff_true]
    · by_cases hmid : c < 64 * positiveStart
      · simp only [if_neg hlow, if_pos hmid, Bits.holds_flipBit hwords]
        rw [show c - 64 * sideWords ≠ b - 64 * sideWords ↔ c ≠ b by omega]
      · simp only [if_neg hlow, if_neg hmid, show c ≠ b by omega, ne_eq, not_false_iff, iff_true]
  · rw [if_neg (by simpa using hnative)] at h
    cases extension with
    | none => exact absurd h (by simp [throw, throwThe, MonadExceptOf.throw])
    | some ext =>
        simp only at h
        split at h
        · rename_i hside
          rw [Outcome.bind_eq_ok] at h
          obtain ⟨words, hwords, h⟩ := h
          obtain ⟨rfl, rfl⟩ := Prod.mk.inj (Except.ok.inj h)
          simp only [Option.getD_some]
          by_cases hlow : c < 64 * sideWords
          · simp only [if_pos hlow, Bits.holds_flipBit hwords]
          · by_cases hmid : c < 64 * positiveStart
            · simp only [if_neg hlow, if_pos hmid, show c ≠ b by omega, ne_eq, not_false_iff,
                iff_true]
            · simp only [if_neg hlow, if_neg hmid, show c ≠ b by omega, ne_eq, not_false_iff,
                iff_true]
        · rename_i hside
          rw [Outcome.bind_eq_ok] at h
          obtain ⟨words, hwords, h⟩ := h
          obtain ⟨rfl, rfl⟩ := Prod.mk.inj (Except.ok.inj h)
          simp only [Option.getD_some]
          have hpositive : 64 * positiveStart ≤ b := by
            by_contra hlt
            exact hnative ⟨by omega, by omega⟩
          by_cases hlow : c < 64 * sideWords
          · simp only [if_pos hlow, show c ≠ b by omega, ne_eq, not_false_iff, iff_true]
          · by_cases hmid : c < 64 * positiveStart
            · simp only [if_neg hlow, if_pos hmid, show c ≠ b by omega, ne_eq, not_false_iff,
                iff_true]
            · simp only [if_neg hlow, if_neg hmid, Bits.holds_flipBit hwords]
              rw [show c - 64 * positiveStart ≠ b - 64 * positiveStart ↔ c ≠ b by omega]

/-- Inverting a bit leaves an extension with its pool, and supplies none that was not there. -/
theorem pool_flip {native native' : NativeBitmap} {extension extension' : Option BitmapExtension}
    {start : Int} {spacing : Nat}
    (h : flip native extension start spacing = .ok (native', extension')) :
    extension'.map (·.pool) = extension.map (·.pool) := by
  simp only [flip] at h
  obtain ⟨b, -, h⟩ := Outcome.bind_eq_ok.1 h
  by_cases hnative : isNative b = true
  · rw [if_pos hnative] at h
    obtain ⟨words, -, h⟩ := Outcome.bind_eq_ok.1 h
    obtain ⟨-, rfl⟩ := Prod.mk.inj (Except.ok.inj h)
    rfl
  · rw [if_neg hnative] at h
    cases extension with
    | none => exact absurd h (by simp [throw, throwThe, MonadExceptOf.throw])
    | some e =>
        by_cases hbelow : b < 64 * sideWords
        · simp only [if_pos hbelow] at h
          obtain ⟨words, -, h⟩ := Outcome.bind_eq_ok.1 h
          obtain ⟨-, rfl⟩ := Prod.mk.inj (Except.ok.inj h)
          rfl
        · simp only [if_neg hbelow] at h
          obtain ⟨words, -, h⟩ := Outcome.bind_eq_ok.1 h
          obtain ⟨-, rfl⟩ := Prod.mk.inj (Except.ok.inj h)
          rfl

/-- Inverting the bit of a start adds it to the set or takes it out, and supplies no extension that
was not there. -/
theorem marks_flip {native native' : NativeBitmap} {extension extension' : Option BitmapExtension}
    {start : Int} {spacing : Nat}
    (h : flip native extension start spacing = .ok (native', extension')) (e : BitmapExtension)
    (s : Int) :
    (whole native' (extension'.getD e) spacing).Marks s ↔
      ((whole native (extension.getD e) spacing).Marks s ↔ s ≠ start) := by
  obtain ⟨b, hpos, rfl, hbits⟩ := holds_flip h e
  by_cases hs : ∃ c, startAt c spacing = s
  · obtain ⟨c, rfl⟩ := hs
    have hone := marks_startAt (v := whole native' (extension'.getD e) spacing) hpos (b := c)
    have htwo := marks_startAt (v := whole native (extension.getD e) spacing) hpos (b := c)
    have hne : startAt c spacing ≠ startAt b spacing ↔ c ≠ b := not_congr (startAt_inj hpos)
    exact hone.trans ((hbits c).trans (iff_congr htwo.symm hne.symm))
  · -- a start that is no bit's is in neither set
    have hnot : ∀ v : BitmapView, v.spacing = spacing → ¬ v.Marks s := by
      intro v hspacing hmarks
      subst hspacing
      obtain ⟨c, hc, -⟩ := hmarks
      exact hs ⟨c, hc⟩
    have hne : s ≠ startAt b spacing := fun heq => hs ⟨b, heq.symm⟩
    simp [hnot (whole native' (extension'.getD e) spacing) rfl,
      hnot (whole native (extension.getD e) spacing) rfl, hne]

end Bitmap

end Clmm
