import Clmm.Proofs.ChangeSucceeds
import Clmm.Proofs.SearchDecides
import Mathlib.Algebra.Group.Nat.Even
import Mathlib.Order.Bounds.Defs

/-!
# Clmm.Proofs.StartSet

**The split bitmap is a set of array starts** (`bitmap_is_start_set`). Starting from nothing, bits are
inverted by any number of calls, some of which have the extension and some of which have not. Then a
start is in the set if it was inverted an odd number of times, and every question about the bitmap is
answered as the set tells: with the extension for all valid starts, and without it, for the part of the
set in the native span, for the starts of that span. Beyond the span a caller without the extension is
refused, and nothing is written.

What carries this is that a view shows a start as used exactly when it `Marks` it, that inverting a bit
adds its start to the marked ones or takes it out (`Bitmap.marks_flip`), and that a question about a
start whose bit the view can read is always answered (`answers_of_marks`): every start that is found is
a valid one, so it fits 32 bits whatever the spacing.
-/

namespace Clmm

open Outcome

/-! ### Starts of any spacing -/

namespace TickArray

variable {s t : Int} {spacing : Nat}

theorem fits_of_isValidStart (hfits : spacing < 2 ^ 16) (h : isValidStart s spacing = true) :
    -2 ^ 31 ≤ s ∧ s < 2 ^ 31 := by
  obtain ⟨hpos, -, hlow, hhigh⟩ := isValidStart_iff.1 h
  have hfirst := lt_floorStart_add minTick hpos
  have hlast := floorStart_le maxTick hpos
  simp only [minTick, span] at hfirst hlow
  simp only [maxTick] at hlast hhigh
  omega

theorem startOf_of_isValidStart (hfits : spacing < 2 ^ 16)
    (h : isValidStart (floorStart t spacing) spacing = true) :
    startOf t spacing = .ok (floorStart t spacing) := by
  obtain ⟨hlow, hhigh⟩ := fits_of_isValidStart hfits h
  simp only [startOf]
  rw [bind_eq_ok]
  refine ⟨(), guardFault_eq_ok.2 (isValidStart_iff.1 h).1.ne', signedWithin_eq_ok.2 ⟨⟨?_, ?_⟩, rfl⟩⟩
  · omega
  · omega

end TickArray

namespace Bitmap

/-- The start is one of the native span. -/
def IsNativeStart (spacing : Nat) (s : Int) : Prop :=
  nativeBegin spacing ≤ s ∧ s < nativeEnd spacing

/-- A start is one of the native span if its bit is stored in the pool. -/
theorem isNativeStart_startAt {spacing b : Nat} (h : 0 < spacing) :
    IsNativeStart spacing (startAt b spacing) ↔ isNative b = true := by
  simp only [IsNativeStart, nativeBegin, nativeEnd, isNative, Bool.and_eq_true, decide_eq_true_eq]
  rw [← Int.not_lt, startAt_lt_startAt h, startAt_lt_startAt h, Nat.not_lt]

end Bitmap

/-! ### A view of a set -/

/-- Of the members of `S`, the result is the one nearest to `s` on one side, if there is any there. -/
def Neighbour (S : Set Int) (s : Int) : Direction → Option Int → Prop
  | .down, some n => IsGreatest {x | x ∈ S ∧ x < s} n
  | .down, none => ∀ x ∈ S, ¬ x < s
  | .up, some n => IsLeast {x | x ∈ S ∧ s < x} n
  | .up, none => ∀ x ∈ S, ¬ s < x

/-- About the starts in `scope` the view answers every question as the set `S` tells. -/
structure BitmapView.Answers (v : BitmapView) (S scope : Set Int) : Prop where
  isUsed : ∀ s ∈ scope, ∃ used, v.isUsed s = .ok used ∧ (used = true ↔ s ∈ S)
  nextUsed : ∀ s ∈ scope, ∀ d, ∃ found, v.nextUsed? s d = .ok found ∧ Neighbour S s d found
  firstUsed : ∀ t, TickArray.floorStart t v.spacing ∈ scope → ∀ d, ∃ found,
    v.firstUsed? t d = .ok found ∧
      (TickArray.floorStart t v.spacing ∈ S → found = some (TickArray.floorStart t v.spacing)) ∧
      (TickArray.floorStart t v.spacing ∉ S → Neighbour S (TickArray.floorStart t v.spacing) d found)

namespace BitmapView

open Bitmap

variable {v : BitmapView} {s : Int} {d : Direction} {found : Option Int}

/-- The bit of a start can be read. -/
def Reads (v : BitmapView) (s : Int) : Prop := v.extension.isSome ∨ IsNativeStart v.spacing s

/-- The word with a start's bit is there if the bit can be read. -/
theorem isSome_wordAt_iff {b : Nat} (hb : b < totalBits)
    (hvalid : TickArray.isValidStart (startAt b v.spacing) v.spacing = true) :
    (v.wordAt (b / 64)).isSome ↔ v.Reads (startAt b v.spacing) := by
  have htotal : totalBits = 64 * (sideWords + nativeWords + sideWords) := rfl
  rw [wordAt_isSome_iff, Reads, isNativeStart_startAt (TickArray.isValidStart_iff.1 hvalid).1]
  simp only [isNative, Bool.and_eq_true, decide_eq_true_eq]
  constructor
  · intro hsome
    obtain ⟨-, hext | hword⟩ := hsome
    · exact Or.inl hext
    · exact Or.inr (by omega)
  · intro hreads
    refine ⟨by omega, ?_⟩
    rcases hreads with hext | hnative
    · exact Or.inl hext
    · exact Or.inr (by omega)

theorem Reads.sees (h : v.Reads s) (hvalid : TickArray.isValidStart s v.spacing = true) :
    v.Sees s := by
  obtain ⟨b, hlt, hb⟩ := exists_bitIndex hvalid
  obtain ⟨-, -, rfl⟩ := bitIndex_eq_ok hb
  exact ⟨b, rfl, (isSome_wordAt_iff hlt hvalid).2 h⟩

/-- Whether a start is marked can be told if its bit can be read. -/
theorem Reads.exists_isUsed (h : v.Reads s) (hvalid : TickArray.isValidStart s v.spacing = true) :
    ∃ used, v.isUsed s = .ok used ∧ (used = true ↔ v.Marks s) := by
  obtain ⟨b, hlt, hb⟩ := exists_bitIndex hvalid
  obtain ⟨-, -, rfl⟩ := bitIndex_eq_ok hb
  obtain ⟨w, hword⟩ := Option.isSome_iff_exists.1 ((isSome_wordAt_iff hlt hvalid).2 h)
  have hok : v.isUsed (startAt b v.spacing) = .ok (w.getLsbD (b % 64)) := by
    simp only [isUsed]
    rw [hb, ok_bind, hword]
    rfl
  exact ⟨_, hok, (isUsed_eq_ok hok).2⟩

/-- Whether a start is marked cannot be told if its bit is hidden. -/
theorem isUsed_of_not_reads (h : ¬ v.Reads s) (hvalid : TickArray.isValidStart s v.spacing = true) :
    v.isUsed s = .error (.refused .bitmapExtensionNotLoaded) := by
  obtain ⟨b, hlt, hb⟩ := exists_bitIndex hvalid
  obtain ⟨-, -, rfl⟩ := bitIndex_eq_ok hb
  have hword : v.wordAt (b / 64) = none :=
    Option.not_isSome_iff_eq_none.1 (mt (isSome_wordAt_iff hlt hvalid).1 h)
  simp only [isUsed]
  rw [hb, ok_bind, hword]
  rfl

/-- A search from a valid start ends with an answer if every start that the view shows is valid. -/
theorem exists_nextUsed? (hfits : v.spacing < 2 ^ 16)
    (hshown : ∀ s, v.Marks s → TickArray.isValidStart s v.spacing = true)
    (hvalid : TickArray.isValidStart s v.spacing = true) (d : Direction) :
    ∃ found, v.nextUsed? s d = .ok found := by
  obtain ⟨b, -, hb⟩ := exists_bitIndex hvalid
  cases hnext : v.nextBit? b d with
  | none => exact ⟨none, nextUsed?_of_none hb hnext⟩
  | some b' =>
      have hholds := (nextBit?_eq_some hnext).1
      obtain ⟨hlow, hhigh⟩ := TickArray.fits_of_isValidStart hfits (hshown _ ⟨b', rfl, hholds⟩)
      obtain ⟨start, hstart⟩ :=
        succeeds_startOfBit (lt_totalBits_of_isSome hholds.isSome) hlow hhigh
      refine ⟨some start, ?_⟩
      rw [nextUsed?_of_some hb hnext, hstart]
      rfl

/-- What a search finds from a start that the view sees is its neighbour among the marked starts. -/
theorem neighbour_of_nextUsed? {S : Set Int} (hS : ∀ s, v.Marks s ↔ s ∈ S) (hsees : v.Sees s)
    (h : v.nextUsed? s d = .ok found) : Neighbour S s d found := by
  cases found with
  | none =>
      have hnone := fun x (hx : x ∈ S) => nextUsed?_eq_none hsees h ((hS x).2 hx)
      cases d with
      | down => exact hnone
      | up => exact hnone
  | some n =>
      obtain ⟨hmarks, hbeyond, hnearest⟩ := nextUsed?_eq_some h
      have hmem := (hS n).1 hmarks
      cases d with
      | down =>
          refine ⟨⟨hmem, hbeyond⟩, fun x hx => ?_⟩
          rcases hnearest x ((hS x).2 hx.1) hx.2 with rfl | hfar
          · exact le_rfl
          · exact le_of_lt hfar
      | up =>
          refine ⟨⟨hmem, hbeyond⟩, fun x hx => ?_⟩
          rcases hnearest x ((hS x).2 hx.1) hx.2 with rfl | hfar
          · exact le_rfl
          · exact le_of_lt hfar

/-- **A view answers as the set of the starts that it marks**, wherever it can read. -/
theorem answers_of_marks {S scope : Set Int} (hfits : v.spacing < 2 ^ 16)
    (hS : ∀ s, v.Marks s ↔ s ∈ S)
    (hshown : ∀ s ∈ S, TickArray.isValidStart s v.spacing = true)
    (hscope : ∀ s ∈ scope, TickArray.isValidStart s v.spacing = true ∧ v.Reads s) :
    v.Answers S scope := by
  have hnext : ∀ s ∈ scope, ∀ d, ∃ found, v.nextUsed? s d = .ok found ∧ Neighbour S s d found := by
    intro s hs d
    obtain ⟨hvalid, hreads⟩ := hscope s hs
    obtain ⟨found, hfound⟩ :=
      exists_nextUsed? hfits (fun x hx => hshown x ((hS x).1 hx)) hvalid d
    exact ⟨found, hfound, neighbour_of_nextUsed? hS (hreads.sees hvalid) hfound⟩
  refine ⟨?_, hnext, ?_⟩
  · intro s hs
    obtain ⟨hvalid, hreads⟩ := hscope s hs
    obtain ⟨used, hused, hiff⟩ := hreads.exists_isUsed hvalid
    exact ⟨used, hused, hiff.trans (hS s)⟩
  · intro t ht d
    obtain ⟨hvalid, hreads⟩ := hscope _ ht
    obtain ⟨used, hused, hiff⟩ := hreads.exists_isUsed hvalid
    have hmem := hiff.trans (hS _)
    simp only [firstUsed?]
    rw [TickArray.startOf_of_isValidStart hfits hvalid, ok_bind, hused, ok_bind]
    cases used with
    | true => exact ⟨_, rfl, fun _ => rfl, fun hnot => absurd (hmem.1 rfl) hnot⟩
    | false =>
        obtain ⟨found, hfound, hneighbour⟩ := hnext _ ht d
        exact ⟨found, hfound, fun hin => absurd (hmem.2 hin) Bool.false_ne_true, fun _ => hneighbour⟩

end BitmapView

/-! ### Calls that invert bits -/

/-- A pool's own part of the bitmap, and the extension. -/
structure SplitBitmap where
  native : NativeBitmap
  extension : BitmapExtension

/-- A call that inverts the bit of a start, with the extension or without it. -/
structure FlipCall where
  start : Int
  extended : Bool

namespace SplitBitmap

open Bitmap BitmapView

variable {b b' : SplitBitmap} {spacing : Nat} {c : FlipCall} {s : Int}

/-- No array is in use. -/
def empty (key : Key) : SplitBitmap := ⟨Vector.replicate _ 0, BitmapExtension.empty key⟩

/-- The extension, if the caller has it. -/
def given (b : SplitBitmap) (extended : Bool) : Option BitmapExtension :=
  if extended then some b.extension else none

/-- What a reader sees, with the extension or without it. -/
def view (b : SplitBitmap) (spacing : Nat) (extended : Bool) : BitmapView :=
  ⟨b.native, b.given extended, spacing⟩

/-- Inverts the bit of a start in place. -/
def flip (spacing : Nat) (c : FlipCall) : Update SplitBitmap Unit := do
  let b ← get
  let (native, extension) ← Bitmap.flip b.native (b.given c.extended) c.start spacing
  set (SplitBitmap.mk native (extension.getD b.extension))

/-- Makes the calls one after another, whether they succeed or not; with the starts that were
inverted, in order. -/
def flipAll (spacing : Nat) : SplitBitmap → List FlipCall → SplitBitmap × List Int
  | b, [] => (b, [])
  | b, c :: rest =>
    match flip spacing c b with
    | .ok () b' => ((flipAll spacing b' rest).1, c.start :: (flipAll spacing b' rest).2)
    | .error _ b' => flipAll spacing b' rest

theorem flip_eq_ok (h : flip spacing c b = .ok () b') :
    ∃ native extension,
      Bitmap.flip b.native (b.given c.extended) c.start spacing = .ok (native, extension) ∧
        b' = ⟨native, extension.getD b.extension⟩ := by
  simp only [flip, Update.bind_eq_ok, Update.get_eq_ok, Update.lift_eq_ok, Update.set_eq_ok] at h
  obtain ⟨_, _, ⟨rfl, rfl⟩, ⟨native, extension⟩, _, ⟨hflip, rfl⟩, rfl⟩ := h
  exact ⟨native, extension, hflip, rfl⟩

/-- The whole bitmap, whoever reads or writes it. -/
theorem view_true (b : SplitBitmap) (extended : Bool) :
    b.view spacing true = whole b.native ((b.given extended).getD b.extension) spacing := by
  cases extended with
  | true => rfl
  | false => rfl

/-- A call that succeeds adds its start to the set or takes it out. -/
theorem marks_of_flip (h : flip spacing c b = .ok () b') (s : Int) :
    (b'.view spacing true).Marks s ↔ ((b.view spacing true).Marks s ↔ s ≠ c.start) := by
  obtain ⟨native, extension, hflip, rfl⟩ := flip_eq_ok h
  rw [b.view_true c.extended]
  exact marks_flip hflip b.extension s

/-- A call succeeds exactly when its start is a valid one whose bit the caller can reach. -/
theorem flip_succeeds_iff :
    Update.Succeeds (flip spacing c) b ↔ TickArray.isValidStart c.start spacing = true ∧
      (c.extended = true ∨ IsNativeStart spacing c.start) := by
  constructor
  · rintro ⟨_, b', hflip⟩
    obtain ⟨native, extension, hflip, -⟩ := flip_eq_ok hflip
    simp only [Bitmap.flip] at hflip
    obtain ⟨bit, hbit, hflip⟩ := bind_eq_ok.1 hflip
    obtain ⟨hvalid, -, hstart⟩ := bitIndex_eq_ok hbit
    refine ⟨hvalid, ?_⟩
    rw [← hstart, isNativeStart_startAt (TickArray.isValidStart_iff.1 hvalid).1]
    by_contra hhidden
    obtain ⟨hextended, hnative⟩ := not_or.1 hhidden
    rw [if_neg hnative, given, if_neg hextended] at hflip
    cases hflip
  · rintro ⟨hvalid, hreach⟩
    obtain ⟨bit, -, hbit⟩ := exists_bitIndex hvalid
    rw [← (bitIndex_eq_ok hbit).2.2,
      isNativeStart_startAt (TickArray.isValidStart_iff.1 hvalid).1] at hreach
    have hhand : isNative bit = true ∨ (b.given c.extended).isSome = true :=
      hreach.symm.imp_right fun hextended => by simp [given, hextended]
    obtain ⟨native, extension, hflip, -⟩ := exists_flip b.native hbit hhand
    refine ⟨(), ⟨native, extension.getD b.extension⟩, ?_⟩
    simp only [flip, Update.bind_eq_ok]
    exact ⟨b, b, rfl, (native, extension), b, Update.lift_eq_ok.2 ⟨hflip, rfl⟩, rfl⟩

/-- A caller without the extension cannot invert a bit beyond the native span, and writes nothing. -/
theorem flip_of_hidden (hvalid : TickArray.isValidStart s spacing = true)
    (hhidden : ¬ IsNativeStart spacing s) (b : SplitBitmap) :
    flip spacing ⟨s, false⟩ b = .error (.refused .bitmapExtensionNotLoaded) b := by
  obtain ⟨bit, -, hbit⟩ := exists_bitIndex hvalid
  obtain ⟨-, -, rfl⟩ := bitIndex_eq_ok hbit
  have hnative : isNative bit = false := by
    rw [isNativeStart_startAt (TickArray.isValidStart_iff.1 hvalid).1] at hhidden
    exact Bool.eq_false_iff.2 hhidden
  have hfails : Bitmap.flip b.native none (startAt bit spacing) spacing =
      .error (.refused .bitmapExtensionNotLoaded) := by
    simp only [Bitmap.flip]
    rw [hbit, ok_bind, hnative]
    rfl
  simp only [flip]
  rw [Update.bind_eq_error]
  refine Or.inr ⟨b, b, rfl, ?_⟩
  rw [Update.bind_eq_error]
  exact Or.inl (Update.lift_eq_error.2 ⟨hfails, rfl⟩)

/-- What a failing call leaves is what it found. -/
theorem eq_of_flip_error {e : Failure} (h : flip spacing c b = .error e b') : b' = b := by
  simp only [flip, Update.bind_eq_error, Update.get_eq_error, Update.get_eq_ok,
    Update.lift_eq_error, Update.set_eq_error, false_or, and_false, exists_false, or_false] at h
  obtain ⟨_, _, ⟨rfl, rfl⟩, -, rfl⟩ := h
  rfl

/-- After any calls a start is marked if it was before and was inverted an even number of times, or was
not and was inverted an odd number of times. -/
theorem marks_flipAll (calls : List FlipCall) (b : SplitBitmap) (s : Int) :
    ((flipAll spacing b calls).1.view spacing true).Marks s ↔
      ((b.view spacing true).Marks s ↔ Even ((flipAll spacing b calls).2.count s)) := by
  induction calls generalizing b with
  | nil => simp [flipAll]
  | cons c rest ih =>
      simp only [flipAll]
      cases hflip : flip spacing c b with
      | ok u b' =>
          rw [ih b', marks_of_flip hflip s, List.count_cons]
          by_cases hs : c.start = s
          · rw [if_pos (by simpa using hs), Nat.even_add_one]
            have : ¬ s ≠ c.start := fun hne => hne hs.symm
            tauto
          · rw [if_neg (by simpa using hs), Nat.add_zero]
            have : s ≠ c.start := fun heq => hs heq.symm
            tauto
      | error e b' =>
          obtain rfl := eq_of_flip_error hflip
          exact ih b'

/-- Only valid starts are ever inverted. -/
theorem isValidStart_of_mem_flipAll (calls : List FlipCall) (b : SplitBitmap)
    (h : s ∈ (flipAll spacing b calls).2) : TickArray.isValidStart s spacing = true := by
  induction calls generalizing b with
  | nil => exact absurd h List.not_mem_nil
  | cons c rest ih =>
      simp only [flipAll] at h
      cases hflip : flip spacing c b with
      | ok u b' =>
          rw [hflip] at h
          rcases List.mem_cons.1 h with rfl | hmem
          · exact (flip_succeeds_iff.1 ⟨u, b', hflip⟩).1
          · exact ih b' hmem
      | error e b' =>
          rw [hflip] at h
          exact ih b' h

/-- On an empty bitmap the marked starts are those that were inverted an odd number of times. -/
theorem marks_flipAll_empty (key : Key) (calls : List FlipCall) (s : Int) :
    ((flipAll spacing (empty key) calls).1.view spacing true).Marks s ↔
      Odd ((flipAll spacing (empty key) calls).2.count s) := by
  rw [marks_flipAll, ← Nat.not_even_iff_odd]
  have hempty : ¬ ((empty key).view spacing true).Marks s := Market.not_marks_empty
  tauto

/-- **The split bitmap is a set of starts.** After any calls on an empty bitmap let the set hold the
starts that were inverted an odd number of times. With the extension every question about a valid start
is answered as the set tells; without it, every question about a valid start of the native span is
answered as the set's part in that span tells, and a valid start beyond it can neither be looked up nor
inverted. -/
theorem bitmap_is_start_set {spacing : Nat} (hpos : 0 < spacing) (hfits : spacing < 2 ^ 16)
    (key : Key) (calls : List FlipCall) {b : SplitBitmap} {flipped : List Int}
    (h : flipAll spacing (empty key) calls = (b, flipped)) :
    (b.view spacing true).Answers {s | Odd (flipped.count s)}
        {s | TickArray.isValidStart s spacing = true} ∧
      (b.view spacing false).Answers {s | Odd (flipped.count s) ∧ IsNativeStart spacing s}
        {s | TickArray.isValidStart s spacing = true ∧ IsNativeStart spacing s} ∧
      ∀ s, TickArray.isValidStart s spacing = true → ¬ IsNativeStart spacing s →
        (b.view spacing false).isUsed s = .error (.refused .bitmapExtensionNotLoaded) ∧
          flip spacing ⟨s, false⟩ b = .error (.refused .bitmapExtensionNotLoaded) b := by
  have hmarks := @marks_flipAll_empty spacing key calls
  have hvalid := fun s => @isValidStart_of_mem_flipAll spacing s calls (empty key)
  rw [h] at hmarks hvalid
  have hmember : ∀ s, Odd (flipped.count s) → TickArray.isValidStart s spacing = true :=
    fun s hs => hvalid s (List.count_pos_iff.1 hs.pos)
  refine ⟨answers_of_marks hfits hmarks hmember fun s hs => ⟨hs, Or.inl rfl⟩,
    answers_of_marks hfits ?_ (fun s hs => hmember s hs.1) fun s hs => ⟨hs.1, Or.inr hs.2⟩, ?_⟩
  · intro s
    exact (marks_without_extension hpos).trans (and_congr_left' (hmarks s))
  · intro s hs hhidden
    have hreads : ¬ (b.view spacing false).Reads s :=
      fun hreads => hhidden (hreads.resolve_left Bool.false_ne_true)
    exact ⟨isUsed_of_not_reads hreads hs, flip_of_hidden hs hhidden b⟩

/-- Calls on all three parts, at spacing 1. The fourth lacks the extension and fails; the last one
takes out what the second put in. -/
def callsOnAllParts : List FlipCall :=
  [⟨-120, true⟩, ⟨60, false⟩, ⟨42000, true⟩, ⟨36000, false⟩, ⟨-420000, true⟩, ⟨60, true⟩]

theorem bitmap_is_start_set_all_parts :
    (flipAll 1 (empty 0) callsOnAllParts).2 = [-120, 60, 42000, -420000, 60] ∧
      ((flipAll 1 (empty 0) callsOnAllParts).1.view 1 true).Answers
        {s | Odd ([-120, 60, 42000, -420000, 60].count s)}
        {s | TickArray.isValidStart s 1 = true} :=
  have hflipped : (flipAll 1 (empty 0) callsOnAllParts).2 = [-120, 60, 42000, -420000, 60] := by
    decide +kernel
  ⟨hflipped, (bitmap_is_start_set (by decide) (by decide) 0 callsOnAllParts
    (Prod.ext rfl hflipped)).1⟩

end SplitBitmap

end Clmm
