import Clmm.Arith
import Clmm.Proofs.BitScan
import Mathlib.Order.Bounds.Basic

/-!
# Clmm.Proofs.ScanLoop

**What a scan finds, and that it ends** (`scans_find_nearest`). A scan answers with a bit exactly if the bit
is the nearest one set in its direction and no word on the way to it is hidden (`scanUp_eq_some_iff`,
`scanDown_eq_some_iff`).

Upward there is a total that bounds the scan. It is compared with the bits at which words are entered, and
not with the bit that is found in a word: where the total falls inside a word, the scan may answer with a
bit beyond it (`not_every_scan_keeps_below_total`). A total at the edge of a word, as that of the bitmap
is, keeps all answers below it.

The scans look at one word after the other (`upwardLoop`, `downwardLoop`). Upward the position rises and
below the total there are only so many; downward it falls. The positions have 64 bits, and leave them only
where the total lies inside the very last word (`Overruns`).
-/

namespace Clmm

namespace Bits

variable {wordAt : Nat → Option Word} {start total b : Nat}

/-! ### What is found -/

/-- Upward, all words up to that of the bit that is found are visible, and the scan enters them. -/
theorem scanUpWords_visible {index n : Nat} (h : scanUpWords wordAt index start n = some b)
    (hstart : start < 64) : b / 64 < index + n ∧ Visible wordAt index (b / 64) := by
  induction n generalizing index start with
  | zero => simp [scanUpWords] at h
  | succ n ih =>
      unfold scanUpWords at h
      obtain ⟨w, hw, h⟩ := Option.bind_eq_some_iff.1 h
      have hhere : (wordAt index).isSome = true := Option.isSome_iff_exists.2 ⟨w, hw⟩
      cases hnext : w.nextSet? start with
      | some i =>
          rw [hnext] at h
          obtain rfl : index * 64 + i = b := Option.some.inj h
          obtain ⟨-, hlt, -, -⟩ := Word.nextSet?_eq_some hnext
          refine ⟨by omega, fun k hk hkb => ?_⟩
          rwa [show k = index by omega]
      | none =>
          rw [hnext] at h
          obtain ⟨hlt, hseen⟩ := ih h (by omega)
          refine ⟨by omega, fun k hk hkb => ?_⟩
          rcases Nat.eq_or_lt_of_le hk with rfl | hk
          · exact hhere
          · exact hseen k hk hkb

/-- Downward, all words down to that of the bit that is found are visible. -/
theorem scanDownWords_visible {index : Nat} (h : scanDownWords wordAt index start = some b)
    (hstart : start < 64) : Visible wordAt (b / 64) index := by
  induction index generalizing start with
  | zero =>
      unfold scanDownWords at h
      obtain ⟨w, hw, -⟩ := Option.bind_eq_some_iff.1 h
      intro k _ hk
      rw [Nat.le_zero.1 hk, hw]
      rfl
  | succ index ih =>
      unfold scanDownWords at h
      obtain ⟨w, hw, h⟩ := Option.bind_eq_some_iff.1 h
      have hhere : (wordAt (index + 1)).isSome = true := Option.isSome_iff_exists.2 ⟨w, hw⟩
      cases hprev : w.prevSet? start with
      | some i =>
          rw [hprev] at h
          obtain rfl : (index + 1) * 64 + i = b := Option.some.inj h
          intro k hk hki
          rwa [show k = index + 1 by omega]
      | none =>
          rw [hprev] at h
          intro k hk hki
          rcases Nat.eq_or_lt_of_le hki with rfl | hki
          · exact hhere
          · exact ih h (by omega) k hk (by omega)

theorem isLeast_of_scanUp (h : scanUp wordAt start total = some b) :
    IsLeast {c | start ≤ c ∧ Holds wordAt c} b := by
  obtain ⟨hle, hholds, hleast⟩ := scanUp_eq_some h
  exact ⟨⟨hle, hholds⟩, fun c ⟨hc, hset⟩ => Nat.not_lt.1 fun hcb => hleast c hc hcb hset⟩

theorem isGreatest_of_scanDown (h : scanDown wordAt start = some b) :
    IsGreatest {c | c ≤ start ∧ Holds wordAt c} b := by
  obtain ⟨hle, hholds, hgreatest⟩ := scanDown_eq_some h
  exact ⟨⟨hle, hholds⟩, fun c ⟨hc, hset⟩ => Nat.not_lt.1 fun hbc => hgreatest c hc hbc hset⟩

/-- An upward scan answers with a bit exactly if the bit is the least one set, its word begins below the
total, and no word up to there is hidden. -/
theorem scanUp_eq_some_iff : scanUp wordAt start total = some b ↔
    IsLeast {c | start ≤ c ∧ Holds wordAt c} b ∧ Visible wordAt (start / 64) (b / 64) ∧
      start < total ∧ b / 64 * 64 < total := by
  constructor
  · intro h
    refine ⟨isLeast_of_scanUp h, ?_⟩
    unfold scanUp at h
    by_cases hlt : start < total
    · rw [if_pos hlt] at h
      obtain ⟨hword, hseen⟩ := scanUpWords_visible h (by omega)
      exact ⟨hseen, hlt, by omega⟩
    · rw [if_neg hlt] at h
      cases h
  · rintro ⟨hleast, hseen, hlt, hword⟩
    cases hscan : scanUp wordAt start total with
    | none =>
        unfold scanUp at hscan
        rw [if_pos hlt] at hscan
        have hle := hleast.1.1
        exact absurd hleast.1.2 (scanUpWords_eq_none hscan (by omega) (by omega) hseen)
    | some b' => rw [(isLeast_of_scanUp hscan).unique hleast]

/-- A downward scan answers with a bit exactly if the bit is the greatest one set and no word down to
there is hidden. -/
theorem scanDown_eq_some_iff : scanDown wordAt start = some b ↔
    IsGreatest {c | c ≤ start ∧ Holds wordAt c} b ∧ Visible wordAt (b / 64) (start / 64) := by
  constructor
  · intro h
    exact ⟨isGreatest_of_scanDown h, scanDownWords_visible h (by omega)⟩
  · rintro ⟨hgreatest, hseen⟩
    cases hscan : scanDown wordAt start with
    | none => exact absurd hgreatest.1.2 (scanDown_eq_none hscan hgreatest.1.1 hseen)
    | some b' => rw [(isGreatest_of_scanDown hscan).unique hgreatest]

/-- Below the total an upward scan answers with the least set bit. -/
theorem scanUp_eq_some_iff_of_lt (hb : b < total) : scanUp wordAt start total = some b ↔
    IsLeast {c | start ≤ c ∧ c < total ∧ Holds wordAt c} b ∧
      Visible wordAt (start / 64) (b / 64) := by
  rw [scanUp_eq_some_iff]
  constructor
  · rintro ⟨⟨⟨hle, hholds⟩, hleast⟩, hseen, -, -⟩
    exact ⟨⟨⟨hle, hb, hholds⟩, fun c ⟨hc, _, hset⟩ => hleast ⟨hc, hset⟩⟩, hseen⟩
  · rintro ⟨⟨⟨hle, -, hholds⟩, hleast⟩, hseen⟩
    refine ⟨⟨⟨hle, hholds⟩, fun c ⟨hc, hset⟩ => ?_⟩, hseen, by omega, by omega⟩
    rcases Nat.lt_or_ge c total with hlt | hge
    · exact hleast ⟨hc, hlt, hset⟩
    · omega

/-- A total at the edge of a word bounds the answers. -/
theorem lt_of_scanUp (h : scanUp wordAt start total = some b) (hedge : 64 ∣ total) : b < total := by
  obtain ⟨-, -, -, hword⟩ := scanUp_eq_some_iff.1 h
  omega

/-- With a total inside a word an upward scan may answer with a bit beyond it: of 130 bits it finds bit
191. -/
theorem not_every_scan_keeps_below_total :
    ¬ ∀ (wordAt : Nat → Option Word) (start total b : Nat),
      scanUp wordAt start total = some b ↔
        IsLeast {c | start ≤ c ∧ c < total ∧ Holds wordAt c} b ∧
          Visible wordAt (start / 64) (b / 64) := by
  intro h
  have hfound : scanUp (([0, 0, 2 ^ 63] : List Word)[·]?) 0 130 = some 191 := by decide +kernel
  exact absurd ((h _ 0 130 191).1 hfound).1.1.2.1 (by decide)

/-! ### Word by word -/

/-- The upward scan from bit `b`, one word at a time: it looks at the word of the bit and goes on from the
first bit of the next. Bits are numbered with 64 bits. -/
def upwardLoop (wordAt : Nat → Option Word) (total b : Nat) : Outcome (Option Nat) :=
  if b < total then
    match wordAt (b / 64) with
    | none => .ok none
    | some w =>
      match w.nextSet? (b % 64) with
      | some i => .ok (some (b / 64 * 64 + i))
      | none =>
        if (b / 64 + 1) * 64 < 2 ^ 64 then upwardLoop wordAt total ((b / 64 + 1) * 64)
        else .error .fault
  else .ok none
termination_by total - b

/-- The downward scan from bit `b`, one word at a time: it goes on from the last bit of the word before. -/
def downwardLoop (wordAt : Nat → Option Word) (b : Nat) : Option Nat :=
  match wordAt (b / 64) with
  | none => none
  | some w =>
    match w.prevSet? (b % 64) with
    | some i => some (b / 64 * 64 + i)
    | none => if b / 64 = 0 then none else downwardLoop wordAt (b / 64 * 64 - 1)
termination_by b

/-- An upward scan that finds nothing comes to the end of the very last word: the total lies inside that
word, and no word is hidden up to there. -/
structure Overruns (wordAt : Nat → Option Word) (start total : Nat) : Prop where
  inside : 2 ^ 64 - 64 < total
  lt : start < total
  seen : Visible wordAt (start / 64) (2 ^ 58 - 1)
  missed : scanUp wordAt start total = none

section Steps

variable {w : Word} {i : Nat}

theorem scanUp_of_hidden (hw : wordAt (start / 64) = none) : scanUp wordAt start total = none := by
  unfold scanUp
  by_cases hlt : start < total
  · rw [if_pos hlt, scanUpWords, hw]
    rfl
  · rw [if_neg hlt]

theorem scanUp_of_found (hlt : start < total) (hw : wordAt (start / 64) = some w)
    (hnext : w.nextSet? (start % 64) = some i) :
    scanUp wordAt start total = some (start / 64 * 64 + i) := by
  unfold scanUp
  rw [if_pos hlt, scanUpWords, hw]
  simp only [bind, Option.bind, hnext]

/-- Where the word of the start has no set bit left, the scan is that from the next word on. -/
theorem scanUp_next (hw : wordAt (start / 64) = some w) (hnext : w.nextSet? (start % 64) = none) :
    scanUp wordAt start total = scanUp wordAt ((start / 64 + 1) * 64) total := by
  unfold scanUp
  by_cases hlt : start < total
  · rw [if_pos hlt, scanUpWords, hw]
    simp only [bind, Option.bind, hnext]
    by_cases hmore : (start / 64 + 1) * 64 < total
    · rw [if_pos hmore, show (start / 64 + 1) * 64 / 64 = start / 64 + 1 by omega,
        show (start / 64 + 1) * 64 % 64 = 0 by omega,
        show (total - 1) / 64 - start / 64 = (total - 1) / 64 - (start / 64 + 1) + 1 by omega]
    · rw [if_neg hmore, show (total - 1) / 64 - start / 64 = 0 by omega]
      rfl
  · rw [if_neg hlt, if_neg (by omega)]

theorem scanDown_of_hidden (hw : wordAt (start / 64) = none) : scanDown wordAt start = none := by
  unfold scanDown
  cases hindex : start / 64 with
  | zero =>
      rw [hindex] at hw
      rw [scanDownWords, hw]
      rfl
  | succ index =>
      rw [hindex] at hw
      rw [scanDownWords, hw]
      rfl

theorem scanDown_of_found (hw : wordAt (start / 64) = some w)
    (hprev : w.prevSet? (start % 64) = some i) :
    scanDown wordAt start = some (start / 64 * 64 + i) := by
  unfold scanDown
  cases hindex : start / 64 with
  | zero =>
      rw [hindex] at hw
      rw [scanDownWords, hw, Nat.zero_mul, Nat.zero_add]
      exact hprev
  | succ index =>
      rw [hindex] at hw
      rw [scanDownWords, hw]
      simp only [bind, Option.bind, hprev]

/-- Where the word of the start has no set bit left, the scan is that from the word before on. -/
theorem scanDown_next (hw : wordAt (start / 64) = some w) (hprev : w.prevSet? (start % 64) = none) :
    scanDown wordAt start =
      if start / 64 = 0 then none else scanDown wordAt (start / 64 * 64 - 1) := by
  unfold scanDown
  cases hindex : start / 64 with
  | zero =>
      rw [hindex] at hw
      rw [if_pos rfl, scanDownWords, hw]
      exact hprev
  | succ index =>
      rw [hindex] at hw
      rw [if_neg (Nat.succ_ne_zero index), scanDownWords, hw,
        show ((index + 1) * 64 - 1) / 64 = index by omega,
        show ((index + 1) * 64 - 1) % 64 = 63 by omega]
      simp only [bind, Option.bind, hprev]

end Steps

/-- Going on to the next word changes nothing about whether the scan overruns. -/
theorem overruns_next {w : Word} (hw : wordAt (start / 64) = some w)
    (hnext : w.nextSet? (start % 64) = none) (hlt : start < total)
    (hfits : (start / 64 + 1) * 64 < 2 ^ 64) :
    Overruns wordAt ((start / 64 + 1) * 64) total ↔ Overruns wordAt start total := by
  have hword : (start / 64 + 1) * 64 / 64 = start / 64 + 1 := by omega
  constructor
  · rintro ⟨hinside, -, hseen, hmissed⟩
    refine ⟨hinside, hlt, fun k hk hlast => ?_, (scanUp_next hw hnext).trans hmissed⟩
    rcases Nat.eq_or_lt_of_le hk with rfl | hk
    · exact Option.isSome_iff_exists.2 ⟨w, hw⟩
    · exact hseen k (by omega) hlast
  · rintro ⟨hinside, -, hseen, hmissed⟩
    refine ⟨hinside, by omega, fun k hk hlast => ?_, (scanUp_next hw hnext).symm.trans hmissed⟩
    exact hseen k (by omega) hlast

/-- Word by word the upward scan gives the same, unless it overruns. -/
theorem upwardLoop_spec (wordAt : Nat → Option Word) (b : Nat) (htotal : total < 2 ^ 64) :
    (Overruns wordAt b total → upwardLoop wordAt total b = .error .fault) ∧
    (¬ Overruns wordAt b total → upwardLoop wordAt total b = .ok (scanUp wordAt b total)) := by
  fun_induction upwardLoop wordAt total b with
  | case1 b hlt hw =>
      refine ⟨fun hover => ?_, fun _ => by rw [scanUp_of_hidden hw]⟩
      have hseen := hover.seen (b / 64) (Nat.le_refl _) (by omega)
      rw [hw] at hseen
      cases hseen
  | case2 b hlt w hw i hnext =>
      have hfound := scanUp_of_found hlt hw hnext
      refine ⟨fun hover => ?_, fun _ => by rw [hfound]⟩
      rw [hover.missed] at hfound
      cases hfound
  | case3 b hlt w hw hnext hfits ih =>
      rwa [overruns_next hw hnext hlt hfits, ← scanUp_next hw hnext] at ih
  | case4 b hlt w hw hnext hfits =>
      -- the position is in the very last word
      have hover : Overruns wordAt b total := by
        refine ⟨by omega, hlt, fun k hk hlast => ?_, ?_⟩
        · rw [show k = b / 64 by omega, hw]
          rfl
        · rw [scanUp_next hw hnext]
          exact if_neg (by omega)
      exact ⟨fun _ => rfl, fun hnot => absurd hover hnot⟩
  | case5 b hge =>
      refine ⟨fun hover => absurd hover.lt hge, fun _ => ?_⟩
      unfold scanUp
      rw [if_neg hge]

/-- Word by word the downward scan gives the same. -/
theorem downwardLoop_eq : downwardLoop wordAt b = scanDown wordAt b := by
  fun_induction downwardLoop wordAt b with
  | case1 b hw => exact (scanDown_of_hidden hw).symm
  | case2 b w hw i hprev => exact (scanDown_of_found hw hprev).symm
  | case3 b w hw hprev hfirst => rw [scanDown_next hw hprev, if_pos hfirst]
  | case4 b w hw hprev hfirst ih => rw [scanDown_next hw hprev, if_neg hfirst, ih]

/-- **A scan finds the nearest set bit.** Upward it answers with bit `b` exactly if `b` is the least set bit
from the start on, no word up to there is hidden, and the scan enters the word of `b`, which it does if the
word begins below the total. So below the total it answers as it should, and with a total at the edge of a
word it never answers beyond. Downward it answers with `b` exactly if `b` is the greatest set bit from the
start down and no word down to there is hidden. And both end: word by word, each from a position beyond the
one before, they come to the same answers. Only a scan that overruns the numbers of 64 bits faults, and with
a total at the edge of a word none does. -/
theorem scans_find_nearest (wordAt : Nat → Option Word) (start total : Nat)
    (htotal : total < 2 ^ 64) :
    (∀ b, scanUp wordAt start total = some b ↔
      IsLeast {c | start ≤ c ∧ Holds wordAt c} b ∧ Visible wordAt (start / 64) (b / 64) ∧
        start < total ∧ b / 64 * 64 < total) ∧
    (∀ b < total, scanUp wordAt start total = some b ↔
      IsLeast {c | start ≤ c ∧ c < total ∧ Holds wordAt c} b ∧
        Visible wordAt (start / 64) (b / 64)) ∧
    (∀ b, scanDown wordAt start = some b ↔
      IsGreatest {c | c ≤ start ∧ Holds wordAt c} b ∧ Visible wordAt (b / 64) (start / 64)) ∧
    (Overruns wordAt start total → upwardLoop wordAt total start = .error .fault) ∧
    (¬ Overruns wordAt start total →
      upwardLoop wordAt total start = .ok (scanUp wordAt start total)) ∧
    downwardLoop wordAt start = scanDown wordAt start ∧
    (64 ∣ total →
      (∀ b, scanUp wordAt start total = some b → b < total) ∧ ¬ Overruns wordAt start total) := by
  obtain ⟨hfault, hanswer⟩ := upwardLoop_spec wordAt start htotal
  refine ⟨fun b => scanUp_eq_some_iff, fun b hb => scanUp_eq_some_iff_of_lt hb,
    fun b => scanDown_eq_some_iff, hfault, hanswer, downwardLoop_eq, fun hedge => ⟨?_, ?_⟩⟩
  · exact fun b h => lt_of_scanUp h hedge
  · intro hover
    have hinside := hover.inside
    omega

/-- Of the bits 3 and 200 of four words, a scan up from bit 4 finds 200 and a scan down from 199 finds 3;
a scan of blank words from the last but one of all 64-bit numbers overruns. -/
theorem scans_find_nearest_across_words :
    256 < 2 ^ 64 ∧
    IsLeast {c | 4 ≤ c ∧ c < 256 ∧ Holds (([8, 0, 0, 256] : List Word)[·]?) c} 200 ∧
    IsGreatest {c | c ≤ 199 ∧ Holds (([8, 0, 0, 256] : List Word)[·]?) c} 3 ∧
    upwardLoop (([8, 0, 0, 256] : List Word)[·]?) 256 4 = .ok (some 200) ∧
    upwardLoop (fun _ => some 0) (2 ^ 64 - 1) (2 ^ 64 - 2) = .error .fault := by
  have hup : scanUp (([8, 0, 0, 256] : List Word)[·]?) 4 256 = some 200 := by decide +kernel
  have hdown : scanDown (([8, 0, 0, 256] : List Word)[·]?) 199 = some 3 := by decide +kernel
  have hover : Overruns (fun _ => some 0) (2 ^ 64 - 2) (2 ^ 64 - 1) :=
    ⟨by decide, by decide, fun _ _ _ => rfl, by decide +kernel⟩
  obtain ⟨-, hbelow, -, -, hanswer, -, hedge⟩ :=
    scans_find_nearest (([8, 0, 0, 256] : List Word)[·]?) 4 256 (by decide)
  obtain ⟨-, -, hgreatest, -⟩ :=
    scans_find_nearest (([8, 0, 0, 256] : List Word)[·]?) 199 256 (by decide)
  obtain ⟨-, -, -, hfault, -⟩ :=
    scans_find_nearest (fun _ => some 0) (2 ^ 64 - 2) (2 ^ 64 - 1) (by decide)
  refine ⟨by decide, ((hbelow 200 (by decide)).1 hup).1, ((hgreatest 3).1 hdown).1, ?_, hfault hover⟩
  rw [hanswer (hedge (by decide)).2, hup]

end Bits

end Clmm
