import Clmm.Bits
import Mathlib.Tactic.Common

/-!
# Clmm.Proofs.BitScan

**What a scan of a bit string finds.** The string is read through a function that may hide words.
A scan that finds a bit finds the nearest one; a scan that finds none has seen every bit that lies
behind visible words only. Inverting a bit changes that bit and no other.

Each statement is proved for one word first, then along the recursion of the scan.
-/

namespace Clmm

namespace Bits

/-- Bit `b` is set, and its word is visible. -/
def Holds (wordAt : Nat → Option Word) (b : Nat) : Prop :=
  ∃ w, wordAt (b / 64) = some w ∧ w.getLsbD (b % 64) = true

/-- Every word from `i` to `j` is visible. -/
def Visible (wordAt : Nat → Option Word) (i j : Nat) : Prop :=
  ∀ k, i ≤ k → k ≤ j → (wordAt k).isSome

theorem Holds.isSome {wordAt : Nat → Option Word} {b : Nat} (h : Holds wordAt b) :
    (wordAt (b / 64)).isSome := by
  obtain ⟨w, hw, -⟩ := h
  rw [hw]
  rfl

/-- Inside a known word, a bit is what the word says. -/
theorem holds_iff_getLsbD {wordAt : Nat → Option Word} {b : Nat} {w : Word}
    (hw : wordAt (b / 64) = some w) : Holds wordAt b ↔ w.getLsbD (b % 64) = true := by
  constructor
  · intro hholds
    obtain ⟨w', hw', hbit⟩ := hholds
    rw [hw] at hw'
    obtain rfl := Option.some.inj hw'
    exact hbit
  · intro hbit
    exact ⟨w, hw, hbit⟩

theorem holds_of_word {wordAt : Nat → Option Word} {k i : Nat} {w : Word} (hw : wordAt k = some w)
    (hi : i < 64) (hbit : w.getLsbD i = true) : Holds wordAt (k * 64 + i) := by
  refine ⟨w, ?_, ?_⟩
  · rw [show (k * 64 + i) / 64 = k by omega]
    exact hw
  · rw [show (k * 64 + i) % 64 = i by omega]
    exact hbit

theorem not_holds_of_word {wordAt : Nat → Option Word} {k b : Nat} {w : Word}
    (hw : wordAt k = some w) (hb : b / 64 = k) (hbit : w.getLsbD (b % 64) = false) :
    ¬ Holds wordAt b := by
  subst hb
  rw [holds_iff_getLsbD hw, hbit]
  exact Bool.false_ne_true

end Bits

/-! ### One word -/

namespace Word

theorem nextSet?_eq_some {w : Word} {start i : Nat} (h : w.nextSet? start = some i) :
    start ≤ i ∧ i < 64 ∧ w.getLsbD i = true ∧ ∀ j, start ≤ j → j < i → w.getLsbD j = false := by
  unfold nextSet? at h
  by_cases hw : w = 0
  · rw [if_pos hw] at h
    exact absurd h (by simp)
  · rw [if_neg hw, leastBelow?_eq_some_iff] at h
    simp only [Bool.and_eq_true, decide_eq_true_eq, Bool.and_eq_false_iff,
      decide_eq_false_iff_not] at h
    obtain ⟨hi, ⟨hstart, hbit⟩, hleast⟩ := h
    refine ⟨hstart, hi, hbit, ?_⟩
    intro j hj hji
    rcases hleast j hji with h | h
    · exact absurd hj h
    · exact h

theorem nextSet?_eq_none {w : Word} {start : Nat} (h : w.nextSet? start = none) {i : Nat}
    (hstart : start ≤ i) (hi : i < 64) : w.getLsbD i = false := by
  unfold nextSet? at h
  by_cases hw : w = 0
  · rw [hw]
    exact BitVec.getLsbD_zero
  · rw [if_neg hw, leastBelow?_eq_none_iff] at h
    simpa [hstart] using h i hi

theorem prevSet?_eq_some {w : Word} {start i : Nat} (hstart : start < 64)
    (h : w.prevSet? start = some i) :
    i ≤ start ∧ w.getLsbD i = true ∧ ∀ j, j ≤ start → i < j → w.getLsbD j = false := by
  unfold prevSet? at h
  by_cases hw : w = 0
  · rw [if_pos hw] at h
    exact absurd h (by simp)
  · rw [if_neg hw, greatestBelow?_eq_some_iff, Nat.min_eq_left (by omega)] at h
    obtain ⟨hi, hbit, hgreatest⟩ := h
    exact ⟨by omega, hbit, fun j hj hij => hgreatest j (by omega) hij⟩

theorem prevSet?_eq_none {w : Word} {start : Nat} (hstart : start < 64)
    (h : w.prevSet? start = none) {i : Nat} (hi : i ≤ start) : w.getLsbD i = false := by
  unfold prevSet? at h
  by_cases hw : w = 0
  · rw [hw]
    exact BitVec.getLsbD_zero
  · rw [if_neg hw, greatestBelow?_eq_none_iff, Nat.min_eq_left (by omega)] at h
    exact h i (by omega)

end Word

namespace Bits

variable {wordAt : Nat → Option Word}

/-! ### Scanning upward -/

theorem scanUpWords_eq_some {index start n b : Nat}
    (h : scanUpWords wordAt index start n = some b) (hstart : start < 64) :
    index * 64 + start ≤ b ∧ Holds wordAt b ∧
      ∀ j, index * 64 + start ≤ j → j < b → ¬ Holds wordAt j := by
  induction n generalizing index start with
  | zero => simp [scanUpWords] at h
  | succ n ih =>
      unfold scanUpWords at h
      obtain ⟨w, hw, h⟩ := Option.bind_eq_some_iff.1 h
      cases hnext : w.nextSet? start with
      | some i =>
          rw [hnext] at h
          obtain rfl : index * 64 + i = b := Option.some.inj h
          -- the bit lies in this word
          obtain ⟨hle, hlt, hbit, hleast⟩ := Word.nextSet?_eq_some hnext
          refine ⟨by omega, holds_of_word hw hlt hbit, ?_⟩
          intro j hj hjb
          exact not_holds_of_word hw (by omega) (hleast (j % 64) (by omega) (by omega))
      | none =>
          rw [hnext] at h
          -- this word has none left, so what the rest of the scan finds is the nearest
          obtain ⟨hle, hholds, hleast⟩ := ih h (by omega)
          refine ⟨by omega, hholds, ?_⟩
          intro j hj hjb
          by_cases hword : j / 64 = index
          · exact not_holds_of_word hw hword
              (Word.nextSet?_eq_none hnext (by omega) (by omega))
          · exact hleast j (by omega) hjb

theorem scanUpWords_eq_none {index start n : Nat}
    (h : scanUpWords wordAt index start n = none) {b : Nat} (hb : index * 64 + start ≤ b)
    (hn : b / 64 < index + n) (hseen : Visible wordAt index (b / 64)) : ¬ Holds wordAt b := by
  induction n generalizing index start with
  | zero => omega
  | succ n ih =>
      obtain ⟨w, hw⟩ := Option.isSome_iff_exists.1 (hseen index (Nat.le_refl _) (by omega))
      unfold scanUpWords at h
      rw [hw] at h
      simp only [bind, Option.bind] at h
      cases hnext : w.nextSet? start with
      | some i => simp [hnext] at h
      | none =>
          rw [hnext] at h
          by_cases hword : b / 64 = index
          · exact not_holds_of_word hw hword
              (Word.nextSet?_eq_none hnext (by omega) (by omega))
          · exact ih h (by omega) (by omega) fun k hk hkb => hseen k (by omega) hkb

/-- The bit that an upward scan finds is the nearest one. -/
theorem scanUp_eq_some {start total b : Nat} (h : scanUp wordAt start total = some b) :
    start ≤ b ∧ Holds wordAt b ∧ ∀ j, start ≤ j → j < b → ¬ Holds wordAt j := by
  unfold scanUp at h
  by_cases hlt : start < total
  · rw [if_pos hlt] at h
    obtain ⟨hle, hholds, hleast⟩ := scanUpWords_eq_some h (by omega)
    exact ⟨by omega, hholds, fun j hj hjb => hleast j (by omega) hjb⟩
  · rw [if_neg hlt] at h
    exact absurd h (by simp)

/-- An upward scan without an answer has passed over every bit behind visible words. -/
theorem scanUp_eq_none {start total : Nat} (h : scanUp wordAt start total = none) {b : Nat}
    (hb : start ≤ b) (htotal : b < total) (hseen : Visible wordAt (start / 64) (b / 64)) :
    ¬ Holds wordAt b := by
  unfold scanUp at h
  rw [if_pos (by omega)] at h
  exact scanUpWords_eq_none h (by omega) (by omega) hseen

/-! ### Scanning downward -/

theorem scanDownWords_eq_some {index start b : Nat}
    (h : scanDownWords wordAt index start = some b) (hstart : start < 64) :
    b ≤ index * 64 + start ∧ Holds wordAt b ∧
      ∀ j, j ≤ index * 64 + start → b < j → ¬ Holds wordAt j := by
  induction index generalizing start with
  | zero =>
      unfold scanDownWords at h
      obtain ⟨w, hw, h⟩ := Option.bind_eq_some_iff.1 h
      obtain ⟨hle, hbit, hgreatest⟩ := Word.prevSet?_eq_some hstart h
      have hholds := holds_of_word hw (by omega) hbit
      rw [Nat.zero_mul, Nat.zero_add] at hholds
      refine ⟨by omega, hholds, ?_⟩
      intro j hj hbj
      exact not_holds_of_word hw (by omega) (hgreatest (j % 64) (by omega) (by omega))
  | succ index ih =>
      unfold scanDownWords at h
      obtain ⟨w, hw, h⟩ := Option.bind_eq_some_iff.1 h
      cases hprev : w.prevSet? start with
      | some i =>
          rw [hprev] at h
          obtain rfl : (index + 1) * 64 + i = b := Option.some.inj h
          -- the bit lies in this word
          obtain ⟨hle, hbit, hgreatest⟩ := Word.prevSet?_eq_some hstart hprev
          refine ⟨by omega, holds_of_word hw (by omega) hbit, ?_⟩
          intro j hj hbj
          exact not_holds_of_word hw (by omega) (hgreatest (j % 64) (by omega) (by omega))
      | none =>
          rw [hprev] at h
          -- this word has none left, so what the rest of the scan finds is the nearest
          obtain ⟨hle, hholds, hgreatest⟩ := ih h (by omega)
          refine ⟨by omega, hholds, ?_⟩
          intro j hj hbj
          by_cases hword : j / 64 = index + 1
          · exact not_holds_of_word hw hword (Word.prevSet?_eq_none hstart hprev (by omega))
          · exact hgreatest j (by omega) hbj

theorem scanDownWords_eq_none {index start : Nat}
    (h : scanDownWords wordAt index start = none) (hstart : start < 64) {b : Nat}
    (hb : b ≤ index * 64 + start) (hseen : Visible wordAt (b / 64) index) : ¬ Holds wordAt b := by
  induction index generalizing start with
  | zero =>
      obtain ⟨w, hw⟩ := Option.isSome_iff_exists.1 (hseen 0 (by omega) (Nat.le_refl _))
      unfold scanDownWords at h
      rw [hw] at h
      exact not_holds_of_word hw (by omega) (Word.prevSet?_eq_none hstart h (by omega))
  | succ index ih =>
      obtain ⟨w, hw⟩ := Option.isSome_iff_exists.1 (hseen (index + 1) (by omega) (Nat.le_refl _))
      unfold scanDownWords at h
      rw [hw] at h
      simp only [bind, Option.bind] at h
      cases hprev : w.prevSet? start with
      | some i => simp [hprev] at h
      | none =>
          rw [hprev] at h
          by_cases hword : b / 64 = index + 1
          · exact not_holds_of_word hw hword (Word.prevSet?_eq_none hstart hprev (by omega))
          · exact ih h (by omega) (by omega) fun k hk hki => hseen k hk (by omega)

/-- The bit that a downward scan finds is the nearest one. -/
theorem scanDown_eq_some {start b : Nat} (h : scanDown wordAt start = some b) :
    b ≤ start ∧ Holds wordAt b ∧ ∀ j, j ≤ start → b < j → ¬ Holds wordAt j := by
  unfold scanDown at h
  obtain ⟨hle, hholds, hgreatest⟩ := scanDownWords_eq_some h (by omega)
  exact ⟨by omega, hholds, fun j hj hbj => hgreatest j (by omega) hbj⟩

/-- A downward scan without an answer has passed over every bit behind visible words. -/
theorem scanDown_eq_none {start : Nat} (h : scanDown wordAt start = none) {b : Nat}
    (hb : b ≤ start) (hseen : Visible wordAt (b / 64) (start / 64)) : ¬ Holds wordAt b := by
  unfold scanDown at h
  exact scanDownWords_eq_none h (by omega) (by omega) hseen

/-! ### Inverting a bit -/

/-- Inverting bit `b` changes bit `b` alone. -/
theorem holds_flipBit {n : Nat} {words flipped : Vector Word n} {b : Nat}
    (h : flipBit words b = .ok flipped) (j : Nat) :
    Holds (flipped[·]?) j ↔ (Holds (words[·]?) j ↔ j ≠ b) := by
  unfold flipBit at h
  by_cases hb : b / 64 < n
  · rw [dif_pos hb] at h
    obtain rfl := Except.ok.inj h
    by_cases hj : j / 64 < n
    · rw [holds_iff_getLsbD (Vector.getElem?_eq_getElem hj),
        holds_iff_getLsbD (Vector.getElem?_eq_getElem hj), Vector.getElem_set]
      -- of the bits of the changed word, only the one is inverted
      by_cases hword : b / 64 = j / 64
      · have hbit : b % 64 = j % 64 ↔ j = b := by omega
        simp only [hword, if_true, BitVec.getLsbD_xor, BitVec.getLsbD_twoPow,
          show b % 64 < 64 by omega, decide_true, Bool.true_and]
        by_cases hjb : j = b <;> simp [hbit, hjb]
      · rw [if_neg hword]
        have hjb : j ≠ b := fun h => hword (by rw [h])
        simp [hjb]
    · have hnone : ∀ v : Vector Word n, ¬ Holds (v[·]?) j := fun v hv => by
        have := hv.isSome
        rw [Vector.getElem?_eq_none (by omega)] at this
        exact absurd this (by simp)
      have hjb : j ≠ b := fun h => hj (by rw [h]; exact hb)
      simp [hnone, hjb]
  · rw [dif_neg hb] at h
    exact absurd h (by simp)

end Bits

end Clmm
