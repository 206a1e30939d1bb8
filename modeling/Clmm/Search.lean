/-!
# Clmm.Search

**Extreme members of a finite set of naturals.** A set below a bound is given by its membership test.
`leastBelow?` and `greatestBelow?` find its least and greatest member; the lemmas say exactly that,
and all searches of the library (bits of a word, slots of a tick array) are instances.
-/

namespace Clmm

/-- The least `i < n` with `p i`. -/
def leastBelow? (p : Nat → Bool) (n : Nat) : Option Nat := (List.range n).find? p

/-- The greatest `i < n` with `p i`. -/
def greatestBelow? (p : Nat → Bool) : Nat → Option Nat
  | 0 => none
  | n + 1 => if p n then some n else greatestBelow? p n

theorem leastBelow?_eq_some_iff {p : Nat → Bool} {n i : Nat} :
    leastBelow? p n = some i ↔ i < n ∧ p i = true ∧ ∀ j < i, p j = false := by
  unfold leastBelow?
  rw [List.find?_range_eq_some]
  simp only [Bool.not_eq_true']
  constructor
  · rintro ⟨hp, hi, hj⟩
    exact ⟨by simpa using hi, hp, hj⟩
  · rintro ⟨hi, hp, hj⟩
    exact ⟨hp, by simpa using hi, hj⟩

theorem leastBelow?_eq_none_iff {p : Nat → Bool} {n : Nat} :
    leastBelow? p n = none ↔ ∀ i < n, p i = false := by
  unfold leastBelow?
  simp [List.find?_eq_none]

theorem greatestBelow?_eq_some_iff {p : Nat → Bool} {n i : Nat} :
    greatestBelow? p n = some i ↔ i < n ∧ p i = true ∧ ∀ j < n, i < j → p j = false := by
  induction n with
  | zero => simp [greatestBelow?]
  | succ n ih =>
    unfold greatestBelow?
    by_cases hn : p n = true
    · rw [if_pos hn]
      constructor
      · intro h
        obtain rfl : n = i := by simpa using h
        exact ⟨by omega, hn, fun j hj hij => by omega⟩
      · rintro ⟨hi, -, hj⟩
        rcases Nat.lt_or_ge i n with h | h
        · simp [hj n (by omega) h] at hn
        · rw [show n = i by omega]
    · rw [if_neg hn, ih]
      constructor
      · rintro ⟨hi, hp, hj⟩
        refine ⟨by omega, hp, ?_⟩
        intro j hjn hij
        rcases Nat.lt_or_ge j n with h | h
        · exact hj j h hij
        · rw [show j = n by omega]; simpa using hn
      · rintro ⟨hi, hp, hj⟩
        have : i ≠ n := fun h => hn (h ▸ hp)
        exact ⟨by omega, hp, fun j hjn hij => hj j (by omega) hij⟩

theorem greatestBelow?_eq_none_iff {p : Nat → Bool} {n : Nat} :
    greatestBelow? p n = none ↔ ∀ i < n, p i = false := by
  induction n with
  | zero => simp [greatestBelow?]
  | succ n ih =>
    unfold greatestBelow?
    by_cases hn : p n = true
    · simp only [if_pos hn, reduceCtorEq, false_iff]
      intro h
      simp [h n (by omega)] at hn
    · rw [if_neg hn, ih]
      constructor
      · intro h i hi
        rcases Nat.lt_or_ge i n with h' | h'
        · exact h i h'
        · rw [show i = n by omega]; simpa using hn
      · intro h i hi
        exact h i (by omega)

/-- The least member depends on the set only. -/
theorem leastBelow?_congr {p q : Nat → Bool} {n m : Nat}
    (h : ∀ i, i < n ∧ p i = true ↔ i < m ∧ q i = true) : leastBelow? p n = leastBelow? q m := by
  have hle : ∀ {p q : Nat → Bool} {n m i : Nat}, (∀ i, i < n ∧ p i = true ↔ i < m ∧ q i = true) →
      leastBelow? p n = some i → leastBelow? q m = some i := by
    intro p q n m i h hi
    obtain ⟨hlt, hp, hleast⟩ := leastBelow?_eq_some_iff.1 hi
    obtain ⟨hlt', hq⟩ := (h i).1 ⟨hlt, hp⟩
    refine leastBelow?_eq_some_iff.2 ⟨hlt', hq, fun j hj => Bool.eq_false_iff.2 fun hqj => ?_⟩
    have hpj := ((h j).2 ⟨Nat.lt_trans hj hlt', hqj⟩).2
    rw [hleast j hj] at hpj
    cases hpj
  apply Option.ext
  intro i
  exact ⟨hle h, hle fun i => (h i).symm⟩

/-- The greatest member depends on the set only. -/
theorem greatestBelow?_congr {p q : Nat → Bool} {n m : Nat}
    (h : ∀ i, i < n ∧ p i = true ↔ i < m ∧ q i = true) :
    greatestBelow? p n = greatestBelow? q m := by
  have hle : ∀ {p q : Nat → Bool} {n m i : Nat}, (∀ i, i < n ∧ p i = true ↔ i < m ∧ q i = true) →
      greatestBelow? p n = some i → greatestBelow? q m = some i := by
    intro p q n m i h hi
    obtain ⟨hlt, hp, hgreatest⟩ := greatestBelow?_eq_some_iff.1 hi
    obtain ⟨hlt', hq⟩ := (h i).1 ⟨hlt, hp⟩
    refine greatestBelow?_eq_some_iff.2
      ⟨hlt', hq, fun j hj hij => Bool.eq_false_iff.2 fun hqj => ?_⟩
    obtain ⟨hjn, hpj⟩ := (h j).2 ⟨hj, hqj⟩
    rw [hgreatest j hjn hij] at hpj
    cases hpj
  apply Option.ext
  intro i
  exact ⟨hle h, hle fun i => (h i).symm⟩

end Clmm
