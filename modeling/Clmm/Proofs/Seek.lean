import Clmm.Proofs.ArrayIndex
import Clmm.Proofs.TickTable

/-!
# Clmm.Proofs.Seek

**A walk finds the next tick in use.** `seek` looks through the array the walk is in and then through
the following supplied arrays, as the bitmap tells. What it finds is, of all ticks in use whose arrays
the bitmap shows, the first one that the walk meets; and if it finds none, the walk meets none
(`seek_spec`).

What makes this work is kept by the cursor (`Ready`): its array is marked, all arrays before it in the
list lie behind it, and whatever the walk still has to meet lies in its array or beyond.
-/

namespace Clmm

open TickTable

namespace Swap

/-- Tick `t` is in use and the bitmap shows its array. -/
def Course.Shows (c : Course) (arrays : List TickArray) (t : Int) : Prop :=
  ∃ a ∈ arrays, a.Uses t ∧ c.view.Marks a.start

/-- The walk looks at arrays of a laid out list, with one spacing. -/
structure Course.Surveys (c : Course) (arrays supplied : List TickArray) : Prop where
  laid : Laid arrays c.spacing
  own : ∀ a ∈ supplied, a ∈ arrays
  spacing : c.view.spacing = c.spacing

/-- What a walk at tick `t` relies on at a place of the supplied list. -/
structure Cursor.Ready (k : Cursor) (c : Course) (arrays supplied : List TickArray) (t : Int) :
    Prop where
  place : supplied.drop k.index = k.array :: k.rest
  marked : c.view.Marks k.array.start
  behind : ∀ s ∈ (supplied.map (·.start)).take k.index, c.direction.Beyond s k.array.start
  ahead : ∀ t', c.Shows arrays t' → c.direction.Ahead t t' →
    TickArray.floorStart t' c.spacing = k.array.start ∨
      c.direction.Beyond k.array.start (TickArray.floorStart t' c.spacing)

variable {c : Course} {arrays supplied : List TickArray} {t : Int}

theorem beyond_of_floorStart {d : Direction} {s t : Int} {spacing : Nat} (h : 0 < spacing)
    (hst : d.Beyond (TickArray.floorStart s spacing) (TickArray.floorStart t spacing)) :
    d.Beyond s t := by
  cases d with
  | down =>
      change TickArray.floorStart t spacing < TickArray.floorStart s spacing at hst
      by_contra hle
      exact absurd (TickArray.floorStart_mono (Int.not_lt.1 hle) h) (Int.not_le.2 hst)
  | up =>
      change TickArray.floorStart s spacing < TickArray.floorStart t spacing at hst
      by_contra hle
      exact absurd (TickArray.floorStart_mono (Int.not_lt.1 hle) h) (Int.not_le.2 hst)

/-- A tick ahead lies in the array around the walk's tick or beyond it. -/
theorem floorStart_of_ahead {d : Direction} {s t : Int} {spacing : Nat} (h : 0 < spacing)
    (hahead : d.Ahead s t) : TickArray.floorStart t spacing = TickArray.floorStart s spacing ∨
      d.Beyond (TickArray.floorStart s spacing) (TickArray.floorStart t spacing) := by
  cases d with
  | down =>
      have := TickArray.floorStart_mono (s := t) (t := s) hahead h
      change _ = _ ∨ TickArray.floorStart t spacing < TickArray.floorStart s spacing
      omega
  | up =>
      have := TickArray.floorStart_mono (Int.le_of_lt hahead) h
      change _ = _ ∨ TickArray.floorStart s spacing < TickArray.floorStart t spacing
      omega

namespace Cursor.Ready

variable {k : Cursor}

theorem mem (hk : k.Ready c arrays supplied t) : k.array ∈ supplied :=
  List.mem_of_mem_drop (hk.place ▸ List.mem_cons_self)

/-- The array is the first of the supplied ones with its start. -/
theorem first (hk : k.Ready c arrays supplied t) :
    FirstAt (supplied.map (·.start)) k.index k.array.start := by
  constructor
  · have hdrop : (supplied.drop k.index)[0]? = some k.array := by rw [hk.place]; rfl
    rw [List.getElem?_drop, Nat.add_zero] at hdrop
    rw [List.getElem?_map, hdrop]
    rfl
  · intro hmem
    exact Direction.not_beyond_self (hk.behind _ hmem)

/-- A walk that has gone on still finds what it relies on. -/
theorem mono (hk : k.Ready c arrays supplied t) {u : Int}
    (h : ∀ t', c.Shows arrays t' → c.direction.Ahead u t' → c.direction.Ahead t t') :
    k.Ready c arrays supplied u :=
  ⟨hk.place, hk.marked, hk.behind, fun t' ht' hu => hk.ahead t' ht' (h t' ht' hu)⟩

/-- The next tick in use of the array is the next one of all. -/
theorem nearest (hk : k.Ready c arrays supplied t) (hc : c.Surveys arrays supplied) {s : Int}
    (h : c.direction.Nearest k.array.Uses t s) : c.direction.Nearest (c.Shows arrays) t s := by
  have hmem := hc.own _ hk.mem
  have haligned := hc.laid.aligned _ hmem
  refine ⟨⟨k.array, hmem, h.mem, hk.marked⟩, h.ahead, ?_⟩
  intro s' hs' hahead
  rcases hk.ahead s' hs' hahead with hsame | hbeyond
  · obtain ⟨a, ha, huses, -⟩ := hs'
    rw [(hc.laid.aligned a ha).floorStart_of_uses huses] at hsame
    obtain rfl := hc.laid.eq_of_start_eq ha hmem hsame
    exact h.first s' huses hahead
  · right
    rw [← haligned.floorStart_of_uses h.mem] at hbeyond
    exact beyond_of_floorStart haligned.spacing_pos hbeyond

/-- If the array has nothing more ahead, all there is lies beyond it. -/
theorem beyond (hk : k.Ready c arrays supplied t) (hc : c.Surveys arrays supplied)
    (h : ∀ s, k.array.Uses s → ¬ c.direction.Ahead t s) {s : Int} (hs : c.Shows arrays s)
    (hahead : c.direction.Ahead t s) :
    c.direction.Beyond k.array.start (TickArray.floorStart s c.spacing) := by
  have hmem := hc.own _ hk.mem
  rcases hk.ahead s hs hahead with hsame | hbeyond
  · obtain ⟨a, ha, huses, -⟩ := hs
    rw [(hc.laid.aligned a ha).floorStart_of_uses huses] at hsame
    obtain rfl := hc.laid.eq_of_start_eq ha hmem hsame
    exact absurd hahead (h s huses)
  · exact hbeyond

/-- If neither the array nor the bitmap has anything more, nothing is ahead. -/
theorem nothing (hk : k.Ready c arrays supplied t) (hc : c.Surveys arrays supplied)
    (h : ∀ s, k.array.Uses s → ¬ c.direction.Ahead t s)
    (hview : c.view.nextUsed? k.array.start c.direction = .ok none) {s : Int}
    (hs : c.Shows arrays s) : ¬ c.direction.Ahead t s := by
  intro hahead
  have hbeyond := hk.beyond hc h hs hahead
  obtain ⟨b, hb, huses, hmarked⟩ := hs
  rw [(hc.laid.aligned b hb).floorStart_of_uses huses] at hbeyond
  exact BitmapView.nextUsed?_eq_none hk.marked.sees hview hmarked hbeyond

/-- The cursor moves on to the next marked array. -/
theorem next (hk : k.Ready c arrays supplied t) (hc : c.Surveys arrays supplied)
    (h : ∀ s, k.array.Uses s → ¬ c.direction.Ahead t s) {b : TickArray} {rest : List TickArray}
    (hrest : k.rest = b :: rest) (hnext : c.view.nextUsed? k.array.start c.direction =
      .ok (some b.start)) :
    (⟨k.index + 1, b, rest⟩ : Cursor).Ready c arrays supplied t := by
  obtain ⟨hmarks, hbeyond, hfirst⟩ := BitmapView.nextUsed?_eq_some hnext
  refine ⟨?_, hmarks, ?_, fun s hs hahead => ?_⟩
  · rw [← List.tail_drop, hk.place]
    exact hrest
  · intro s hs
    obtain ⟨hat, -⟩ := hk.first
    rw [List.take_add_one, hat] at hs
    rcases List.mem_append.1 hs with hs | hs
    · exact (hk.behind s hs).trans hbeyond
    · -- the array that is left is behind as well
      obtain rfl : s = k.array.start := by simpa using hs
      exact hbeyond
  · -- what lies beyond the old array lies in the next marked one or beyond that
    have hall := hk.beyond hc h hs hahead
    obtain ⟨a, ha, huses, hmarked⟩ := hs
    have hfloor := (hc.laid.aligned a ha).floorStart_of_uses huses
    rw [hfloor] at hall ⊢
    exact hfirst a.start hmarked hall

end Cursor.Ready

/-- A search ends in its array, or for good, or goes on in the next array. -/
theorem seek_cases {index : Nat} {a : TickArray} {rest : List TickArray}
    {found : Option (Cursor × Nat)} (h : seek c t index a rest = .ok found) :
    (∃ offset, a.nextUsed? t c.spacing c.direction = .ok (some offset) ∧
      found = some (⟨index, a, rest⟩, offset)) ∨
    a.nextUsed? t c.spacing c.direction = .ok none ∧
      (c.view.nextUsed? a.start c.direction = .ok none ∧ found = none ∨
      ∃ b rest', rest = b :: rest' ∧
        c.view.nextUsed? a.start c.direction = .ok (some b.start) ∧
        seek c t (index + 1) b rest' = .ok found) := by
  unfold seek at h
  rw [Outcome.bind_eq_ok] at h
  obtain ⟨inArray, hin, h⟩ := h
  cases inArray with
  | some offset => exact Or.inl ⟨offset, hin, (Except.ok.inj h).symm⟩
  | none =>
      refine Or.inr ⟨hin, ?_⟩
      dsimp only at h
      rw [Outcome.bind_eq_ok] at h
      obtain ⟨inView, hview, h⟩ := h
      cases inView with
      | none => exact Or.inl ⟨hview, (Except.ok.inj h).symm⟩
      | some start =>
          cases rest with
          | nil => cases h
          | cons b rest' =>
              dsimp only at h
              rw [Outcome.bind_eq_ok] at h
              obtain ⟨_, hstart, h⟩ := h
              rw [require_eq_ok] at hstart
              subst hstart
              exact Or.inr ⟨b, rest', rfl, hview, h⟩

/-- The place that a search ends at is one that its array's own search finds. -/
theorem nextUsed?_of_seek {index : Nat} {a : TickArray} {rest : List TickArray} {k : Cursor}
    {offset : Nat} (h : seek c t index a rest = .ok (some (k, offset))) :
    k.array.nextUsed? t c.spacing c.direction = .ok (some offset) := by
  induction rest generalizing index a with
  | nil =>
      rcases seek_cases h with ⟨_, hin, heq⟩ | ⟨-, ⟨-, heq⟩ | ⟨_, _, hrest, -⟩⟩
      · obtain ⟨rfl, rfl⟩ := Prod.mk.inj (Option.some.inj heq)
        exact hin
      · cases heq
      · cases hrest
  | cons b rest ih =>
      rcases seek_cases h with ⟨_, hin, heq⟩ | ⟨-, ⟨-, heq⟩ | ⟨b', rest', hrest, -, hseek⟩⟩
      · obtain ⟨rfl, rfl⟩ := Prod.mk.inj (Option.some.inj heq)
        exact hin
      · cases heq
      · obtain ⟨rfl, rfl⟩ := List.cons.inj hrest
        exact ih hseek

/-- What a search from tick `t` is to find: a place with the nearest tick, or nothing if nothing lies
ahead. -/
def Finds (c : Course) (arrays supplied : List TickArray) (t : Int) :
    Option (Cursor × Nat) → Prop
  | some (k, offset) => k.Ready c arrays supplied t ∧ ∃ hlt : offset < arraySize,
      c.direction.Nearest (c.Shows arrays) t k.array.ticks[offset].index
  | none => ∀ s, c.Shows arrays s → ¬ c.direction.Ahead t s

/-- One array of a search: it settles the search, or the cursor moves on. -/
theorem seek_step (hc : c.Surveys arrays supplied) {index : Nat} {a : TickArray}
    {rest : List TickArray} (hk : (⟨index, a, rest⟩ : Cursor).Ready c arrays supplied t)
    {found : Option (Cursor × Nat)} (h : seek c t index a rest = .ok found) :
    Finds c arrays supplied t found ∨ ∃ b rest', rest = b :: rest' ∧
      (⟨index + 1, b, rest'⟩ : Cursor).Ready c arrays supplied t ∧
      seek c t (index + 1) b rest' = .ok found := by
  have haligned := hc.laid.aligned a (hc.own _ hk.mem)
  rcases seek_cases h with ⟨offset, hin, rfl⟩ | ⟨hin, hview⟩
  · obtain ⟨hlt, hnearest⟩ := TickArray.nextUsed?_eq_some haligned hin
    exact Or.inl ⟨hk, hlt, hk.nearest hc hnearest⟩
  have hnone : ∀ s, a.Uses s → ¬ c.direction.Ahead t s :=
    fun s hs => TickArray.nextUsed?_eq_none haligned hin hs
  rcases hview with ⟨hview, rfl⟩ | ⟨b, rest', hrest, hview, hseek⟩
  · exact Or.inl fun s hs => hk.nothing hc hnone hview hs
  · exact Or.inr ⟨b, rest', hrest, hk.next hc hnone hrest hview, hseek⟩

/-- **What `seek` finds is the next tick in use that the bitmap shows.** -/
theorem seek_spec (hc : c.Surveys arrays supplied) {index : Nat} {a : TickArray}
    {rest : List TickArray} (hk : (⟨index, a, rest⟩ : Cursor).Ready c arrays supplied t)
    {found : Option (Cursor × Nat)} (h : seek c t index a rest = .ok found) :
    Finds c arrays supplied t found := by
  -- the recursion takes the supplied arrays one by one
  induction rest generalizing index a with
  | nil =>
      rcases seek_step hc hk h with hfinds | ⟨b, rest', hrest, -, -⟩
      · exact hfinds
      · cases hrest
  | cons b rest ih =>
      rcases seek_step hc hk h with hfinds | ⟨b', rest', hrest, hready, hseek⟩
      · exact hfinds
      · obtain ⟨rfl, rfl⟩ := List.cons.inj hrest
        exact ih hready hseek

/-- The place of a walk: at a cursor, or past everything the bitmap shows. -/
def ReadyAt (c : Course) (arrays supplied : List TickArray) (t : Int) (k : Option Cursor) : Prop :=
  match k with
  | some k => k.Ready c arrays supplied t
  | none => ∀ s, c.Shows arrays s → ¬ c.direction.Ahead t s

theorem ReadyAt.mono {k : Option Cursor} (hk : ReadyAt c arrays supplied t k) {u : Int}
    (h : ∀ t', c.Shows arrays t' → c.direction.Ahead u t' → c.direction.Ahead t t') :
    ReadyAt c arrays supplied u k := by
  cases k with
  | some k => exact Cursor.Ready.mono hk h
  | none => exact fun s hs hu => hk s hs (h s hs hu)

/-- **A walk begins where it has to.** -/
theorem firstCursor_spec (hc : c.Surveys arrays supplied) {k : Option Cursor}
    (h : firstCursor c supplied t = .ok k) :
    ReadyAt c arrays supplied t k ∧ c.view.Sees (TickArray.floorStart t c.spacing) := by
  simp only [firstCursor] at h
  rw [Outcome.bind_eq_ok] at h
  obtain ⟨first, hfirst, h⟩ := h
  have hplace : ∀ s, c.Shows arrays s → c.direction.Ahead t s →
      c.view.Marks (TickArray.floorStart s c.spacing) ∧
        (TickArray.floorStart s c.spacing = TickArray.floorStart t c.spacing ∨
          c.direction.Beyond (TickArray.floorStart t c.spacing)
            (TickArray.floorStart s c.spacing)) := by
    intro s hs hahead
    obtain ⟨a, ha, huses, hmarked⟩ := hs
    have haligned := hc.laid.aligned a ha
    refine ⟨?_, floorStart_of_ahead haligned.spacing_pos hahead⟩
    rw [haligned.floorStart_of_uses huses]
    exact hmarked
  cases first with
  | none =>
      obtain rfl := Except.ok.inj h
      obtain ⟨hsees, hnone⟩ := BitmapView.firstUsed?_eq_none hfirst
      rw [hc.spacing] at hsees hnone
      refine ⟨?_, hsees⟩
      intro s hs hahead
      obtain ⟨hmarked, hwhere⟩ := hplace s hs hahead
      obtain ⟨hne, hnot⟩ := hnone _ hmarked
      exact hwhere.elim hne hnot
  | some start =>
      obtain ⟨hmarked, hsees, -, hall⟩ := BitmapView.firstUsed?_eq_some hfirst
      rw [hc.spacing] at hsees hall
      cases supplied with
      | nil => cases h
      | cons a rest =>
          dsimp only at h
          rw [Outcome.bind_eq_ok] at h
          obtain ⟨_, hstart, h⟩ := h
          rw [require_eq_ok] at hstart
          subst hstart
          obtain rfl := Except.ok.inj h
          refine ⟨⟨rfl, hmarked, fun s hs => absurd hs (by simp), ?_⟩, hsees⟩
          intro s hs hahead
          obtain ⟨hmarks, hwhere⟩ := hplace s hs hahead
          exact hall _ hmarks hwhere

end Swap

end Clmm
