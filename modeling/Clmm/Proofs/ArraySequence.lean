import Clmm.Proofs.FurtherArrays
import Clmm.Proofs.LoopBounds
import Clmm.Proofs.StartSet

/-!
# Clmm.Proofs.ArraySequence

**Which arrays a swap has to be given** (`array_sequence_suffices`). The supplied arrays are taken one by
one, by their places, while the bitmap is asked anew for each next start. Given the arrays in use from the
current tick on, in the order of the swap (`Market.lineup`), the two stay in step, so that no swap fails
for want of an array. What follows them in the list changes nothing (`swap_append`).

What a place in the list keeps carries this (`Supplies`): the rest of the list begins with the arrays that
the searches from there ask for, one after the other.
-/

namespace Clmm

open Outcome

/-- The list begins with the arrays that searches from `start` on ask for, one after the other. -/
def Supplies (v : BitmapView) (d : Direction) : Int → List TickArray → Prop
  | start, [] => ∀ next, v.nextUsed? start d ≠ .ok (some next)
  | start, b :: rest => ∀ next, v.nextUsed? start d = .ok (some next) →
      b.start = next ∧ Supplies v d next rest

namespace Swap

variable {c : Course} {w : Walk} {tick : Int} {index n : Nat} {a : TickArray} {rest : List TickArray}
  {found : Option (Cursor × Nat)}

/-! ### No array is missing -/

/-- What is supplied after the array of a walk is what its searches ask for. -/
def Supplied (c : Course) (cursor : Option Cursor) : Prop :=
  ∀ k ∈ cursor, Supplies c.view c.direction k.array.start k.rest

/-- A search that asks for what is supplied misses nothing. -/
theorem sated_seek (h : Supplies c.view c.direction a.start rest) :
    Sated (seek c tick index a rest) := by
  induction rest generalizing index a with
  | nil =>
      unfold seek
      refine TickArray.sated_nextUsed?.bind fun inside => ?_
      cases inside with
      | some offset => exact sated_pure _
      | none =>
          refine BitmapView.sated_nextUsed?.bind_of_ok fun next hnext => ?_
          cases next with
          | none => exact sated_pure _
          | some start => exact absurd hnext (h start)
  | cons b rest ih =>
      unfold seek
      refine TickArray.sated_nextUsed?.bind fun inside => ?_
      cases inside with
      | some offset => exact sated_pure _
      | none =>
          refine BitmapView.sated_nextUsed?.bind_of_ok fun next hnext => ?_
          cases next with
          | none => exact sated_pure _
          | some start =>
              obtain ⟨rfl, hrest⟩ := h start hnext
              dsimp only
              rw [require, if_pos rfl]
              exact ih hrest

/-- A search leaves behind its place what the searches from there ask for. -/
theorem Sought.supplied (h : Sought c tick index a rest found)
    (hsupplies : Supplies c.view c.direction a.start rest) : Supplied c (found.map (·.1)) := by
  induction h with
  | inside =>
      intro k hk
      obtain rfl := Option.mem_some_iff.1 hk
      exact hsupplies
  | nothing =>
      intro k hk
      cases hk
  | next _ hview _ ih => exact ih (hsupplies _ hview).2

theorem sated_target (h : Supplied c w.cursor) : Sated (target c w) := by
  simp only [target]
  cases hcursor : w.cursor with
  | none => exact sated_pure _
  | some k => exact sated_seek (h k hcursor)

theorem supplied_of_target (h : Supplied c w.cursor) (htarget : target c w = .ok found) :
    Supplied c (found.map (·.1)) := by
  simp only [target] at htarget
  cases hcursor : w.cursor with
  | none =>
      rw [hcursor] at htarget
      obtain rfl := Except.ok.inj htarget
      intro k hk
      cases hk
  | some k =>
      rw [hcursor] at htarget
      exact (sought_of_seek htarget).supplied (h k hcursor)

/-- A walk that is supplied misses no array. -/
theorem unfinished_of_walk (h : Supplied c w.cursor) {e : Failure} (hwant : e.isWant = true)
    (hwalk : walk c n w = .error e) : e = .unfinished := by
  induction n generalizing w with
  | zero =>
      simp only [walk] at hwalk
      by_cases hdone : isDone c w
      · rw [if_pos hdone] at hwalk
        cases hwalk
      · rw [if_neg hdone] at hwalk
        exact (Except.error.inj hwalk).symm
  | succ n ih =>
      cases hdone : isDone c w with
      | true =>
          rw [walk_of_isDone hdone] at hwalk
          cases hwalk
      | false =>
          rw [walk_succ_of_goes hdone, bind_eq_error] at hwalk
          rcases hwalk with hstep | ⟨w', hstep, hwalk⟩
          · have hplain := sated_target h e (target_eq_error_of_step hwant hstep)
            rw [hplain] at hwant
            cases hwant
          · obtain ⟨found, htarget, hcursor⟩ := cursor_of_step hstep
            exact ih (hcursor ▸ supplied_of_target h htarget) hwalk

theorem sated_walk (h : Supplied c w.cursor) : Sated (walk c stepLimit w) := by
  intro e he
  by_contra hwant
  obtain rfl := unfinished_of_walk h (Bool.not_eq_false _ ▸ hwant) he
  exact halts_walk he

end Swap

/-! ### The arrays in use, in the order of a swap -/

/-- Of the starts beyond `s` a search finds the first one of those that are lined up there. -/
theorem eq_head_of_neighbour {S : Set Int} {d : Direction} {s : Int} {queue : List TickArray}
    {next : Option Int} (hmem : ∀ x, x ∈ S ∧ d.Beyond s x ↔ ∃ a ∈ queue, a.start = x)
    (hordered : queue.Pairwise fun a b => d.Beyond a.start b.start) (h : Neighbour S s d next) :
    next = queue.head?.map (·.start) := by
  cases queue with
  | nil =>
      cases next with
      | none => rfl
      | some n =>
          have hn : n ∈ S ∧ d.Beyond s n := by
            cases d with
            | down => exact h.1
            | up => exact h.1
          obtain ⟨_, hnone, -⟩ := (hmem n).1 hn
          exact absurd hnone List.not_mem_nil
  | cons a rest =>
      have ha := (hmem a.start).2 ⟨a, List.mem_cons_self, rfl⟩
      cases next with
      | none =>
          cases d with
          | down => exact absurd ha.2 (h a.start ha.1)
          | up => exact absurd ha.2 (h a.start ha.1)
      | some n =>
          -- what is found comes no later than the first in line, and nothing comes before that one
          have hfirst : ∀ x, x ∈ S ∧ d.Beyond s x → x = a.start ∨ d.Beyond a.start x := by
            intro x hx
            obtain ⟨b, hb, rfl⟩ := (hmem x).1 hx
            rcases List.mem_cons.1 hb with rfl | hb
            · exact Or.inl rfl
            · exact Or.inr (List.rel_of_pairwise_cons hordered hb)
          refine congrArg some ?_
          cases d with
          | down =>
              obtain ⟨hn, hnearest⟩ := h
              have hle : a.start ≤ n := hnearest ha
              rcases hfirst n hn with heq | hfar
              · exact heq
              · exact absurd hfar (Int.not_lt.2 hle)
          | up =>
              obtain ⟨hn, hnearest⟩ := h
              have hle : n ≤ a.start := hnearest ha
              rcases hfirst n hn with heq | hfar
              · exact heq
              · exact absurd hfar (Int.not_lt.2 hle)

namespace Market

variable {m : Market} {d : Direction} {a : TickArray} {extension : Option BitmapExtension}

/-- The start of the array around the current tick. -/
def here (m : Market) : Int := TickArray.floorStart m.pool.tick m.pool.spacing

/-- The arrays in use from that of the current tick on, in the order of a swap. -/
def lineup (m : Market) : Direction → List TickArray
  | .down => (m.arrays.filter fun a => a.count ≠ 0 ∧ a.start ≤ m.here).reverse
  | .up => m.arrays.filter fun a => a.count ≠ 0 ∧ m.here ≤ a.start

/-- The starts of the arrays in use. -/
def usedStarts (m : Market) : Set Int := {s | ∃ a ∈ m.arrays, a.start = s ∧ a.count ≠ 0}

theorem mem_lineup : a ∈ m.lineup d ↔
    a ∈ m.arrays ∧ a.count ≠ 0 ∧ (a.start = m.here ∨ d.Beyond m.here a.start) := by
  cases d with
  | down =>
      simp only [lineup, List.mem_reverse, List.mem_filter, decide_eq_true_eq, Direction.Beyond]
      exact and_congr_right' (and_congr_right' Int.le_iff_eq_or_lt)
  | up =>
      simp only [lineup, List.mem_filter, decide_eq_true_eq, Direction.Beyond]
      exact and_congr_right' (and_congr_right' (Int.le_iff_eq_or_lt.trans (or_congr_left eq_comm)))

theorem Orderly.lineup_ordered (hm : m.Orderly) (d : Direction) :
    (m.lineup d).Pairwise fun a b => d.Beyond a.start b.start := by
  cases d with
  | down => exact List.pairwise_reverse.2 (hm.laid.sorted.filter _)
  | up => exact hm.laid.sorted.filter _

theorem Orderly.isValidStart_of_mem (hm : m.Orderly) {s : Int} (hs : s ∈ m.usedStarts) :
    TickArray.isValidStart s m.pool.spacing = true := by
  obtain ⟨a, ha, rfl, -⟩ := hs
  exact (hm.laid.aligned a ha).valid

theorem Orderly.isValidStart_here (hm : m.Orderly) :
    TickArray.isValidStart m.here m.pool.spacing = true :=
  TickArray.isValidStart_iff.2 ⟨hm.spacing_pos, TickArray.floorStart_emod _ _,
    TickArray.floorStart_mono hm.price.min_le hm.spacing_pos,
    TickArray.floorStart_mono hm.price.le_max hm.spacing_pos⟩

/-- The whole bitmap is seen: with the extension, or because there is nothing in it. -/
def Discloses (m : Market) (extension : Option BitmapExtension) : Prop :=
  extension = some m.extension ∨ extension = none ∧ m.SpansAllTicks

/-- Where the native span reaches over all ticks, every valid start lies in it. -/
theorem SpansAllTicks.isNativeStart (h : m.SpansAllTicks) (hpos : 0 < m.pool.spacing) {s : Int}
    (hs : TickArray.isValidStart s m.pool.spacing = true) :
    Bitmap.IsNativeStart m.pool.spacing s := by
  obtain ⟨-, -, hlow, hhigh⟩ := TickArray.isValidStart_iff.1 hs
  have hrange : minTick ≤ maxTick := by decide
  exact ⟨((Bitmap.floorStart_native hpos).2 ⟨h.1, hrange.trans_lt h.2⟩).1.trans hlow,
    hhigh.trans_lt ((Bitmap.floorStart_native hpos).2 ⟨h.1.trans hrange, h.2⟩).2⟩

/-- A swap that sees the whole bitmap finds the arrays in use. -/
theorem Orderly.answers (hm : m.Orderly) (hfits : m.pool.spacing < 2 ^ 16)
    (h : m.Discloses extension) : (m.pool.bitmapView extension).Answers m.usedStarts
      {s | TickArray.isValidStart s m.pool.spacing = true} := by
  refine BitmapView.answers_of_marks hfits (fun s => ?_) (fun s => hm.isValidStart_of_mem)
    fun s hs => ⟨hs, ?_⟩
  · rw [show s ∈ m.usedStarts ↔ m.bitmap.Marks s from (hm.marked s).symm]
    rcases h with rfl | ⟨rfl, hspans⟩
    · exact Iff.rfl
    · refine (BitmapView.marks_without_extension hm.spacing_pos).trans (and_iff_left_of_imp ?_)
      exact fun hmarks => hspans.isNativeStart hm.spacing_pos
        (hm.isValidStart_of_mem ((hm.marked s).1 hmarks))
  · rcases h with rfl | ⟨rfl, hspans⟩
    · exact Or.inl rfl
    · exact Or.inr (hspans.isNativeStart hm.spacing_pos hs)

/-- The first array in line is the one with which a swap begins. -/
theorem Orderly.firstUsed?_lineup (hm : m.Orderly) (hfits : m.pool.spacing < 2 ^ 16)
    (h : m.Discloses extension) (d : Direction) :
    (m.pool.bitmapView extension).firstUsed? m.pool.tick d =
      .ok ((m.lineup d).head?.map (·.start)) := by
  obtain ⟨first, hfirst, hused, hunused⟩ :=
    (hm.answers hfits h).firstUsed m.pool.tick hm.isValidStart_here d
  rw [hfirst]
  refine congrArg Except.ok ?_
  have hordered := hm.lineup_ordered d
  by_cases hin : m.here ∈ m.usedStarts
  · -- the array around the tick is in use, and no other comes before it
    rw [hused hin]
    obtain ⟨a, ha, hstart, hcount⟩ := hin
    have hmem : a ∈ m.lineup d := mem_lineup.2 ⟨ha, hcount, Or.inl hstart⟩
    cases hline : m.lineup d with
    | nil =>
        rw [hline] at hmem
        exact absurd hmem List.not_mem_nil
    | cons b rest =>
        rw [hline] at hmem hordered
        refine congrArg some ?_
        change m.here = b.start
        rcases List.mem_cons.1 hmem with rfl | hlater
        · exact hstart.symm
        · have hbeyond := List.rel_of_pairwise_cons hordered hlater
          rw [hstart] at hbeyond
          obtain ⟨-, -, hfrom⟩ := mem_lineup.1 (hline ▸ List.mem_cons_self : b ∈ m.lineup d)
          rcases hfrom with heq | hfar
          · exact heq.symm
          · exact absurd (hfar.trans hbeyond) Direction.not_beyond_self
  · refine eq_head_of_neighbour (fun x => ?_) hordered (hunused hin)
    constructor
    · rintro ⟨⟨a, ha, rfl, hcount⟩, hfar⟩
      exact ⟨a, mem_lineup.2 ⟨ha, hcount, Or.inr hfar⟩, rfl⟩
    · rintro ⟨a, ha, rfl⟩
      obtain ⟨hmem, hcount, hfrom⟩ := mem_lineup.1 ha
      refine ⟨⟨a, hmem, rfl, hcount⟩, hfrom.resolve_left fun heq => hin ?_⟩
      exact ⟨a, hmem, heq, hcount⟩

/-- After every array in line, the next one is the one that a search finds. -/
theorem Orderly.nextUsed?_lineup (hm : m.Orderly) (hfits : m.pool.spacing < 2 ^ 16)
    (h : m.Discloses extension) {before after : List TickArray}
    (hline : m.lineup d = before ++ a :: after) :
    (m.pool.bitmapView extension).nextUsed? a.start d = .ok (after.head?.map (·.start)) := by
  have hmem : a ∈ m.lineup d := by
    rw [hline]
    exact List.mem_append_right _ List.mem_cons_self
  obtain ⟨ha, hcount, hfrom⟩ := mem_lineup.1 hmem
  obtain ⟨next, hnext, hneighbour⟩ := (hm.answers hfits h).nextUsed a.start
    (hm.isValidStart_of_mem ⟨a, ha, rfl, hcount⟩) d
  have hordered := hm.lineup_ordered d
  rw [hline, List.pairwise_append, List.pairwise_cons] at hordered
  obtain ⟨-, ⟨hafter, hrest⟩, hbefore⟩ := hordered
  rw [hnext]
  refine congrArg Except.ok (eq_head_of_neighbour (fun x => ?_) hrest hneighbour)
  constructor
  · rintro ⟨⟨b, hb, rfl, hused⟩, hfar⟩
    have hfar' : b.start = m.here ∨ d.Beyond m.here b.start := by
      rcases hfrom with heq | hbeyond
      · exact Or.inr (heq ▸ hfar)
      · exact Or.inr (hbeyond.trans hfar)
    have hinLine : b ∈ m.lineup d := mem_lineup.2 ⟨hb, hused, hfar'⟩
    rw [hline] at hinLine
    rcases List.mem_append.1 hinLine with hearlier | hlater
    · have hback := hbefore b hearlier a List.mem_cons_self
      exact absurd (hfar.trans hback) Direction.not_beyond_self
    · rcases List.mem_cons.1 hlater with rfl | hlater
      · exact absurd hfar Direction.not_beyond_self
      · exact ⟨b, hlater, rfl⟩
  · rintro ⟨b, hb, rfl⟩
    obtain ⟨hown, hused, -⟩ := mem_lineup.1 (hline ▸
      List.mem_append_right _ (List.mem_cons_of_mem _ hb) : b ∈ m.lineup d)
    exact ⟨⟨b, hown, rfl, hused⟩, hafter b hb⟩

/-- The arrays behind one in line are those that searches from it ask for. -/
theorem Orderly.supplies (hm : m.Orderly) (hfits : m.pool.spacing < 2 ^ 16)
    (h : m.Discloses extension) {before after : List TickArray}
    (hline : m.lineup d = before ++ a :: after) (more : List TickArray) :
    Supplies (m.pool.bitmapView extension) d a.start (after ++ more) := by
  induction after generalizing before a with
  | nil =>
      have hnone : ∀ next, (m.pool.bitmapView extension).nextUsed? a.start d ≠ .ok (some next) := by
        intro next hnext
        rw [hm.nextUsed?_lineup hfits h hline] at hnext
        cases hnext
      cases more with
      | nil => exact hnone
      | cons b more => exact fun next hnext => absurd hnext (hnone next)
  | cons b after ih =>
      intro next hnext
      rw [hm.nextUsed?_lineup hfits h hline] at hnext
      obtain rfl := Option.some.inj (Except.ok.inj hnext)
      have hrest : m.lineup d = (before ++ [a]) ++ b :: after := by
        rw [hline, List.append_assoc]
        rfl
      exact ⟨rfl, ih hrest⟩

end Market

namespace Swap

/-! ### The swap -/

section Whole

variable {m : Market} {config : FeeConfig} {pool : Pool} {extension : Option BitmapExtension}
  {r : SwapRequest} {time : Nat} {c : Course}

theorem sated_checkLimit {p : Nat} : Sated (checkLimit r p) := by
  simp only [checkLimit]
  cases r.direction with
  | down => exact sated_require rfl
  | up => exact sated_require rfl

theorem sated_settle {w : Walk} : Sated (settle r w) := by
  simp only [settle]
  refine (sated_subOrRefuse rfl).bind fun settled => ?_
  cases r.mode with
  | exactIn =>
      exact (sated_require rfl).bind fun _ => (sated_require rfl).bind fun _ => sated_pure _
  | exactOut =>
      exact (sated_require rfl).bind fun _ => (sated_require rfl).bind fun _ => sated_pure _

/-- Given the arrays in line, a walk begins at a place that is supplied. -/
theorem exists_firstCursor (hm : m.Orderly) (hfits : m.pool.spacing < 2 ^ 16)
    (h : m.Discloses extension) (hc : course config m.pool extension r = .ok c)
    (more : List TickArray) :
    ∃ cursor, firstCursor c (m.lineup r.direction ++ more) m.pool.tick = .ok cursor ∧
      Supplied c cursor := by
  have hfirst := hm.firstUsed?_lineup hfits h r.direction
  obtain ⟨edges, -, rfl⟩ := course_eq_ok hc
  cases hline : m.lineup r.direction with
  | nil =>
      rw [hline] at hfirst
      refine ⟨none, ?_, fun k hk => by cases hk⟩
      simp only [firstCursor]
      exact bind_eq_ok.2 ⟨none, hfirst, rfl⟩
  | cons a rest =>
      rw [hline] at hfirst
      refine ⟨some ⟨0, a, rest ++ more⟩, ?_, fun k hk => ?_⟩
      · simp only [firstCursor]
        refine bind_eq_ok.2 ⟨some a.start, hfirst, ?_⟩
        exact bind_eq_ok.2 ⟨(), require_eq_ok.2 rfl, rfl⟩
      · obtain rfl := Option.mem_some_iff.1 hk
        have hwhole : m.lineup r.direction = [] ++ a :: rest := hline
        exact hm.supplies hfits h hwhole more

/-- **Given the arrays in line, no swap fails for want of one.** -/
theorem sated_quote (hm : m.Orderly) (hfits : m.pool.spacing < 2 ^ 16) (h : m.Discloses extension)
    (more : List TickArray) :
    Sated (quote config ⟨m.pool, m.lineup r.direction ++ more⟩ extension r time) := by
  simp only [quote]
  refine (sated_require rfl).bind fun _ => (sated_require rfl).bind fun _ =>
    sated_checkLimit.bind fun _ => Sated.bind_of_ok
      (BitmapView.sated_visibleTicks.bind fun _ => sated_pure _) fun c hc => ?_
  obtain ⟨cursor, hcursor, hsupplied⟩ := exists_firstCursor hm hfits h hc more
  rw [hcursor, ok_bind]
  exact (sated_walk hsupplied).bind fun _ => sated_settle.bind fun _ => sated_pure _

theorem isWant_of_swap_error (hm : m.Orderly) (hfits : m.pool.spacing < 2 ^ 16)
    (h : m.Discloses extension) {more : List TickArray} {e : Failure} {b' : SwapBook}
    (hswap : Clmm.swap config extension r time ⟨m.pool, m.lineup r.direction ++ more⟩ = .error e b') :
    e.isWant = false := by
  simp only [Clmm.swap] at hswap
  rcases Update.bind_eq_error.1 hswap with hswap | ⟨_, _, hget, hswap⟩
  · exact absurd hswap Update.get_eq_error.1
  obtain ⟨rfl, rfl⟩ := Update.get_eq_ok.1 hget
  rcases Update.bind_eq_error.1 hswap with hswap | ⟨⟨w, result⟩, _, -, hswap⟩
  · exact sated_quote hm hfits h more e (Update.lift_eq_error.1 hswap).1
  rcases Update.bind_eq_error.1 hswap with hswap | ⟨_, _, -, hswap⟩
  · rw [(commit_eq_error.1 hswap).1]
    rfl
  · exact absurd hswap Update.pure_eq_error.1

end Whole

end Swap

namespace Market

/-- **The arrays in use, in order, suffice, and what follows them changes nothing.** In a market that a
run leads to let the bitmap be seen whole. Then the arrays in use from the current tick on are those that
the searches of a swap find, in that order; and a swap that is given them, whatever stands behind them,
neither misses an array nor runs out of them. Moreover, from any pool and arrays, if a swap succeeds with
some arrays, it does with any more behind them, with the same result, the same pool and the same arrays,
and it leaves the further ones as they were. -/
theorem array_sequence_suffices :
    (∀ {m : Market}, Attained m → ∀ (config : FeeConfig) (extension : Option BitmapExtension)
      (r : SwapRequest) (time : Nat) (more : List TickArray),
      extension = some m.extension ∨ extension = none ∧ m.SpansAllTicks →
      (m.pool.bitmapView extension).firstUsed? m.pool.tick r.direction =
          .ok ((m.lineup r.direction).head?.map (·.start)) ∧
        (∀ before a after, m.lineup r.direction = before ++ a :: after →
          (m.pool.bitmapView extension).nextUsed? a.start r.direction =
            .ok (after.head?.map (·.start))) ∧
        ∀ b', Clmm.swap config extension r time ⟨m.pool, m.lineup r.direction ++ more⟩ ≠
            .error (.refused .arrayNotLoaded) b' ∧
          Clmm.swap config extension r time ⟨m.pool, m.lineup r.direction ++ more⟩ ≠
            .error (.refused .outOfTickArrays) b') ∧
      ∀ (config : FeeConfig) (extension : Option BitmapExtension) (r : SwapRequest) (time : Nat)
        (pool pool' : Pool) (arrays arrays' more : List TickArray) (result : SwapResult),
        Clmm.swap config extension r time ⟨pool, arrays⟩ = .ok result ⟨pool', arrays'⟩ →
        Clmm.swap config extension r time ⟨pool, arrays ++ more⟩ =
          .ok result ⟨pool', arrays' ++ more⟩ := by
  refine ⟨fun {m} h config extension r time more hseen => ?_,
    fun config extension r time pool pool' arrays arrays' more result hswap =>
      Swap.swap_append hswap more⟩
  have hm := h.orderly
  have hfits : m.pool.spacing < 2 ^ 16 := Nat.lt_of_le_of_lt h.configured.spacing_le (by decide)
  refine ⟨hm.firstUsed?_lineup hfits hseen r.direction, fun before a after hline =>
    hm.nextUsed?_lineup hfits hseen hline, fun b' => ⟨fun hswap => ?_, fun hswap => ?_⟩⟩
  · exact Bool.noConfusion (Swap.isWant_of_swap_error hm hfits hseen hswap)
  · exact Bool.noConfusion (Swap.isWant_of_swap_error hm hfits hseen hswap)

/-- Downwards from tick 5 the arrays at 0 and at -600 stand in line, and a swap of 1000 needs both. A
blank array behind them is not looked at. -/
theorem array_sequence_suffices_openings : ∃ m total result b',
    sample 10 5 openings = .ok (m, total) ∧
    (m.lineup .down).map (·.start) = [0, -600] ∧
    m.bitmap.firstUsed? m.pool.tick .down = .ok ((m.lineup .down).head?.map (·.start)) ∧
    Clmm.swap m.config (some m.extension) ⟨1000, 0, 0, .exactIn, .down⟩ 0
      ⟨m.pool, m.lineup .down⟩ = .ok result b' ∧ b'.pool.tick < 0 ∧
    Clmm.swap m.config (some m.extension) ⟨1000, 0, 0, .exactIn, .down⟩ 0
      ⟨m.pool, m.lineup .down ++ [TickArray.zeroed]⟩ =
        .ok result ⟨b'.pool, b'.arrays ++ [TickArray.zeroed]⟩ := by
  obtain ⟨m, total, hsample, hrun⟩ := exists_of_sample (P := fun x =>
      decide ((x.1.lineup .down).map (·.start) = [0, -600]) &&
        succeedsWith (fun (_ : SwapResult) (b : SwapBook) => decide (b.pool.tick < 0))
          (Clmm.swap x.1.config (some x.1.extension) ⟨1000, 0, 0, .exactIn, .down⟩ 0
            ⟨x.1.pool, x.1.lineup .down⟩))
    (show (sample 10 5 openings).toOption.any _ = true by decide +kernel)
  obtain ⟨hline, hswaps⟩ := Bool.and_eq_true_iff.1 hrun
  obtain ⟨result, b', hswap, htick⟩ := exists_of_succeedsWith hswaps
  obtain ⟨hfirst, -, -⟩ := array_sequence_suffices.1 (reached_of_sample hsample).attained m.config
    (some m.extension) ⟨1000, 0, 0, .exactIn, .down⟩ 0 [] (Or.inl rfl)
  exact ⟨m, total, result, b', hsample, of_decide_eq_true hline, hfirst, hswap,
    of_decide_eq_true htick, array_sequence_suffices.2 _ _ _ _ _ _ _ _ _ _ hswap⟩

end Market

end Clmm
