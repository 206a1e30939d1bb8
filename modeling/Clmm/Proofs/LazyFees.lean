import Clmm.Proofs.Solvency

/-!
# Clmm.Proofs.LazyFees

**Settling fees lazily comes to the same as crediting them at once** (`lazy_fees_eq_eager`). A position is
told nothing of the fees it earns. What it has earned since its last settlement is read off the growth
counters of the pool and of its two boundary ticks, and this is exactly, modulo `2 ^ 128`, what all steps of
swaps since then would have credited to each unit of its liquidity, had they credited it themselves.

Design points:

* A step credits (`Credit`) the providers' share of its fee, in the input token, to the liquidity in
  range at its start.
* The `history` of a run is the list of its settlements and credits, the newest first (`Recorded`). Every
  market reached has one (`Reached.recorded`).
* The invariant (`Credited`) speaks of all positions with liquidity. A step of a swap adds a credit to both
  sides of it, a settlement makes both sides zero, and everything else leaves both alone (`Spares`).
-/

namespace Clmm

open TickTable

/-! ### Credits -/

/-- What one step of a swap credits to each unit of the liquidity in range. -/
structure Credit where
  /-- The token in which the fee was paid. -/
  token : Token
  /-- The tick of the walk before the step. -/
  tick : Int
  growth : Growth
deriving DecidableEq, Repr

namespace Position

/-- What credits come to for each unit of a position's liquidity: those in the given token whose tick the
range covers. -/
def credited (p : Position) (x : Token) (credits : List Credit) : Growth :=
  ((credits.filter fun k => decide (k.token = x ∧ p.Covers k.tick)).map (·.growth)).sum

variable (p : Position) (x : Token) (k : Credit) (ks ls : List Credit)

theorem credited_nil : p.credited x [] = 0 := rfl

theorem credited_cons : p.credited x (k :: ks) =
    (if k.token = x ∧ p.Covers k.tick then k.growth else 0) + p.credited x ks := by
  simp only [credited]
  by_cases h : k.token = x ∧ p.Covers k.tick
  · rw [if_pos h, List.filter_cons, if_pos (decide_eq_true h), List.map_cons, List.sum_cons]
  · rw [if_neg h, List.filter_cons, if_neg (mt of_decide_eq_true h), zero_add]

theorem credited_append : p.credited x (ks ++ ls) = p.credited x ks + p.credited x ls := by
  simp only [credited]
  rw [List.filter_append, List.map_append, List.sum_append]

theorem credited_reverse : p.credited x ks.reverse = p.credited x ks := by
  simp only [credited]
  rw [List.filter_reverse, List.map_reverse, List.sum_reverse]

end Position

namespace Swap

/-- What the step from `w` to `w'` credits: the growth that the providers' share of its fee is to the
liquidity at its start. -/
def creditOf (c : Course) (w w' : Walk) : Outcome Credit := do
  let split ← splitFee (w'.fee - w.fee) c.protocolRate c.fundRate
  return ⟨c.direction.input, w.tick, ← feeGrowth split.providers w.liquidity⟩

/-- What the steps of a walk credit, in order. -/
def credits (c : Course) : Nat → Walk → Outcome (List Credit)
  | 0, _ => .ok []
  | n + 1, w =>
    if isDone c w then .ok []
    else do
      let w' ← step c w
      let k ← creditOf c w w'
      return k :: (← credits c n w')

section Walks

variable {m : Market} {c : Course} {supplied : List TickArray} {w w' moved : Walk} {t : Int}
  {s : SwapStep} {split : FeeSplit} {growth : Growth} {found : Option (Cursor × Nat)}

/-- However a step ends, its fee is the one it booked. -/
theorem Ending.fee_eq (h : Ending c w t s moved found w') : w'.fee = moved.fee := by
  cases h with
  | crosses _ hcross =>
      obtain ⟨_, _, -, rfl⟩ := crossTick_eq_ok hcross
      rfl
  | reachesEdge => rfl
  | stops => rfl
  | stays => rfl

theorem Leg.creditOf_eq (hl : Leg c w found t s split growth moved) (h : w'.fee = moved.fee) :
    creditOf c w w' = .ok ⟨c.direction.input, w.tick, growth⟩ := by
  have hfee : w'.fee = w.fee + s.fee := by rw [h, hl.settled.rest]
  have hgrowth : feeGrowth split.providers w.liquidity = .ok growth := hl.settled.growth_eq
  simp only [creditOf]
  rw [hfee, Nat.add_sub_cancel_left, hl.settled.split_eq]
  simp only [Outcome.ok_bind, hgrowth]
  rfl

/-- The move of a step adds its credit to what is unsettled of each position. -/
theorem Leg.unsettled_eq (hl : Leg c w found t s split growth moved) (hs : Setting m c supplied)
    {p : Position} (hp : p ∈ m.positions) (hne : p.liquidity ≠ 0) (x : Token) :
    (moved.scene m c).unsettled p x = (w.scene m c).unsettled p x +
      p.credited x [⟨c.direction.input, w.tick, growth⟩] := by
  rw [hl.scene_moved, Position.credited_cons, Position.credited_nil, add_zero]
  by_cases hx : c.direction.input = x
  · subst hx
    rw [Scene.unsettled_moved _ (hs.wellFormed.ranged p hp hne).2.1]
    simp only [true_and]
    rfl
  · -- the counter of the other token stands still
    have hother : c.direction.input = x.other := by
      cases hd : c.direction.input <;> cases x <;> simp_all [Token.other]
    rw [if_neg fun h => hx h.1, hother, Scene.unsettled_moved_other, add_zero]

/-- What is unsettled of all positions with liquidity has risen by the credits. -/
def Credits (m : Market) (c : Course) (w w' : Walk) (ks : List Credit) : Prop :=
  ∀ p ∈ m.positions, p.liquidity ≠ 0 → ∀ x,
    (w'.scene m c).unsettled p x = (w.scene m c).unsettled p x + p.credited x ks

/-- **A step adds its credit to what is unsettled**, unless it gets stuck. -/
theorem step_credits (hs : Setting m c supplied) (hw : Walking m c supplied w)
    (h : step c w = .ok w') : ∃ k, creditOf c w w' = .ok k ∧
      (Walking m c supplied w' ∧ Credits m c w w' [k] ∨ Stuck m c supplied w') := by
  obtain ⟨found, t, s, split, growth, moved, hl, hd | ⟨k, offset, hx⟩ | hstuck⟩ :=
    step_moves hs hw h
  · have htick : moved.tick = w.tick := by rw [hl.settled.rest]
    refine ⟨_, hl.creditOf_eq (by rw [hd.rest]), Or.inl ⟨walking_of_drifts hs hw hl hd, ?_⟩⟩
    intro p hp hne x
    rw [(hd.sides htick x).unsettled_eq hp hne, hl.unsettled_eq hs hp hne]
  · refine ⟨_, hl.creditOf_eq (by rw [hx.rest]), Or.inl ⟨walking_of_crosses hs hw hl hx, ?_⟩⟩
    intro p hp hne x
    rw [(hx.sides hs hw hl x).unsettled_eq hp hne, hl.unsettled_eq hs hp hne]
  · obtain ⟨_, _, _, _, _, _, hl', hend⟩ := step_cases h
    exact ⟨_, hl'.creditOf_eq hend.fee_eq, Or.inr hstuck⟩

theorem credits_of_isDone {n : Nat} (h : isDone c w = true) : credits c n w = .ok [] := by
  cases n with
  | zero => rfl
  | succ n =>
      simp only [credits]
      rw [if_pos h]

/-- A walk that is stuck ends where it is. -/
theorem Stuck.walk_eq (hstuck : Stuck m c supplied w) {n : Nat} (h : walk c n w = .ok w') :
    isDone c w = true ∧ w' = w := by
  by_cases hdone : isDone c w = true
  · refine ⟨hdone, ?_⟩
    cases n with
    | zero =>
        simp only [walk] at h
        rw [if_pos hdone] at h
        exact (Except.ok.inj h).symm
    | succ n =>
        simp only [walk] at h
        rw [if_pos hdone] at h
        exact (Except.ok.inj h).symm
  · cases n with
    | zero =>
        simp only [walk] at h
        rw [if_neg hdone] at h
        cases h
    | succ n =>
        simp only [walk] at h
        rw [if_neg hdone, Outcome.bind_eq_ok] at h
        obtain ⟨_, hnext, -⟩ := h
        exact absurd hnext hstuck.step_ne_ok

/-- **A walk adds its credits to what is unsettled**, unless it gets stuck. -/
theorem walk_credits (hs : Setting m c supplied) (hw : Walking m c supplied w) {n : Nat}
    (h : walk c n w = .ok w') :
    ∃ ks, credits c n w = .ok ks ∧ (Credits m c w w' ks ∨ Stuck m c supplied w') := by
  have hnothing : Credits m c w w [] := fun p _ _ x => (add_zero _).symm
  induction n generalizing w with
  | zero =>
      simp only [walk] at h
      by_cases hdone : isDone c w
      · rw [if_pos hdone] at h
        obtain rfl := Except.ok.inj h
        exact ⟨[], rfl, Or.inl hnothing⟩
      · rw [if_neg hdone] at h
        cases h
  | succ n ih =>
      simp only [walk] at h
      simp only [credits]
      by_cases hdone : isDone c w
      · rw [if_pos hdone] at h ⊢
        obtain rfl := Except.ok.inj h
        exact ⟨[], rfl, Or.inl hnothing⟩
      · rw [if_neg hdone, Outcome.bind_eq_ok] at h
        obtain ⟨next, hnext, h⟩ := h
        obtain ⟨k, hk, ⟨hwalking, hcredit⟩ | hstuck⟩ := step_credits hs hw hnext
        · obtain ⟨ks, hks, hrest⟩ := ih hwalking h fun p _ _ x => (add_zero _).symm
          refine ⟨k :: ks, ?_, hrest.imp_left fun hrest p hp hne x => ?_⟩
          · rw [if_neg hdone]
            simp only [hnext, hk, hks, Outcome.ok_bind]
            rfl
          · rw [hrest p hp hne x, hcredit p hp hne x, p.credited_cons x k ks, p.credited_cons x k [],
              p.credited_nil, add_zero, add_assoc]
        · obtain ⟨hdone', rfl⟩ := hstuck.walk_eq h
          refine ⟨[k], ?_, Or.inr hstuck⟩
          rw [if_neg hdone]
          simp only [hnext, hk, credits_of_isDone hdone', Outcome.ok_bind]
          rfl

end Walks

end Swap

/-! ### Histories -/

/-- What happened to the fees of positions. -/
inductive FeeEvent
  /-- The fees of position number `i` were settled. -/
  | settled (i : Nat)
  /-- A step of a swap credited a fee. -/
  | credited (k : Credit)
deriving DecidableEq, Repr

/-- The credits since the last settlement of position number `i`, in a history that has the newest event
first. -/
def creditsSince (i : Nat) : List FeeEvent → List Credit
  | [] => []
  | .settled j :: older => if j = i then [] else creditsSince i older
  | .credited k :: older => k :: creditsSince i older

theorem creditsSince_credited (i : Nat) (ks : List Credit) (older : List FeeEvent) :
    creditsSince i (ks.map .credited ++ older) = ks ++ creditsSince i older := by
  induction ks with
  | nil => rfl
  | cons k ks ih =>
      change k :: creditsSince i (ks.map .credited ++ older) = _
      rw [ih, List.cons_append]

theorem creditsSince_settled_self (i : Nat) (older : List FeeEvent) :
    creditsSince i (.settled i :: older) = [] := if_pos rfl

theorem creditsSince_settled_other {i j : Nat} (h : j ≠ i) (older : List FeeEvent) :
    creditsSince i (.settled j :: older) = creditsSince i older := if_neg h

/-- An operation neither swaps nor settles position number `i`. -/
def Operation.Spares (i : Nat) : Operation → Prop
  | .increase j _ _ _ | .decrease j _ _ _ => j ≠ i
  | .swap _ _ _ => False
  | .setUpArray _ _ | .setUpPosition _ _ | .openPosition _ _ _ _ _ | .takeProtocolFees _ _
  | .takeFundFees _ _ => True

namespace Market

/-- What the steps of a swap credit, in order. -/
def swapCredits (m : Market) (r : SwapRequest) (s : Supply) : Outcome (List Credit) := do
  let c ← Swap.course m.config m.pool (m.supplied s) r
  let cursor ← Swap.firstCursor c (m.pick s.starts) m.pool.tick
  Swap.credits c Swap.stepLimit (Swap.start m.pool r cursor)

/-- What an operation adds to the history, the newest event first. -/
def feeEvents (m : Market) : Operation → Outcome (List FeeEvent)
  | .openPosition _ _ _ _ _ => return [.settled m.positions.length]
  | .increase i _ _ _ | .decrease i _ _ _ => return [.settled i]
  | .swap r _ s => do return (← m.swapCredits r s).reverse.map .credited
  | .setUpArray _ _ | .setUpPosition _ _ | .takeProtocolFees _ _ | .takeFundFees _ _ => return []

/-- The markets that runs lead to, with all that was paid and what happened to the fees on the way. -/
inductive Recorded : Market → Payment → List FeeEvent → Prop
  | created {blank config : FeeConfig} {signer admin key : Key} {configBump index : Nat}
      {params : FeeConfig.Params} {binding : Pool.Binding} {bump sqrtPrice openTime : Nat}
      {m : Market} (hconfig : blank.setUp signer admin configBump index params = .ok config)
      (hcreate : create key config binding bump sqrtPrice openTime = .ok m) :
      Recorded m .none []
  | performed {m m' : Market} {total paid : Payment} {history new : List FeeEvent} (op : Operation)
      (hrecorded : Recorded m total history) (hadmits : m.Admits op m')
      (hperform : m.perform op = .ok (m', paid)) (hnew : m.feeEvents op = .ok new) :
      Recorded m' (total.add paid) (new ++ history)

variable {m m' : Market} {total paid : Payment} {history : List FeeEvent}

theorem Recorded.reached (h : Recorded m total history) : Reached m total := by
  induction h with
  | created hconfig hcreate => exact .created hconfig hcreate
  | performed op _ hadmits hperform _ ih => exact .performed op ih hadmits hperform

/-- The fee growth inside the range of a position. -/
def growthInside (m : Market) (p : Position) : Pair Growth :=
  Tick.growthInside (m.tickState p.lower) (m.tickState p.upper) m.pool.tick m.pool.growth

/-- Since its last settlement, the fee growth inside the range of each position with liquidity is what
the steps of swaps credited to it. -/
def Credited (m : Market) (history : List FeeEvent) : Prop :=
  ∀ i p, m.positions[i]? = some p → p.liquidity ≠ 0 → ∀ x,
    m.scene.unsettled p x = p.credited x (creditsSince i history)

section Steps

variable {i : Nat} {p q : Position} {new : List FeeEvent} {op : Operation}

theorem scene_addArray (hm : m.WellFormed) {start : Int} {bump : Nat}
    (hnew : start ∉ m.arrays.map (·.start)) (h : m.addArray start bump = .ok m') :
    m'.scene = m.scene ∧ m'.positions = m.positions := by
  obtain ⟨a, ha, rfl⟩ := addArray_eq_ok h
  obtain ⟨-, rfl, -, -⟩ := aligned_fresh ha
  obtain ⟨-, hlookup⟩ := lookup_insertArray hm.laid ha hnew
  refine ⟨?_, rfl⟩
  simp only [scene]
  simp only [hlookup]

/-! ### What one operation does to fees -/

theorem Credited.congr (h : m.Credited history) (hscene : m'.scene = m.scene)
    (hpositions : m'.positions = m.positions) : m'.Credited history := by
  intro i p hi hne x
  rw [hpositions] at hi
  rw [hscene]
  exact h i p hi hne x

theorem Credited.setUpPosition (h : m.Credited history) (lower upper : Int) :
    (m.setUpPosition lower upper).Credited history := by
  intro i p hi hne x
  -- the new position has no liquidity
  have hold : m.positions[i]? = some p := by
    simp only [Market.setUpPosition] at hi
    rcases Nat.lt_or_ge i m.positions.length with hlt | hge
    · rwa [List.getElem?_append_left hlt] at hi
    · rw [List.getElem?_append_right hge] at hi
      have hfresh := List.mem_singleton.1 (List.mem_of_getElem? hi)
      exact absurd (by rw [hfresh]; rfl) hne
  exact h i p hold hne x

/-- **A change of liquidity settles**: the fees of the position start anew, and no other position's
change. -/
theorem Credited.change {m₁ : Market} {p' : Position} {delta : Int} {amounts : Pair Nat}
    {lowerMade lower upperMade upper : Tick} (h : m.Credited history) (hm : m.WellFormed)
    (hi : m.positions[i]? = some p)
    (hc : Changed m m₁ p p' delta amounts lowerMade lower upperMade upper)
    (hlower : q.lower = p'.lower) (hupper : q.upper = p'.upper) (hliquidity : q.liquidity = p'.liquidity)
    (hlast : q.growthLast = p'.growthLast) :
    ({ m₁ with positions := m.positions.set i q } : Market).Credited (.settled i :: history) := by
  obtain ⟨hlower', hupper', hliquidity'⟩ := hc.bounds
  have hm' := hc.wellFormed (q := q) hm hi (hlower.trans hlower') (hupper.trans hupper')
    (hliquidity ▸ hliquidity')
  intro j r hj hne x
  change (m.positions.set i q)[j]? = some r at hj
  change m₁.scene.unsettled r x = _
  by_cases hij : i = j
  · subst hij
    rw [List.getElem?_set_self (List.getElem?_eq_some_iff.1 hi).1] at hj
    obtain rfl := Option.some.inj hj
    rw [creditsSince_settled_self, Position.credited_nil]
    exact hc.unsettled_eq hm' hi (hlower.trans hlower') (hupper.trans hupper') hne hlast x
  · rw [List.getElem?_set_ne hij] at hj
    rw [creditsSince_settled_other hij, ← h j r hj hne x, Scene.unsettled_eq_inside,
      Scene.unsettled_eq_inside, hc.inside_other hm hm' (Ne.symm hij) hj hne]

theorem Credited.increase (h : m.Credited history) (hm : m.WellFormed) {n : Nat} {d : Deposit}
    {derived : Bool} {s : Supply} {change : LiquidityChange}
    (hincrease : m.increase i d derived s = .ok (m', n, change)) :
    m'.Credited (.settled i :: history) := by
  obtain ⟨p, p', m₁, _, _, _, _, hi, -, hc, rfl⟩ := increase_eq_ok hm.orderly hincrease
  exact h.change hm hi hc rfl rfl rfl rfl

theorem Credited.decrease (h : m.Credited history) (hm : m.WellFormed) {liquidity : Nat}
    {minima : Pair Nat} {s : Supply} {change : LiquidityChange}
    (hdecrease : m.decrease i liquidity minima s = .ok (m', change)) :
    m'.Credited (.settled i :: history) := by
  obtain ⟨p, p', m₁, _, _, _, _, hi, hc, -, rfl⟩ := decrease_eq_ok hm.orderly hdecrease
  exact h.change hm hi hc rfl rfl rfl rfl

/-- **A swap credits** what it adds to the unsettled growth. -/
theorem Credited.swap (h : m.Credited history) (hm : m.WellFormed) {r : SwapRequest} {time : Nat}
    {s : Supply} {result : SwapResult} (hadmits : m.Admits (.swap r time s) m')
    (hswap : m.swap r time s = .ok (m', result)) {ks : List Credit}
    (hks : m.swapCredits r s = .ok ks) : m'.Credited (ks.reverse.map .credited ++ history) := by
  obtain ⟨c, cursor, w, b', hswapped, -, hm'⟩ := swap_eq_ok hswap
  have hclear := hadmits.clear (congrArg (·.pool) hm') hswapped
  have hw := hswapped.walking hm hadmits.1 hclear
  obtain ⟨ks', hks', hcredits⟩ := Swap.walk_credits (hswapped.setting hm)
    (hswapped.walking_start hm hadmits.1) hswapped.walk_eq
  have hadded := hcredits.resolve_right (hswapped.not_stuck hm hclear)
  obtain rfl : ks' = ks := by
    simp only [swapCredits, hswapped.course_eq, hswapped.cursor_eq, Outcome.ok_bind] at hks
    rw [hks'] at hks
    exact Except.ok.inj hks
  have hscene : m'.scene = w.scene m c := by
    rw [hm']
    exact scene_swap hm hswapped hw
  intro i p hi hne x
  have hi' : m.positions[i]? = some p := by
    rw [hm'] at hi
    exact hi
  rw [hscene, hadded p (List.mem_of_getElem? hi') hne x, hswapped.scene_start,
    h i p hi' hne x, creditsSince_credited, Position.credited_append, Position.credited_reverse,
    add_comm]

/-- **Every operation keeps lazy and eager fees together.** -/
theorem Credited.perform (h : m.Credited history) (hm : m.WellFormed) (hadmits : m.Admits op m')
    (hperform : m.Performs op m' paid) (hnew : m.feeEvents op = .ok new) :
    m'.Credited (new ++ history) := by
  cases hperform with
  | setUpArray hadd =>
      obtain rfl := Except.ok.inj hnew
      obtain ⟨hscene, hpositions⟩ := scene_addArray hm hadmits hadd
      exact h.congr hscene hpositions
  | setUpPosition =>
      obtain rfl := Except.ok.inj hnew
      exact h.setUpPosition _ _
  | openPosition hincrease =>
      obtain rfl := Except.ok.inj hnew
      exact (h.setUpPosition _ _).increase (hm.setUpPosition _ _) hincrease
  | increase hincrease =>
      obtain rfl := Except.ok.inj hnew
      exact h.increase hm hincrease
  | decrease hdecrease =>
      obtain rfl := Except.ok.inj hnew
      exact h.decrease hm hdecrease
  | swap hswap =>
      simp only [feeEvents, Outcome.bind_eq_ok] at hnew
      obtain ⟨ks, hks, hnew⟩ := hnew
      obtain rfl := Except.ok.inj hnew
      exact h.swap hm hadmits hswap hks
  | takeProtocolFees =>
      obtain rfl := Except.ok.inj hnew
      exact h.congr rfl rfl
  | takeFundFees =>
      obtain rfl := Except.ok.inj hnew
      exact h.congr rfl rfl

theorem Recorded.credited (h : Recorded m total history) : m.Credited history := by
  induction h with
  | created hconfig hcreate =>
      -- a new market has no positions
      obtain ⟨_, -, rfl⟩ := create_eq_ok hcreate
      intro i p hi
      cases hi
  | performed op hrecorded hadmits hperform hnew ih =>
      exact ih.perform hrecorded.reached.wellFormed hadmits (performs_of_perform hperform) hnew

/-- What an operation that succeeds adds to the history can be told. -/
theorem feeEvents_isOk (hm : m.WellFormed) (hadmits : m.Admits op m')
    (hperform : m.Performs op m' paid) : ∃ new, m.feeEvents op = .ok new := by
  cases hperform with
  | swap hswap =>
      obtain ⟨c, cursor, w, b', hswapped, -, -⟩ := swap_eq_ok hswap
      obtain ⟨ks, hks, -⟩ := Swap.walk_credits (hswapped.setting hm)
        (hswapped.walking_start hm hadmits.1) hswapped.walk_eq
      refine ⟨ks.reverse.map .credited, ?_⟩
      simp only [feeEvents, swapCredits, hswapped.course_eq, hswapped.cursor_eq, hks,
        Outcome.ok_bind]
      rfl
  | _ => exact ⟨_, rfl⟩

/-- Every market reached has a history. -/
theorem Reached.recorded (h : Reached m total) : ∃ history, Recorded m total history := by
  induction h with
  | created hconfig hcreate => exact ⟨[], .created hconfig hcreate⟩
  | performed op hreached hadmits hperform ih =>
      obtain ⟨history, hrecorded⟩ := ih
      obtain ⟨new, hnew⟩ :=
        feeEvents_isOk hreached.wellFormed hadmits (performs_of_perform hperform)
      exact ⟨new ++ history, .performed op hrecorded hadmits hperform hnew⟩

/-! ### Operations on other positions -/

/-- A change of another position leaves a position and the growth inside its range alone. -/
theorem kept_of_change {m₁ : Market} {j : Nat} {p' r : Position} {delta : Int} {amounts : Pair Nat}
    {lowerMade lower upperMade upper : Tick} (hm : m.WellFormed) (hj : m.positions[j]? = some p)
    (hc : Changed m m₁ p p' delta amounts lowerMade lower upperMade upper)
    (hlower : q.lower = p'.lower) (hupper : q.upper = p'.upper) (hliquidity : q.liquidity = p'.liquidity)
    (hij : j ≠ i) (hi : m.positions[i]? = some r) (hne : r.liquidity ≠ 0) :
    ({ m₁ with positions := m.positions.set j q } : Market).positions[i]? = some r ∧
      ({ m₁ with positions := m.positions.set j q } : Market).growthInside r = m.growthInside r := by
  obtain ⟨hlower', hupper', hliquidity'⟩ := hc.bounds
  have hm' := hc.wellFormed (q := q) hm hj (hlower.trans hlower') (hupper.trans hupper')
    (hliquidity ▸ hliquidity')
  exact ⟨(List.getElem?_set_ne hij).trans hi, hc.inside_other hm hm' hij.symm hi hne⟩

theorem kept_of_increase {j n : Nat} {d : Deposit} {derived : Bool} {s : Supply}
    {change : LiquidityChange} (hm : m.WellFormed)
    (hincrease : m.increase j d derived s = .ok (m', n, change)) (hij : j ≠ i)
    (hi : m.positions[i]? = some p) (hne : p.liquidity ≠ 0) :
    m'.positions[i]? = some p ∧ m'.growthInside p = m.growthInside p := by
  obtain ⟨_, _, m₁, _, _, _, _, hj, -, hc, rfl⟩ := increase_eq_ok hm.orderly hincrease
  exact kept_of_change hm hj hc rfl rfl rfl hij hi hne

/-- An operation that spares a position leaves it and the growth inside its range alone. -/
theorem kept_of_spares (hm : m.WellFormed) (hspares : op.Spares i) (hadmits : m.Admits op m')
    (hperform : m.Performs op m' paid) (hi : m.positions[i]? = some p) (hne : p.liquidity ≠ 0) :
    m'.positions[i]? = some p ∧ m'.growthInside p = m.growthInside p := by
  have hlt := (List.getElem?_eq_some_iff.1 hi).1
  have happend : ∀ lower upper, (m.setUpPosition lower upper).positions[i]? = some p :=
    fun _ _ => (List.getElem?_append_left hlt).trans hi
  cases hperform with
  | setUpArray hadd =>
      obtain ⟨hscene, hpositions⟩ := scene_addArray hm hadmits hadd
      rw [hpositions]
      exact ⟨hi, congrArg (·.inside p) hscene⟩
  | setUpPosition => exact ⟨happend _ _, rfl⟩
  | openPosition hincrease =>
      have hkept := kept_of_increase (hm.setUpPosition _ _) hincrease hlt.ne' (happend _ _) hne
      exact hkept
  | increase hincrease => exact kept_of_increase hm hincrease hspares hi hne
  | decrease hdecrease =>
      obtain ⟨_, _, m₁, _, _, _, _, hj, hc, -, rfl⟩ := decrease_eq_ok hm.orderly hdecrease
      exact kept_of_change hm hj hc rfl rfl rfl hspares hi hne
  | swap => exact hspares.elim
  | takeProtocolFees => exact ⟨hi, rfl⟩
  | takeFundFees => exact ⟨hi, rfl⟩

end Steps

/-- **Lazy fees are eager fees.** Whatever deposits, withdrawals and swaps led to the market: for each
position with liquidity, the fee growth inside its range since its last settlement is, modulo `2 ^ 128`,
the sum of what the steps of swaps since then credited while its range covered their tick. No operation
other than a swap or a settlement of the position itself changes the fees that it has pending. -/
theorem lazy_fees_eq_eager {m : Market} {total : Payment} {history : List FeeEvent}
    (h : Recorded m total history) {i : Nat} {p : Position} (hi : m.positions[i]? = some p)
    (hne : p.liquidity ≠ 0) :
    (∀ x, (m.growthInside p).get x - p.growthLast.get x = p.credited x (creditsSince i history)) ∧
    ∀ {op m' paid}, op.Spares i → m.Admits op m' → m.perform op = .ok (m', paid) →
      m'.positions[i]? = some p ∧
        p.pendingFees (m'.growthInside p) = p.pendingFees (m.growthInside p) := by
  refine ⟨h.credited i p hi hne, fun {op m' paid} hspares hadmits hperform => ?_⟩
  obtain ⟨hkept, hinside⟩ := kept_of_spares h.reached.wellFormed hspares hadmits
    (performs_of_perform hperform) hi hne
  rw [hinside]
  exact ⟨hkept, rfl⟩

/-- In the run of `earnings` the second position is settled once, before two swaps. -/
theorem lazy_fees_eq_eager_earnings : ∃ m total history p,
    sample 10 5 earnings = .ok (m, total) ∧ Recorded m total history ∧
    m.positions[1]? = some p ∧ p.liquidity = 500000000 ∧
    p.credited .zero (creditsSince 1 history) = 9727583041536 ∧
    p.credited .one (creditsSince 1 history) = 2016844018725 ∧
    ∀ {op m' paid}, op.Spares 1 → m.Admits op m' → m.perform op = .ok (m', paid) →
      m'.positions[1]? = some p ∧
        p.pendingFees (m'.growthInside p) = p.pendingFees (m.growthInside p) := by
  obtain ⟨m, total, hsample, hearned⟩ := exists_of_sample (P := fun x =>
      (x.1.positions[1]?).any fun p : Position => decide (p.liquidity = 500000000 ∧
        (x.1.growthInside p).get .zero - p.growthLast.get .zero = 9727583041536 ∧
        (x.1.growthInside p).get .one - p.growthLast.get .one = 2016844018725))
    (show (sample 10 5 earnings).toOption.any _ = true by decide +kernel)
  obtain ⟨p, hp, hvalues⟩ := (Option.any_eq_true _ _).1 hearned
  obtain ⟨hliquidity, hzero, hone⟩ := of_decide_eq_true hvalues
  obtain ⟨history, hrecorded⟩ := (reached_of_sample hsample).recorded
  have hne : p.liquidity ≠ 0 := by rw [hliquidity]; decide
  obtain ⟨hlazy, hkept⟩ := lazy_fees_eq_eager hrecorded hp hne
  exact ⟨m, total, history, p, hsample, hrecorded, hp, hliquidity, hlazy .zero ▸ hzero,
    hlazy .one ▸ hone, hkept⟩

end Market

end Clmm
