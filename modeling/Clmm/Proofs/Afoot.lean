import Clmm.Proofs.StepBounds
import Clmm.Proofs.WalkStep
import Clmm.Proofs.WellFormed

/-!
# Clmm.Proofs.Afoot

**What a walk keeps whatever it overlooks** (`Afoot`): it has a place among the supplied arrays, its price
lies between that of its tick and the limit, and the ticks it crossed are places of those arrays. Nothing
of this depends on the positions, so it holds of the walks of any orderly market (`step_afoot`). What is
said of the price does not even depend on the arrays (`step_underway`).
-/

namespace Clmm

open TickTable

/-- The tick prices along the way, against the price of the walk. -/
theorem Direction.leads_priceAt {d : Direction} {p : Nat} {s t : Int} (hp : Agrees p t)
    (hlow : minTick ≤ s) (hhigh : s ≤ maxTick) (h : d.Ahead t s) : d.Leads p (priceAt s) := by
  cases d with
  | down => exact Nat.le_trans (priceAt_le hlow h hp.le_max) hp.price_le
  | up =>
      have hlt : t < s := h
      have := hp.le_next (by omega)
      exact Nat.le_trans this (priceAt_le (by have := hp.min_le; omega) (by omega) hhigh)

namespace Swap

/-- A crossing belongs to a place of the supplied arrays, and its tick is the one that was there,
crossed. -/
def Crossing.Fits (x : Crossing) (c : Course) (arrays supplied : List TickArray) : Prop :=
  ∃ a ∈ arrays, FirstAt (supplied.map (·.start)) x.index a.start ∧
    ∃ _ : x.offset < arraySize, ∃ growth,
      x.tick = a.ticks[x.offset].cross (c.growth.set c.direction.input growth)

/-- What a walk keeps whatever arrays it is supplied with: its price lies between that of its tick and
the limit. -/
structure Underway (c : Course) (w : Walk) : Prop where
  price : Agrees w.sqrtPrice w.tick
  toward : c.direction.Leads w.sqrtPrice c.limit
  remaining : w.remaining < 2 ^ 64

/-- What a walk stands on, whether or not its liquidity is right: its place among the supplied arrays, a
price between that of its tick and the limit, and crossings that belong to those arrays. -/
structure Afoot (c : Course) (arrays supplied : List TickArray) (w : Walk) : Prop where
  ready : ReadyAt c arrays supplied w.tick w.cursor
  price : Agrees w.sqrtPrice w.tick
  toward : c.direction.Leads w.sqrtPrice c.limit
  remaining : w.remaining < 2 ^ 64
  fits : ∀ x ∈ w.crossings, x.Fits c arrays supplied

variable {c : Course} {arrays supplied : List TickArray} {w w' moved : Walk} {t : Int} {s : SwapStep}
  {split : FeeSplit} {growth : Growth} {found : Option (Cursor × Nat)}

theorem Afoot.underway (hw : Afoot c arrays supplied w) : Underway c w :=
  ⟨hw.price, hw.toward, hw.remaining⟩

/-! ### Where a step heads -/

theorem finds_of_target (hc : c.Surveys arrays supplied)
    (hready : ReadyAt c arrays supplied w.tick w.cursor) (h : target c w = .ok found) :
    Finds c arrays supplied w.tick found := by
  simp only [target] at h
  cases hcursor : w.cursor with
  | some k =>
      rw [hcursor] at h hready
      exact seek_spec hc hready h
  | none =>
      rw [hcursor] at h hready
      obtain rfl := Except.ok.inj h
      exact hready

/-- Whatever a step heads for lies ahead. -/
theorem Heads.ahead (h : Heads c w found t) : c.direction.Ahead w.tick t := by
  have htarget := h.target_eq
  have hbound := h.bound_eq
  cases found with
  | none => exact (edge_eq_ok hbound).2
  | some place =>
      obtain ⟨k, offset⟩ := place
      simp only [target] at htarget
      cases hcursor : w.cursor with
      | none =>
          rw [hcursor] at htarget
          cases htarget
      | some k' =>
          rw [hcursor] at htarget
          obtain ⟨hlt, hahead⟩ := TickArray.ahead_of_nextUsed? (nextUsed?_of_seek htarget)
          rwa [TickArray.indexAt_eq_ok hbound hlt] at hahead

theorem leads_nearer {d : Direction} {p a b : Nat} (ha : d.Leads p a) (hb : d.Leads p b) :
    d.Leads p (nearer d a b) := by
  cases d
  · exact Nat.max_le.2 ⟨ha, hb⟩
  · exact Nat.le_min.2 ⟨ha, hb⟩

theorem nearer_leads {d : Direction} {a b : Nat} :
    d.Leads (nearer d a b) a ∧ d.Leads (nearer d a b) b := by
  cases d
  · exact ⟨Nat.le_max_left a b, Nat.le_max_right a b⟩
  · exact ⟨Nat.min_le_left a b, Nat.min_le_right a b⟩

theorem nearer_pos {d : Direction} {limit : Nat} (hlow : minTick ≤ t) (hhigh : t ≤ maxTick)
    (hlimit : minSqrtPrice < limit) : 0 < nearer d (priceAt t) limit := by
  have := priceAt_pos hlow hhigh
  simp only [nearer]
  split <;> omega

/-- A step's target lies on the way. -/
theorem Heads.leads_nearer (h : Heads c w found t) (hw : Underway c w) :
    c.direction.Leads w.sqrtPrice (nearer c.direction (priceAt t) c.limit) :=
  Swap.leads_nearer (Direction.leads_priceAt hw.price h.low h.high h.ahead) hw.toward

/-- The price of a step stays on the way to the bound and to the limit. -/
theorem Leg.sound (hl : Leg c w found t s split growth moved) (hlimit : minSqrtPrice < c.limit)
    (hw : Underway c w) :
    s.Sound c.direction w.sqrtPrice (nearer c.direction (priceAt t) c.limit) w.liquidity :=
  SwapStep.sound_compute hw.price.price_pos (nearer_pos hl.low hl.high hlimit)
    (hl.heads.leads_nearer hw) hw.remaining hl.computed

/-! ### Where a step ends -/

theorem agrees_arrive {d : Direction} {limit : Nat} (hlow : minTick ≤ t) (hhigh : t ≤ maxTick)
    (hlimit : minSqrtPrice < limit) (htoward : d.Leads (priceAt t) limit) :
    Agrees (priceAt t) (d.arrive t) := by
  cases d with
  | down =>
      -- a limit inside the price range keeps the walk off the lowest tick
      have hlt : minTick < t := by
        by_contra hle
        obtain rfl : t = minTick := by omega
        rw [priceAt_minTick] at htoward
        change limit ≤ minSqrtPrice at htoward
        omega
      change Agrees (priceAt t) (t - 1)
      refine ⟨by omega, by omega, priceAt_le (by omega) (by omega) hhigh, ?_⟩
      intro _
      rw [Int.sub_add_cancel]
  | up =>
      change Agrees (priceAt t) t
      exact ⟨hlow, hhigh, Nat.le_refl _, fun hlt => priceAt_le hlow (by omega) (by omega)⟩

/-- A price further on lies in the interval of a tick further on. -/
theorem ahead_of_isTickBelow {d : Direction} {p q : Nat} {v u t' : Int} (hp : Agrees p v)
    (hq : IsTickBelow q u) (hleads : d.Leads p q) (hne : q ≠ p) (h : d.Ahead u t') : d.Ahead v t' := by
  cases d with
  | down =>
      change q ≤ p at hleads
      have hle : u ≤ v := by
        rcases Int.lt_or_eq_of_le hp.le_max with hlt | heq
        · have := hq.lt_of_lt_price (s := v + 1) (by have := hp.min_le; omega)
            (by have := hp.le_next hlt; omega)
          omega
        · rw [heq]
          exact hq.le_max
      exact Int.le_trans h hle
  | up =>
      have hle : v ≤ u := hq.le_of_price_le hp.le_max (Nat.le_trans hp.price_le hleads)
      exact Int.lt_of_le_of_lt hle h

theorem Leg.toward (hl : Leg c w found t s split growth moved) (hlimit : minSqrtPrice < c.limit)
    (hw : Underway c w) : c.direction.Leads moved.sqrtPrice c.limit := by
  have hsqrt : moved.sqrtPrice = s.sqrtPrice := hl.settled.sqrtPrice_eq
  rw [hsqrt]
  exact (hl.sound hlimit hw).stays.trans nearer_leads.2

theorem Leg.ready (hl : Leg c w found t s split growth moved) (hc : c.Surveys arrays supplied)
    (hready : ReadyAt c arrays supplied w.tick w.cursor) :
    ReadyAt c arrays supplied w.tick moved.cursor := by
  have hcursor : moved.cursor = found.map (·.1) := by rw [hl.settled.rest]
  have hfinds := finds_of_target hc hready hl.target_eq
  rw [hcursor]
  cases found with
  | none => exact hfinds
  | some place => exact hfinds.1

/-- A step that ends at a tick in whose interval its price lies goes on. -/
theorem Leg.underway (hl : Leg c w found t s split growth moved) (hlimit : minSqrtPrice < c.limit)
    (hw : Underway c w) {u : Int} (hprice : Agrees s.sqrtPrice u) :
    Underway c { moved with tick := u } := by
  have hsqrt : moved.sqrtPrice = s.sqrtPrice := hl.settled.sqrtPrice_eq
  exact {
    price := by
      change Agrees moved.sqrtPrice u
      rwa [hsqrt]
    toward := hl.toward hlimit hw
    remaining := Nat.lt_of_le_of_lt hl.settled.remaining_le hw.remaining }

/-- A step that reaches its bound has passed it. -/
theorem Leg.underway_arrive (hl : Leg c w found t s split growth moved)
    (hlimit : minSqrtPrice < c.limit) (hw : Underway c w) (hprice : s.sqrtPrice = priceAt t) :
    Underway c { moved with tick := c.direction.arrive t } := by
  apply hl.underway hlimit hw
  rw [hprice]
  exact agrees_arrive hl.low hl.high hlimit
    (hprice ▸ (hl.sound hlimit hw).stays.trans nearer_leads.2)

/-- **Every step keeps the price with its tick**, and moves it in the direction of the walk. -/
theorem step_underway (hlimit : minSqrtPrice < c.limit) (hw : Underway c w)
    (h : step c w = .ok w') :
    Underway c w' ∧ c.direction.Leads w.sqrtPrice w'.sqrtPrice := by
  obtain ⟨found, t, s, split, growth, moved, hl, hend⟩ := step_cases h
  have hsqrt : moved.sqrtPrice = s.sqrtPrice := hl.settled.sqrtPrice_eq
  have hleads : c.direction.Leads w.sqrtPrice moved.sqrtPrice :=
    hsqrt ▸ (hl.sound hlimit hw).leads
  cases hend with
  | reachesEdge hprice => exact ⟨hl.underway_arrive hlimit hw hprice, hleads⟩
  | @crosses k offset arrived hprice hcross =>
      have hunderway := hl.underway_arrive hlimit hw hprice
      obtain ⟨hlt, liquidity, -, rfl⟩ := crossTick_eq_ok hcross
      exact ⟨⟨hunderway.price, hunderway.toward, hunderway.remaining⟩, hleads⟩
  | stops hprice hmoved htick =>
      exact ⟨hl.underway hlimit hw (isTickBelow_of_tickAt htick).agrees, hleads⟩
  | stays hprice hsame =>
      have htick : w'.tick = w.tick := by rw [hl.settled.rest]
      have hunderway := hl.underway hlimit hw (u := w.tick) (hsame ▸ hw.price)
      rw [← htick] at hunderway
      exact ⟨hunderway, hleads⟩

/-- A step that ends at a tick further on still has its place among the supplied arrays. -/
theorem Leg.ready_onward (hl : Leg c w found t s split growth moved) (hc : c.Surveys arrays supplied)
    (hready : ReadyAt c arrays supplied w.tick w.cursor) {u : Int}
    (honward : ∀ t', c.direction.Ahead u t' → c.direction.Ahead w.tick t') :
    ReadyAt c arrays supplied u moved.cursor :=
  (hl.ready hc hready).mono fun t' _ => honward t'

/-- **Every step goes on from where a walk may stand to where it may stand.** -/
theorem step_afoot (hc : c.Surveys arrays supplied) (hlimit : minSqrtPrice < c.limit)
    (hw : Afoot c arrays supplied w) (h : step c w = .ok w') : Afoot c arrays supplied w' := by
  obtain ⟨hunderway, -⟩ := step_underway hlimit hw.underway h
  obtain ⟨found, t, s, split, growth, moved, hl, hend⟩ := step_cases h
  have hcrossings : moved.crossings = w.crossings := by rw [hl.settled.rest]
  -- at its bound, the step has passed it
  have harrive : ReadyAt c arrays supplied (c.direction.arrive t) moved.cursor :=
    hl.ready_onward hc hw.ready fun t' ht' =>
      hl.heads.ahead.of_beyond (Direction.ahead_arrive.1 ht')
  refine ⟨?_, hunderway.price, hunderway.toward, hunderway.remaining, ?_⟩
  · cases hend with
    | reachesEdge hprice => exact harrive
    | crosses hprice hcross =>
        obtain ⟨-, liquidity, -, rfl⟩ := crossTick_eq_ok hcross
        exact harrive
    | stops hprice hmoved htick =>
        refine hl.ready_onward hc hw.ready fun t' ht' => ?_
        exact ahead_of_isTickBelow hw.price (isTickBelow_of_tickAt htick)
          (hl.sound hlimit hw.underway).leads hmoved ht'
    | stays hprice hsame =>
        have htick : w'.tick = w.tick := by rw [hl.settled.rest]
        rw [htick]
        exact hl.ready hc hw.ready
  · cases hend with
    | reachesEdge hprice => exact hcrossings ▸ hw.fits
    | @crosses k offset arrived hprice hcross =>
        obtain ⟨hready, -⟩ := finds_of_target hc hw.ready hl.target_eq
        obtain ⟨hlt, liquidity, -, rfl⟩ := crossTick_eq_ok hcross
        intro x hx
        rcases List.mem_append.1 hx with hold | hnew
        · exact hw.fits x (hcrossings ▸ hold)
        · rw [List.mem_singleton.1 hnew]
          exact ⟨k.array, hc.own _ hready.mem, hready.first, hlt, _, rfl⟩
    | stops hprice hmoved htick => exact hcrossings ▸ hw.fits
    | stays hprice hsame => exact hcrossings ▸ hw.fits

end Swap

end Clmm
