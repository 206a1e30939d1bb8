import Clmm.Proofs.TickChange
import Clmm.Proofs.Walk

/-!
# Clmm.Proofs.SwapEffect

**What a swap does to a market** (`Swapped`): it takes a walk through the market as it stands, and then
writes the crossed ticks, the new price, tick and liquidity, and the counters. If the walk did not get
stuck, the market is well formed afterwards (`WellFormed.swap`). Conversely, what the pool swaps the market
swaps, since the oracle takes every observation (`WellFormed.swap_of_ok`).

Crossings are read from the arrays as they were and written at the end. In the table of ticks this is
the same as writing each at once (`writeCrossings_spec`).
-/

namespace Clmm

open TickTable

/-! ### Reading a swap -/

namespace Swap

/-- Everything a successful swap went through. -/
structure Swapped (config : FeeConfig) (extension : Option BitmapExtension) (r : SwapRequest)
    (b b' : SwapBook) (result : SwapResult) (c : Course) (cursor : Option Cursor) (w : Walk) :
    Prop where
  amount : r.amount ≠ 0
  limit_eq : checkLimit r b.pool.sqrtPrice = .ok ()
  course_eq : course config b.pool extension r = .ok c
  cursor_eq : firstCursor c b.arrays b.pool.tick = .ok cursor
  walk_eq : walk c stepLimit (start b.pool r cursor) = .ok w
  settle_eq : settle r w = .ok result
  arrays : b'.arrays = writeCrossings b.arrays w.crossings
  pool : b'.pool = { b.pool with
    sqrtPrice := w.sqrtPrice, tick := w.tick, liquidity := w.liquidity
    growth := b.pool.growth.set r.direction.input w.growth
    protocolFees := b.pool.protocolFees.set r.direction.input
      (b.pool.protocolFees.get r.direction.input + result.protocolFee)
    fundFees := b.pool.fundFees.set r.direction.input
      (b.pool.fundFees.get r.direction.input + result.fundFee)
    volumeIn := b'.pool.volumeIn, volumeOut := b'.pool.volumeOut }

theorem onPool_eq_ok {α : Type} {u : Update Pool α} {b b' : SwapBook} {a : α} :
    onPool u b = .ok a b' ↔ ∃ p, u b.pool = .ok a p ∧ b' = { b with pool := p } := by
  simp only [onPool]
  cases u b.pool with
  | ok a' p =>
      constructor
      · intro h
        obtain ⟨rfl, rfl⟩ := EStateM.Result.ok.inj h
        exact ⟨p, rfl, rfl⟩
      · intro h
        obtain ⟨_, hp, rfl⟩ := h
        obtain ⟨rfl, rfl⟩ := EStateM.Result.ok.inj hp
        rfl
  | error e p => simp

theorem accrueFees_eq_ok {d : Direction} {protocol fund : Nat} {p p' : Pool} :
    Pool.accrueFees d protocol fund p = .ok () p' ↔
      (p.protocolFees.get d.input + protocol < 2 ^ 64 ∧ p.fundFees.get d.input + fund < 2 ^ 64) ∧
        p' = { p with
          protocolFees := p.protocolFees.set d.input (p.protocolFees.get d.input + protocol)
          fundFees := p.fundFees.set d.input (p.fundFees.get d.input + fund) } := by
  simp only [Pool.accrueFees]
  simp only [Update.bind_eq_ok, Update.get_eq_ok, Update.lift_eq_ok, Update.modify_eq_ok,
    narrow_eq_ok]
  constructor
  · intro h
    obtain ⟨_, _, ⟨rfl, rfl⟩, _, _, ⟨⟨hprotocol, rfl⟩, rfl⟩, _, _, rfl, _, _, ⟨rfl, rfl⟩, _, _,
      ⟨⟨hfund, rfl⟩, rfl⟩, rfl⟩ := h
    exact ⟨⟨hprotocol, hfund⟩, rfl⟩
  · intro h
    obtain ⟨⟨hprotocol, hfund⟩, rfl⟩ := h
    exact ⟨_, _, ⟨rfl, rfl⟩, _, _, ⟨⟨hprotocol, rfl⟩, rfl⟩, (), _, rfl, _, _, ⟨rfl, rfl⟩, _, _,
      ⟨⟨hfund, rfl⟩, rfl⟩, rfl⟩

theorem recordVolume_eq_ok {d : Direction} {amountIn amountOut : Nat} {p p' : Pool} :
    Pool.recordVolume d amountIn amountOut p = .ok () p' ↔
      (p.volumeIn.get d.input + amountIn < 2 ^ 128 ∧ p.volumeOut.get d.output + amountOut < 2 ^ 128) ∧
        p' = { p with
          volumeIn := p.volumeIn.set d.input (p.volumeIn.get d.input + amountIn)
          volumeOut := p.volumeOut.set d.output (p.volumeOut.get d.output + amountOut) } := by
  simp only [Pool.recordVolume]
  simp only [Update.bind_eq_ok, Update.get_eq_ok, Update.lift_eq_ok, Update.modify_eq_ok,
    narrow_eq_ok]
  constructor
  · intro h
    obtain ⟨_, _, ⟨rfl, rfl⟩, _, _, ⟨⟨hin, rfl⟩, rfl⟩, _, _, rfl, _, _, ⟨rfl, rfl⟩, _, _,
      ⟨⟨hout, rfl⟩, rfl⟩, rfl⟩ := h
    exact ⟨⟨hin, hout⟩, rfl⟩
  · intro h
    obtain ⟨⟨hin, hout⟩, rfl⟩ := h
    exact ⟨_, _, ⟨rfl, rfl⟩, _, _, ⟨⟨hin, rfl⟩, rfl⟩, (), _, rfl, _, _, ⟨rfl, rfl⟩, _, _,
      ⟨⟨hout, rfl⟩, rfl⟩, rfl⟩

theorem quote_eq_ok {config : FeeConfig} {b : SwapBook} {extension : Option BitmapExtension}
    {r : SwapRequest} {time : Nat} {w : Walk} {result : SwapResult}
    (h : quote config b extension r time = .ok (w, result)) :
    ∃ c cursor, r.amount ≠ 0 ∧ checkLimit r b.pool.sqrtPrice = .ok () ∧
      course config b.pool extension r = .ok c ∧ firstCursor c b.arrays b.pool.tick = .ok cursor ∧
      walk c stepLimit (start b.pool r cursor) = .ok w ∧ settle r w = .ok result := by
  simp only [quote] at h
  simp only [Outcome.bind_eq_ok, require_eq_ok] at h
  obtain ⟨_, hamount, _, -, _, hlimit, c, hc, cursor, hcursor, w', hwalk, result', hsettle, h⟩ := h
  obtain ⟨rfl, rfl⟩ := Prod.mk.inj (Except.ok.inj h)
  exact ⟨c, cursor, hamount, hlimit, hc, hcursor, hwalk, hsettle⟩

/-- The result of a swap is read off the end of its walk. -/
structure Settles (r : SwapRequest) (w : Walk) (result : SwapResult) : Prop where
  remaining : w.remaining ≤ r.amount
  amounts : match r.mode with
    | .exactIn => result.amountIn = r.amount - w.remaining ∧ result.amountOut = w.calculated
    | .exactOut => result.amountIn = w.calculated ∧ result.amountOut = r.amount - w.remaining
  fee : result.fee = w.fee
  protocolFee : result.protocolFee = w.protocolFee
  fundFee : result.fundFee = w.fundFee
  crossed : result.crossed = w.crossings.length

theorem settle_eq_ok {r : SwapRequest} {w : Walk} {result : SwapResult}
    (h : settle r w = .ok result) : Settles r w result := by
  simp only [settle] at h
  rw [Outcome.bind_eq_ok] at h
  obtain ⟨settled, hsettled, h⟩ := h
  rw [subOrRefuse_eq_ok] at hsettled
  obtain ⟨hle, rfl⟩ := hsettled
  cases hmode : r.mode with
  | exactIn =>
      simp only [hmode, Outcome.bind_eq_ok] at h
      obtain ⟨_, -, _, -, h⟩ := h
      obtain rfl := Except.ok.inj h
      exact ⟨hle, by rw [hmode]; exact ⟨rfl, rfl⟩, rfl, rfl, rfl, rfl⟩
  | exactOut =>
      simp only [hmode, Outcome.bind_eq_ok] at h
      obtain ⟨_, -, _, -, h⟩ := h
      obtain rfl := Except.ok.inj h
      exact ⟨hle, by rw [hmode]; exact ⟨rfl, rfl⟩, rfl, rfl, rfl, rfl⟩

/-- **Everything a swap does.** -/
theorem swap_eq_ok {config : FeeConfig} {extension : Option BitmapExtension} {r : SwapRequest}
    {time : Nat} {b b' : SwapBook} {result : SwapResult}
    (h : Clmm.swap config extension r time b = .ok result b') :
    ∃ c cursor w, Swapped config extension r b b' result c cursor w := by
  simp only [Clmm.swap, commit] at h
  simp only [Update.bind_eq_ok, Update.get_eq_ok, Update.lift_eq_ok, Update.pure_eq_ok,
    Update.modify_eq_ok] at h
  obtain ⟨_, _, ⟨rfl, rfl⟩, ⟨w, result'⟩, _, ⟨hquote, rfl⟩, _, _, ⟨_, _, rfl, _, b₁, hfees, hvolume⟩,
    rfl, rfl⟩ := h
  obtain ⟨c, cursor, hamount, hlimit, hc, hcursor, hwalk, hsettle⟩ := quote_eq_ok hquote
  obtain ⟨p₁, haccrue, rfl⟩ := onPool_eq_ok.1 hfees
  obtain ⟨-, rfl⟩ := accrueFees_eq_ok.1 haccrue
  obtain ⟨p₂, hrecord, rfl⟩ := onPool_eq_ok.1 hvolume
  obtain ⟨-, rfl⟩ := recordVolume_eq_ok.1 hrecord
  exact ⟨c, cursor, w, hamount, hlimit, hc, hcursor, hwalk, hsettle, rfl, rfl⟩

/-! ### The setting of a swap -/

theorem course_eq_ok {config : FeeConfig} {pool : Pool} {extension : Option BitmapExtension}
    {r : SwapRequest} {c : Course} (h : course config pool extension r = .ok c) :
    ∃ edges, (pool.bitmapView extension).visibleTicks = .ok edges ∧
      c = { tradeRate := config.tradeRate, protocolRate := config.protocolRate,
            fundRate := config.fundRate, spacing := pool.spacing, view := pool.bitmapView extension,
            visible := edges, limit := effectiveLimit r, mode := r.mode, direction := r.direction,
            growth := pool.growth } := by
  simp only [course] at h
  rw [Outcome.bind_eq_ok] at h
  obtain ⟨edges, hedges, h⟩ := h
  exact ⟨edges, hedges, (Except.ok.inj h).symm⟩

/-- The limit in effect lies ahead of the price and inside the price range. -/
theorem checkLimit_eq_ok {r : SwapRequest} {p : Nat} (h : checkLimit r p = .ok ()) :
    r.direction.Leads p (effectiveLimit r) ∧ effectiveLimit r ≠ p ∧
      (r.direction = .down → minSqrtPrice < effectiveLimit r) ∧
      (r.direction = .up → effectiveLimit r < maxSqrtPrice) := by
  simp only [checkLimit] at h
  cases hd : r.direction with
  | down =>
      simp only [hd, require_eq_ok] at h
      exact ⟨h.1.le, h.1.ne, fun _ => h.2, nofun⟩
  | up =>
      simp only [hd, require_eq_ok] at h
      exact ⟨h.1.le, h.1.ne', nofun, fun _ => h.2⟩

/-- The limit in effect lies inside the price range, whatever the direction. -/
theorem lt_effectiveLimit {r : SwapRequest} {p : Nat} {t : Int} (hp : Agrees p t)
    (h : checkLimit r p = .ok ()) : minSqrtPrice < effectiveLimit r := by
  obtain ⟨hleads, hne, hlow, -⟩ := checkLimit_eq_ok h
  cases hd : r.direction with
  | down => exact hlow hd
  | up =>
      rw [hd] at hleads
      have hmin := minSqrtPrice_le_priceAt hp.min_le hp.le_max
      exact lt_of_le_of_lt (hmin.trans hp.price_le) (lt_of_le_of_ne hleads hne.symm)

section Setting

variable {m : Market} {s : Supply} {t : Int}

theorem bitmapView_sighted (hext : s.extension = true) :
    m.pool.bitmapView (m.supplied s) = m.bitmap := by
  simp only [Pool.bitmapView, Market.supplied]
  rw [if_pos hext]
  rfl

theorem bitmapView_blind (hext : s.extension = false) :
    m.pool.bitmapView (m.supplied s) = ⟨m.pool.bitmap, none, m.pool.spacing⟩ := by
  simp only [Pool.bitmapView, Market.supplied]
  rw [if_neg (by rw [hext]; exact Bool.false_ne_true)]

/-- What a swap's view shows of an array in use: everything, or what lies in the native span. -/
theorem marks_bitmapView (hm : m.WellFormed) {a : TickArray} (ha : a ∈ m.arrays) (ht : a.Uses t) :
    (m.pool.bitmapView (m.supplied s)).Marks a.start ↔ s.extension = true ∨
      Bitmap.nativeBegin m.pool.spacing ≤ t ∧ t < Bitmap.nativeEnd m.pool.spacing := by
  have hmarks := hm.marks_of_uses ha ht
  cases hext : s.extension with
  | true =>
      rw [bitmapView_sighted hext]
      exact ⟨fun _ => Or.inl rfl, fun _ => hmarks⟩
  | false =>
      rw [bitmapView_blind hext, BitmapView.marks_without_extension hm.spacing_pos,
        ← (hm.laid.aligned a ha).floorStart_of_uses ht, Bitmap.floorStart_native hm.spacing_pos]
      rw [← (hm.laid.aligned a ha).floorStart_of_uses ht] at hmarks
      constructor
      · intro hand
        exact Or.inr hand.2
      · intro hor
        exact ⟨hmarks, hor.resolve_left Bool.false_ne_true⟩

/-- The tick at which a swap begins lies where its view can see. -/
theorem sees_bitmapView (hm : m.WellFormed)
    (hsees : (m.pool.bitmapView (m.supplied s)).Sees (TickArray.floorStart t m.pool.spacing)) :
    s.extension = true ∨
      Bitmap.nativeBegin m.pool.spacing ≤ t ∧ t < Bitmap.nativeEnd m.pool.spacing := by
  cases hext : s.extension with
  | true => exact Or.inl rfl
  | false =>
      rw [bitmapView_blind hext] at hsees
      right
      rw [← Bitmap.floorStart_native hm.spacing_pos]
      exact BitmapView.sees_without_extension hm.spacing_pos hsees

/-- The last tick that a swap in direction `d` can be sure of. -/
def farEdge (m : Market) (s : Supply) (d : Direction) : Int :=
  match s.extension, d with
  | true, .down => minTick
  | true, .up => maxTick
  | false, .down => max (Bitmap.nativeBegin m.pool.spacing) minTick
  | false, .up => min (Bitmap.nativeEnd m.pool.spacing) maxTick

theorem edgeTick_eq_farEdge {c : Course} {edges : Int × Int}
    (h : (m.pool.bitmapView (m.supplied s)).visibleTicks = .ok edges) (hc : c.visible = edges) :
    c.edgeTick = farEdge m s c.direction := by
  have hedges := BitmapView.visibleTicks_eq_ok h
  unfold Pool.bitmapView Market.supplied at hedges
  unfold Course.edgeTick farEdge
  rw [hc, hedges]
  cases s.extension with
  | true => cases c.direction <;> rfl
  | false => cases c.direction <;> rfl

theorem not_beyond_farEdge {d : Direction} (hmin : minTick ≤ t) (hmax : t ≤ maxTick)
    (hshown : s.extension = true ∨
      Bitmap.nativeBegin m.pool.spacing ≤ t ∧ t < Bitmap.nativeEnd m.pool.spacing) :
    ¬ d.Beyond (farEdge m s d) t := by
  simp only [farEdge]
  cases hext : s.extension with
  | true =>
      cases d with
      | down => exact Int.not_lt.2 hmin
      | up => exact Int.not_lt.2 hmax
  | false =>
      rw [hext] at hshown
      obtain ⟨hbegin, hend⟩ := hshown.resolve_left Bool.false_ne_true
      cases d with
      | down => exact Int.not_lt.2 (Int.max_le.2 ⟨hbegin, hmin⟩)
      | up => exact Int.not_lt.2 (Int.le_min.2 ⟨hend.le, hmax⟩)

/-- A hidden tick ahead lies beyond the edge; upward it may also lie on it. -/
theorem beyond_farEdge {d : Direction} {u : Int}
    (hhere : s.extension = true ∨
      Bitmap.nativeBegin m.pool.spacing ≤ t ∧ t < Bitmap.nativeEnd m.pool.spacing)
    (hhidden : ¬ (s.extension = true ∨
      Bitmap.nativeBegin m.pool.spacing ≤ u ∧ u < Bitmap.nativeEnd m.pool.spacing))
    (hahead : d.Ahead t u) : d = .up ∧ u = farEdge m s d ∨ d.Beyond (farEdge m s d) u := by
  rw [not_or] at hhidden
  obtain ⟨hbegin, hend⟩ := hhere.resolve_left hhidden.1
  have hext : s.extension = false := Bool.eq_false_iff.2 hhidden.1
  have houtside := hhidden.2
  simp only [farEdge]
  rw [hext]
  cases d with
  | down =>
      have hle : u ≤ t := hahead
      right
      exact lt_of_lt_of_le (by omega) (Int.le_max_left _ _)
  | up =>
      have hlt : t < u := hahead
      have hle : min (Bitmap.nativeEnd m.pool.spacing) maxTick ≤ u :=
        (Int.min_le_left _ _).trans (by omega)
      exact (Int.lt_or_eq_of_le hle).elim Or.inr fun heq => Or.inl ⟨rfl, heq.symm⟩

variable {r : SwapRequest} {b' : SwapBook} {result : SwapResult} {c : Course}
  {cursor : Option Cursor} {w : Walk}

theorem surveys_of_course (hm : m.Orderly) (h : course m.config m.pool (m.supplied s) r = .ok c) :
    c.Surveys m.arrays (m.pick s.starts) := by
  obtain ⟨edges, -, rfl⟩ := course_eq_ok h
  exact ⟨hm.laid, fun _ ha => mem_of_mem_pick ha, rfl⟩

theorem lt_limit_of_course (hm : m.Orderly) (hlimit : checkLimit r m.pool.sqrtPrice = .ok ())
    (h : course m.config m.pool (m.supplied s) r = .ok c) : minSqrtPrice < c.limit := by
  obtain ⟨edges, -, rfl⟩ := course_eq_ok h
  exact lt_effectiveLimit hm.price hlimit

/-- Where a swap sets out from, a walk may stand. -/
theorem afoot_start (hm : m.Orderly) (hlimit : checkLimit r m.pool.sqrtPrice = .ok ())
    (hc : course m.config m.pool (m.supplied s) r = .ok c)
    (hcursor : firstCursor c (m.pick s.starts) m.pool.tick = .ok cursor)
    (hamount : r.amount < 2 ^ 64) :
    Afoot c m.arrays (m.pick s.starts) (start m.pool r cursor) := by
  obtain ⟨hready, -⟩ := firstCursor_spec (surveys_of_course hm hc) hcursor
  obtain ⟨edges, -, rfl⟩ := course_eq_ok hc
  obtain ⟨hleads, -, -, -⟩ := checkLimit_eq_ok hlimit
  exact ⟨hready, hm.price, hleads, hamount, fun _ hx => absurd hx List.not_mem_nil⟩

/-- A swap without sight begins inside the native span. -/
theorem begins_of_course (hm : m.WellFormed)
    (hc : course m.config m.pool (m.supplied s) r = .ok c)
    (hcursor : firstCursor c (m.pick s.starts) m.pool.tick = .ok cursor) :
    s.extension = true ∨ Bitmap.nativeBegin m.pool.spacing ≤ m.pool.tick ∧
      m.pool.tick < Bitmap.nativeEnd m.pool.spacing := by
  obtain ⟨-, hsees⟩ := firstCursor_spec (surveys_of_course hm.orderly hc) hcursor
  obtain ⟨edges, -, rfl⟩ := course_eq_ok hc
  exact sees_bitmapView hm hsees

/-- **The surroundings of a swap in a well-formed market are those that a walk relies on.** -/
theorem setting_of_course (hm : m.WellFormed) (hlimit : checkLimit r m.pool.sqrtPrice = .ok ())
    (hc : course m.config m.pool (m.supplied s) r = .ok c)
    (hcursor : firstCursor c (m.pick s.starts) m.pool.tick = .ok cursor) :
    Setting m c (m.pick s.starts) := by
  have hbegins := begins_of_course hm hc hcursor
  have hsurveys := surveys_of_course hm.orderly hc
  have hlow := lt_limit_of_course hm.orderly hlimit hc
  obtain ⟨edges, hedges, hcourse⟩ := course_eq_ok hc
  have hedge := edgeTick_eq_farEdge hedges (c := c) (by rw [hcourse])
  subst hcourse
  obtain ⟨-, -, -, hhigh⟩ := checkLimit_eq_ok hlimit
  refine ⟨hm, hsurveys, hlow, hhigh, ?_, ?_⟩
  · intro u hshows
    obtain ⟨a, ha, huses, hmarks⟩ := hshows
    rw [marks_bitmapView hm ha huses] at hmarks
    have hbounds := hm.ranged.bounds (hm.inUse_iff_uses.2 ⟨a, ha, huses⟩)
    rw [hedge]
    exact not_beyond_farEdge hbounds.1 hbounds.2 hmarks
  · intro u hu hnot hahead
    obtain ⟨a, ha, huses⟩ := hm.inUse_iff_uses.1 hu
    have hmarks : ¬ (s.extension = true ∨
        Bitmap.nativeBegin m.pool.spacing ≤ u ∧ u < Bitmap.nativeEnd m.pool.spacing) := by
      rw [← marks_bitmapView hm ha huses]
      intro hmarks
      exact hnot ⟨a, ha, huses, hmarks⟩
    rw [hedge]
    exact beyond_farEdge hbegins hmarks hahead

/-- The walk of a swap begins as it goes on. -/
theorem walking_start (hm : m.WellFormed) (hlimit : checkLimit r m.pool.sqrtPrice = .ok ())
    (hc : course m.config m.pool (m.supplied s) r = .ok c)
    (hcursor : firstCursor c (m.pick s.starts) m.pool.tick = .ok cursor)
    (hamount : r.amount < 2 ^ 64) : Walking m c (m.pick s.starts) (start m.pool r cursor) := by
  exact { afoot_start hm.orderly hlimit hc hcursor hamount with
    onward := fun _ _ hahead => hahead
    liquidity := hm.liquidity
    crossed := fun t => ⟨fun ht => absurd ht List.not_mem_nil, fun ht => absurd ht.2.1 ht.2.2⟩
    shown := fun _ ht => absurd ht List.not_mem_nil
    ordered := List.Pairwise.nil }

/-- A swap's walk ends where a walk may stand, whatever it overlooked. -/
theorem Swapped.afoot (hm : m.Orderly)
    (h : Swapped m.config (m.supplied s) r ⟨m.pool, m.pick s.starts⟩ b' result c cursor w)
    (hamount : r.amount < 2 ^ 64) : Afoot c m.arrays (m.pick s.starts) w :=
  walk_induct (step_afoot (surveys_of_course hm h.course_eq)
    (lt_limit_of_course hm h.limit_eq h.course_eq))
    (afoot_start hm h.limit_eq h.course_eq h.cursor_eq hamount) h.walk_eq

theorem Swapped.begins (hm : m.WellFormed)
    (h : Swapped m.config (m.supplied s) r ⟨m.pool, m.pick s.starts⟩ b' result c cursor w) :
    s.extension = true ∨ Bitmap.nativeBegin m.pool.spacing ≤ m.pool.tick ∧
      m.pool.tick < Bitmap.nativeEnd m.pool.spacing :=
  begins_of_course hm h.course_eq h.cursor_eq

theorem Swapped.setting (hm : m.WellFormed)
    (h : Swapped m.config (m.supplied s) r ⟨m.pool, m.pick s.starts⟩ b' result c cursor w) :
    Setting m c (m.pick s.starts) :=
  setting_of_course hm h.limit_eq h.course_eq h.cursor_eq

theorem Swapped.walking_start (hm : m.WellFormed)
    (h : Swapped m.config (m.supplied s) r ⟨m.pool, m.pick s.starts⟩ b' result c cursor w)
    (hamount : r.amount < 2 ^ 64) : Walking m c (m.pick s.starts) (start m.pool r cursor) :=
  Swap.walking_start hm h.limit_eq h.course_eq h.cursor_eq hamount

/-- **A swap's walk crosses exactly the ticks it passes**, or gets stuck. -/
theorem Swapped.walking_or_stuck (hm : m.WellFormed)
    (h : Swapped m.config (m.supplied s) r ⟨m.pool, m.pick s.starts⟩ b' result c cursor w)
    (hamount : r.amount < 2 ^ 64) :
    Walking m c (m.pick s.starts) w ∨ Stuck m c (m.pick s.starts) w :=
  walk_walking (h.setting hm) (h.walking_start hm hamount) h.walk_eq

/-- A swap can only get stuck without sight, on the tick at which the native span ends. -/
theorem Swapped.stuck (hm : m.WellFormed)
    (h : Swapped m.config (m.supplied s) r ⟨m.pool, m.pick s.starts⟩ b' result c cursor w)
    (hstuck : Stuck m c (m.pick s.starts) w) : ¬ m.Sighted s ∧ s.extension = false ∧
      w.tick = Bitmap.nativeEnd m.pool.spacing := by
  obtain ⟨edges, hedges, hc⟩ := course_eq_ok h.course_eq
  obtain ⟨-, -, -, hhigh⟩ := checkLimit_eq_ok h.limit_eq
  obtain ⟨a, ha, huses⟩ := hm.inUse_iff_uses.1 hstuck.inUse
  have hmarks := mt (marks_bitmapView (s := s) hm ha huses).2
    fun hmarks => hstuck.hidden ⟨a, ha, huses, by rw [hc]; exact hmarks⟩
  have hblind : s.extension = false := Bool.eq_false_iff.2 (not_or.1 hmarks).1
  have hup := hstuck.up
  have hedge : w.tick = min (Bitmap.nativeEnd m.pool.spacing) maxTick := by
    have hfar := edgeTick_eq_farEdge hedges (c := c) (by rw [hc])
    simp only [Course.edgeTick, farEdge] at hfar
    rw [hup, hblind] at hfar
    exact hstuck.edge.trans hfar
  -- the limit is below the price of the highest tick
  have hinside : w.tick ≠ maxTick := by
    intro heq
    have hprice := hstuck.price.price_le
    have htoward := hstuck.toward
    have hlimit : c.limit < maxSqrtPrice := by
      rw [hc] at hup ⊢
      exact hhigh hup
    rw [heq, priceAt_maxTick] at hprice
    omega
  have hend : w.tick = Bitmap.nativeEnd m.pool.spacing := by omega
  refine ⟨?_, hblind, hend⟩
  intro hsighted
  rcases hsighted with hext | ⟨-, hspan⟩
  · rw [hblind] at hext
    cases hext
  · have := hstuck.price.le_max
    omega

/-- Nothing in use at the far edge of the native span is overlooked. -/
def Clear (m : Market) (s : Supply) (w : Walk) : Prop :=
  m.Sighted s ∨ ¬ (s.extension = false ∧ w.tick = Bitmap.nativeEnd m.pool.spacing ∧
    (lookup m.arrays w.tick).isInitialized = true)

/-- Where nothing is overlooked, the walk does not get stuck. -/
theorem Swapped.not_stuck (hm : m.WellFormed)
    (h : Swapped m.config (m.supplied s) r ⟨m.pool, m.pick s.starts⟩ b' result c cursor w)
    (hclear : Clear m s w) : ¬ Stuck m c (m.pick s.starts) w := by
  intro hstuck
  obtain ⟨hblind, hext, hend⟩ := h.stuck hm hstuck
  exact hclear.resolve_left hblind ⟨hext, hend, hm.inUse_iff.1 hstuck.inUse⟩

theorem Swapped.walking (hm : m.WellFormed)
    (h : Swapped m.config (m.supplied s) r ⟨m.pool, m.pick s.starts⟩ b' result c cursor w)
    (hamount : r.amount < 2 ^ 64) (hclear : Clear m s w) : Walking m c (m.pick s.starts) w :=
  (h.walking_or_stuck hm hamount).resolve_right (h.not_stuck hm hclear)

end Setting

/-! ### Writing the crossings -/

/-- A table of ticks with crossed ticks written into it, one after the other. -/
def crossedTable (table : Int → Tick) (xs : List Crossing) : Int → Tick :=
  xs.foldl (fun f x => Function.update f x.tick.index x.tick) table

theorem crossedTable_concat (table : Int → Tick) (xs : List Crossing) (x : Crossing) :
    crossedTable table (xs ++ [x]) =
      Function.update (crossedTable table xs) x.tick.index x.tick := by
  simp only [crossedTable]
  rw [List.foldl_append]
  rfl

theorem crossedTable_of_not_mem {table : Int → Tick} {xs : List Crossing} {t : Int}
    (ht : t ∉ xs.map (·.tick.index)) : crossedTable table xs t = table t := by
  induction xs using List.reverseRecOn with
  | nil => rfl
  | append_singleton xs x ih =>
      rw [List.map_append, List.mem_append, not_or] at ht
      have hne : t ≠ x.tick.index := fun heq => ht.2 (List.mem_singleton.2 heq)
      rw [crossedTable_concat, Function.update_of_ne hne, ih ht.1]

/-- `arrays'` are the arrays after writes that leave the liquidity of every tick as it was. -/
structure SameLiquidity (arrays arrays' : List TickArray) (spacing : Nat) : Prop where
  laid : Laid arrays' spacing
  starts : arrays'.map (·.start) = arrays.map (·.start)
  gross : ∀ t, (lookup arrays' t).gross = (lookup arrays t).gross
  net : ∀ t, (lookup arrays' t).net = (lookup arrays t).net
  counted : (∀ a ∈ arrays, a.count = a.usedCount) → ∀ a ∈ arrays', a.count = a.usedCount
  tracks : ∀ v, Tracks arrays v → Tracks arrays' v

theorem SameLiquidity.refl {arrays : List TickArray} {spacing : Nat} (h : Laid arrays spacing) :
    SameLiquidity arrays arrays spacing :=
  ⟨h, rfl, fun _ => rfl, fun _ => rfl, id, fun _ => id⟩

theorem SameLiquidity.setSlot {arrays arrays' : List TickArray} {spacing offset : Nat} {start : Int}
    {k : Tick} (h : SameLiquidity arrays arrays' spacing) (hstart : start ∈ arrays.map (·.start))
    (hoffset : offset < arraySize) (hk : k.index = start + (offset : Int) * spacing)
    (hgross : k.gross = (lookup arrays k.index).gross) (hnet : k.net = (lookup arrays k.index).net) :
    SameLiquidity arrays (modifyAt arrays' start (·.setSlot offset k)) spacing := by
  have hlookup := lookup_setSlot h.laid (h.starts ▸ hstart) hoffset hk
  exact {
    laid := laid_setSlot h.laid hk
    starts := by rw [map_start_modifyAt_setSlot, h.starts]
    gross := fun t => by
      rw [hlookup]
      by_cases ht : t = k.index
      · rw [ht, Function.update_self, hgross]
      · rw [Function.update_of_ne ht, h.gross]
    net := fun t => by
      rw [hlookup]
      by_cases ht : t = k.index
      · rw [ht, Function.update_self, hnet]
      · rw [Function.update_of_ne ht, h.net]
    counted := fun hcounted b hb => by
      obtain ⟨a, ha, rfl⟩ := mem_modifyAt.1 hb
      have hold := h.counted hcounted a ha
      by_cases heq : a.start = start
      · rw [if_pos heq]
        have hindex : a.ticks[offset].index = k.index := by
          rw [(h.laid.aligned a ha).index offset hoffset, hk, heq]
        have hslot := lookup_of_mem h.laid (mem_ticks.2 ⟨a, ha, offset, hoffset, rfl⟩)
        have hused : a.ticks[offset].isInitialized = k.isInitialized := by
          simp only [Tick.isInitialized]
          rw [← hslot, hindex, h.gross, hgross]
        -- the written tick is in use just when the old one was
        have hcount := TickArray.usedCount_setSlot (a := a) hoffset k
        rw [hused] at hcount
        change a.count = _
        omega
      · rw [if_neg heq]
        exact hold
    tracks := fun v hv => (h.tracks v hv).setSlot start offset k }

/-- **Writing the crossings at the end** writes them into the table of ticks, one after the other, and
leaves all liquidity as it was. -/
theorem writeCrossings_spec {m : Market} (hl : Laid m.arrays m.pool.spacing) {c : Course}
    {supplied : List TickArray} (hown : ∀ a ∈ supplied, a ∈ m.arrays) {xs : List Crossing}
    (hfits : ∀ x ∈ xs, x.Fits c m.arrays supplied) :
    (writeCrossings supplied xs).map (·.start) = supplied.map (·.start) ∧
      SameLiquidity m.arrays (Market.putBack m.arrays (writeCrossings supplied xs))
        m.pool.spacing ∧
      lookup (Market.putBack m.arrays (writeCrossings supplied xs)) =
        crossedTable (lookup m.arrays) xs := by
  induction xs using List.reverseRecOn with
  | nil =>
      change _ ∧ SameLiquidity _ (Market.putBack m.arrays supplied) _ ∧
        lookup (Market.putBack m.arrays supplied) = _
      -- nothing was crossed, and the supplied arrays are the market's own
      rw [putBack_self hl hown]
      exact ⟨rfl, .refl hl, rfl⟩
  | append_singleton xs x ih =>
      obtain ⟨hstarts, hsame, hlookup⟩ := ih fun y hy => hfits y (List.mem_append_left _ hy)
      obtain ⟨a, ha, hfirst, hoffset, growth, hx⟩ :=
        hfits x (List.mem_append_right _ (List.mem_singleton.2 rfl))
      have hwrite : writeCrossings supplied (xs ++ [x]) =
          (writeCrossings supplied xs).modify x.index (·.setSlot x.offset x.tick) := by
        simp only [writeCrossings]
        rw [List.foldl_append]
        rfl
      -- the crossing belongs to a place of an array of the market
      have hindex : x.tick.index = a.start + (x.offset : Int) * m.pool.spacing := by
        rw [hx]
        exact (hl.aligned a ha).index _ hoffset
      have hslot : lookup m.arrays x.tick.index = a.ticks[x.offset] := by
        rw [hx]
        exact lookup_of_mem hl (mem_ticks.2 ⟨a, ha, _, hoffset, rfl⟩)
      have hstart : a.start ∈ m.arrays.map (·.start) := List.mem_map_of_mem ha
      rw [← hstarts] at hfirst
      rw [hwrite, putBack_setSlot hfirst, map_start_setSlot]
      refine ⟨hstarts, ?_, ?_⟩
      · apply hsame.setSlot hstart hoffset hindex
        · rw [hslot, hx]
          rfl
        · rw [hslot, hx]
          rfl
      · rw [lookup_setSlot hsame.laid (hsame.starts ▸ hstart) hoffset hindex, crossedTable_concat,
          hlookup]

theorem Swapped.written {m : Market} {s : Supply} {r : SwapRequest} {b' : SwapBook}
    {result : SwapResult} {c : Course} {cursor : Option Cursor} {w : Walk} (hm : m.Orderly)
    (h : Swapped m.config (m.supplied s) r ⟨m.pool, m.pick s.starts⟩ b' result c cursor w)
    (hfits : ∀ x ∈ w.crossings, x.Fits c m.arrays (m.pick s.starts)) :
    SameLiquidity m.arrays (Market.putBack m.arrays b'.arrays) m.pool.spacing ∧
      lookup (Market.putBack m.arrays b'.arrays) = crossedTable (lookup m.arrays) w.crossings := by
  obtain ⟨-, hsame, hlookup⟩ := writeCrossings_spec hm.laid (fun _ ha => mem_of_mem_pick ha) hfits
  rw [h.arrays]
  exact ⟨hsame, hlookup⟩

end Swap

namespace Market

variable {m m' : Market} {r : SwapRequest} {time : Nat} {s : Supply} {result : SwapResult}

theorem record_eq_ok {o o' : Oracle} {time : Nat} {tick : Int} (h : o.record time tick = .ok o')
    (hnewest : o.newest < 32) : o'.newest < 32 := by
  unfold Oracle.record at h
  split at h
  · obtain rfl := Except.ok.inj h
    exact Nat.zero_lt_succ 31
  · dsimp only at h
    split at h
    · exact Except.ok.inj h ▸ hnewest
    · obtain rfl := Except.ok.inj h
      exact Nat.mod_lt _ (Nat.zero_lt_succ 31)

/-- The oracle of a well-formed market takes every observation. -/
theorem record_isOk {o : Oracle} (hnewest : o.newest < 32) (time : Nat) (tick : Int) :
    ∃ o', o.record time tick = .ok o' := by
  unfold Oracle.record
  split
  · exact ⟨_, rfl⟩
  · dsimp only
    split
    · exact ⟨_, rfl⟩
    · exact ⟨_, rfl⟩

/-- A swap of a market is one of its pool and the arrays picked from it. -/
theorem swap_eq_ok (h : m.swap r time s = .ok (m', result)) :
    ∃ c cursor w b',
      Swap.Swapped m.config (m.supplied s) r ⟨m.pool, m.pick s.starts⟩ b' result c cursor w ∧
        m.oracle.record (time % 2 ^ 32) b'.pool.tick = .ok m'.oracle ∧
        m' = { m with
          pool := b'.pool, arrays := putBack m.arrays b'.arrays, oracle := m'.oracle } := by
  simp only [Market.swap] at h
  cases hswap : Clmm.swap m.config (m.supplied s) r time ⟨m.pool, m.pick s.starts⟩ with
  | error e b' =>
      rw [hswap] at h
      cases h
  | ok result' b' =>
      simp only [hswap, Outcome.bind_eq_ok] at h
      obtain ⟨oracle, horacle, h⟩ := h
      obtain ⟨rfl, rfl⟩ := Prod.mk.inj (Except.ok.inj h)
      obtain ⟨c, cursor, w, hswapped⟩ := Swap.swap_eq_ok hswap
      exact ⟨c, cursor, w, b', hswapped, horacle, rfl⟩

/-- Every swap of the pool is one of the market: the oracle never stands in its way. -/
theorem WellFormed.swap_of_ok (hm : m.WellFormed) {b' : SwapBook}
    (h : Clmm.swap m.config (m.supplied s) r time ⟨m.pool, m.pick s.starts⟩ = .ok result b') :
    ∃ m', m.swap r time s = .ok (m', result) ∧ m'.pool = b'.pool ∧
      m'.arrays = putBack m.arrays b'.arrays := by
  obtain ⟨oracle, horacle⟩ := record_isOk hm.oracle (time % 2 ^ 32) b'.pool.tick
  refine ⟨{ m with pool := b'.pool, arrays := putBack m.arrays b'.arrays, oracle }, ?_, rfl, rfl⟩
  simp only [Market.swap]
  simp only [h, horacle, Outcome.ok_bind]
  rfl

/-- A swap that a run admits overlooks nothing. -/
theorem Admits.clear {b' : SwapBook} {c : Swap.Course} {cursor : Option Swap.Cursor} {w : Swap.Walk}
    (h : m.Admits (.swap r time s) m') (hpool : m'.pool = b'.pool)
    (hswapped : Swap.Swapped m.config (m.supplied s) r ⟨m.pool, m.pick s.starts⟩ b' result c
      cursor w) : Swap.Clear m s w := by
  have htick : m'.pool.tick = w.tick := by rw [hpool, hswapped.pool]
  refine h.2.imp id fun hclear hoverlooks => hclear ?_
  simp only [Overlooks]
  rw [htick]
  exact hoverlooks

/-- **Every swap keeps a market orderly**, whatever it overlooks. -/
theorem Orderly.swap (hm : m.Orderly) (hamount : r.amount < 2 ^ 64)
    (h : m.swap r time s = .ok (m', result)) : m'.Orderly := by
  obtain ⟨c, cursor, w, b', hswapped, horacle, hm'⟩ := swap_eq_ok h
  have htick : b'.pool.tick = w.tick := by rw [hswapped.pool]
  have hsqrt : b'.pool.sqrtPrice = w.sqrtPrice := by rw [hswapped.pool]
  have hspacing : b'.pool.spacing = m.pool.spacing := by rw [hswapped.pool]
  have hbitmap : b'.pool.bitmap = m.pool.bitmap := by rw [hswapped.pool]
  have hpool : m'.pool = b'.pool := by rw [hm']
  have hw := hswapped.afoot hm hamount
  obtain ⟨hsame, -⟩ := hswapped.written hm hw.fits
  have hwhole : m'.bitmap = m.bitmap := by
    simp only [bitmap]
    rw [hm', ← hspacing, ← hbitmap]
  have harrays : m'.arrays = putBack m.arrays b'.arrays := by rw [hm']
  exact {
    spacing_pos := by
      rw [hpool, hspacing]
      exact hm.spacing_pos
    laid := by
      rw [hpool, hspacing, harrays]
      exact hsame.laid
    counted := harrays ▸ hsame.counted hm.counted
    marked := by
      rw [hwhole, harrays]
      exact hsame.tracks _ hm.marked
    price := by
      rw [hpool, hsqrt, htick]
      exact hw.price
    oracle := record_eq_ok horacle hm.oracle }

/-- **A swap that overlooks nothing keeps a market well formed.** -/
theorem WellFormed.swap (hm : m.WellFormed) (hadmits : m.Admits (.swap r time s) m')
    (h : m.swap r time s = .ok (m', result)) : m'.WellFormed := by
  have horderly := hm.orderly.swap hadmits.1 h
  obtain ⟨c, cursor, w, b', hswapped, -, hm'⟩ := swap_eq_ok h
  have htick : b'.pool.tick = w.tick := by rw [hswapped.pool]
  have hliquidity : b'.pool.liquidity = w.liquidity := by rw [hswapped.pool]
  have hpool : m'.pool = b'.pool := by rw [hm']
  have hw := hswapped.walking hm hadmits.1 (hadmits.clear hpool hswapped)
  obtain ⟨hsame, -⟩ := hswapped.written hm.orderly hw.fits
  have harrays : m'.arrays = putBack m.arrays b'.arrays := by rw [hm']
  have hpositions : m'.positions = m.positions := by rw [hm']
  exact { horderly with
    gross := fun t => by
      rw [harrays, hsame.gross, hpositions]
      exact hm.gross t
    net := fun t => by
      rw [harrays, hsame.net, hpositions]
      exact hm.net t
    ranged := hpositions ▸ hm.ranged
    liquidity := by
      rw [hpool, hpositions, hliquidity, htick]
      exact hw.liquidity }

end Market

end Clmm
